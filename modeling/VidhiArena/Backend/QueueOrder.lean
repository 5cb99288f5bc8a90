import Mathlib.Data.List.Induction
import VidhiArena.Backend.JobLists
import VidhiArena.Foundation.Faulting

/-!
# The order of the job queue

The jobs of `backend/jobs/queue.go` with the number of the `Enqueue` call that each
of them came with, and the active ones with the number of the `Dequeue` call that
made them active. The commands look at neither: without the numbers the lists are
those of `JobQueue`.

`Enqueue` pushes on the left of the pending list and `Dequeue` pops there, so the
newest job leaves first. `Dequeue` appends on the right of the active list and
`Reclaim` pops there, so the newest active job comes back.
-/

namespace VidhiArena.Backend

open VidhiArena.Foundation

/-- A job and the number of its `Enqueue` call. -/
structure Ticket where
  number : Nat
  job : Job
deriving DecidableEq

structure TicketQueue where
  pending : List Ticket
  /-- with the number of the `Dequeue` call -/
  active : List (Ticket × Nat)
  /-- the `Enqueue` calls so far -/
  issued : Nat
  /-- what the `Dequeue` calls have returned, in their order -/
  served : List Nat

namespace TicketQueue

def init : TicketQueue := ⟨[], [], 0, []⟩

/-- What `RPOPLPUSH` takes from the active list. -/
def reclaimed (s : TicketQueue) : Option (Ticket × Nat) := s.active.getLast?

def step (s : TicketQueue) : QueueMove → TicketQueue
  | .enqueue job => { s with pending := ⟨s.issued, job⟩ :: s.pending, issued := s.issued + 1 }
  | .dequeue =>
      match s.pending with
      | [] => s
      | t :: pending => { s with
          pending
          active := s.active ++ [(t, s.served.length)]
          served := s.served ++ [t.number] }
  | .ack job => { s with active := s.active.eraseP fun x => x.1.job = job }
  | .reclaim =>
      match s.reclaimed with
      | none => s
      | some x => { s with active := s.active.dropLast, pending := x.1 :: s.pending }

def run (moves : List QueueMove) : TicketQueue := moves.foldl step init

/-! ## Without the numbers -/

/-- The lists of the queue are those of the tickets. -/
structure Numbers (s : TicketQueue) (q : JobQueue) : Prop where
  pending : q.pending = s.pending.map fun t => t.job.marshal
  active : q.active = s.active.map fun x => x.1.job.marshal

theorem active_erase (active : List (Ticket × Nat)) (job : Job) :
    (active.map fun x => x.1.job.marshal).erase job.marshal =
      (active.eraseP fun x => x.1.job = job).map fun x => x.1.job.marshal := by
  rw [List.erase_eq_eraseP, List.eraseP_map]
  congr 2
  funext x
  rw [Function.comp_apply, Bool.eq_iff_iff, beq_iff_eq, decide_eq_true_eq,
    Job.marshal_injective.eq_iff, eq_comm]

theorem Numbers.step {s : TicketQueue} {q : JobQueue} (h : s.Numbers q) (m : QueueMove) :
    (s.step m).Numbers (q.step m) := by
  obtain ⟨hpending, hactive⟩ := h
  cases m with
  | enqueue job => exact ⟨congrArg (job.marshal :: ·) hpending, hactive⟩
  | dequeue =>
      rw [TicketQueue.step, JobQueue.step, JobQueue.dequeue, hpending]
      cases hs : s.pending with
      | nil => exact ⟨hpending.trans (by rw [hs]), hactive⟩
      | cons t pending =>
          refine ⟨rfl, ?_⟩
          show q.active ++ [t.job.marshal] = _
          rw [hactive, List.map_append]
          rfl
  | ack job =>
      rw [TicketQueue.step, JobQueue.step, JobQueue.ack]
      split
      · exact ⟨hpending, (congrArg (·.erase job.marshal) hactive).trans (active_erase _ _)⟩
      · next hout =>
          refine ⟨hpending, ?_⟩
          rw [hactive] at hout ⊢
          rw [← active_erase, List.erase_of_not_mem hout]
  | reclaim =>
      rw [TicketQueue.step, JobQueue.step, JobQueue.reclaim, reclaimed, hactive, List.getLast?_map]
      cases s.active.getLast? with
      | none => exact ⟨hpending, hactive⟩
      | some x => exact ⟨congrArg (x.1.job.marshal :: ·) hpending, List.map_dropLast.symm⟩

theorem numbers_run (moves : List QueueMove) : (run moves).Numbers (JobQueue.run moves) := by
  induction moves using List.reverseRecOn with
  | nil => exact ⟨rfl, rfl⟩
  | append_singleton moves m ih =>
      rw [run, JobQueue.run, List.foldl_append, List.foldl_append]
      exact ih.step m

/-! ## What the order owes -/

/-- The jobs have been dequeued in the order in which they were enqueued. -/
def InOrder (s : TicketQueue) : Prop := s.served = List.range s.served.length

instance (s : TicketQueue) : Decidable s.InOrder := inferInstanceAs (Decidable (_ = _))

/-- The job that `Reclaim` takes is the one that has been active longest. -/
def ReclaimsLongest (s : TicketQueue) : Prop := ∀ x ∈ s.reclaimed, ∀ y ∈ s.active, x.2 ≤ y.2

/-- The order of a sequence of calls. -/
structure Ordered (moves : List QueueMove) : Prop where
  queue : .reclaim ∉ moves → (run moves).InOrder
  reaper : ∀ pre, pre ++ [.reclaim] <+: moves → (run pre).ReclaimsLongest

/-- `Dequeue` finds one job at most. -/
def DequeuesAlone (s : TicketQueue) (m : QueueMove) : Prop := m = .dequeue → s.pending.length ≤ 1

/-- `Reclaim` finds one job at most. -/
def ReclaimsAlone (s : TicketQueue) (m : QueueMove) : Prop := m = .reclaim → s.active.length ≤ 1

/-- The calls that keep the order. -/
structure Alone (moves : List QueueMove) : Prop where
  queue : .reclaim ∉ moves → Along step DequeuesAlone init moves
  reaper : Along step ReclaimsAlone init moves

/-! ## The queue -/

/-- Without reclaims, what has been served and what is pending are the calls of `Enqueue`
in their order. -/
def Lined (s : TicketQueue) : Prop :=
  s.served ++ (s.pending.map Ticket.number).reverse = List.range s.issued

theorem eq_range_of_prefix {l : List Nat} {n : Nat} (h : l <+: List.range n) :
    l = List.range l.length := by
  have hlen := h.length_le
  rw [List.length_range] at hlen
  have htake := List.prefix_iff_eq_take.mp h
  rwa [List.take_range, Nat.min_eq_left hlen] at htake

theorem Lined.inOrder {s : TicketQueue} (h : s.Lined) : s.InOrder :=
  eq_range_of_prefix ⟨_, h⟩

theorem Lined.step {s : TicketQueue} (h : s.Lined) {m : QueueMove} (hm : m ≠ .reclaim)
    (halone : s.DequeuesAlone m) : (s.step m).Lined := by
  cases m with
  | enqueue job =>
      show s.served ++ (s.issued :: s.pending.map Ticket.number).reverse = List.range (s.issued + 1)
      rw [List.reverse_cons, ← List.append_assoc, h, List.range_succ]
  | dequeue =>
      have hlen := halone rfl
      rw [TicketQueue.step]
      cases hs : s.pending with
      | nil => exact h
      | cons t pending =>
          rw [hs, List.length_cons] at hlen
          have hnil : pending = [] := List.eq_nil_of_length_eq_zero (by omega)
          rw [Lined, hs, hnil] at h
          rw [hnil]
          simpa [Lined] using h
  | ack job => exact h
  | reclaim => exact absurd rfl hm

/-- A job that is served while an older one waits is served out of order. -/
theorem Lined.alone_of_inOrder {s : TicketQueue} (h : s.Lined) {m : QueueMove}
    (horder : (s.step m).InOrder) : s.DequeuesAlone m := by
  rintro rfl
  by_contra hmore
  obtain ⟨t, u, rest, hs⟩ : ∃ t u rest, s.pending = t :: u :: rest := by
    match hs : s.pending with
    | [] | [_] => simp [hs] at hmore
    | t :: u :: rest => exact ⟨t, u, rest, rfl⟩
  have hserved : s.served ++ [t.number] = List.range (s.served ++ [t.number]).length := by
    have horder := horder
    simp only [TicketQueue.step, hs] at horder
    exact horder
  have hnumber : t.number = s.served.length := by
    rw [List.length_append, List.length_singleton, List.range_succ] at hserved
    exact (List.cons.inj (List.append_inj_right' hserved rfl)).1
  -- the newest number is the last one issued
  have hline := h
  rw [Lined, hs, List.map_cons, List.reverse_cons, ← List.append_assoc] at hline
  have hlen := congrArg List.length hline
  simp only [List.length_append, List.length_reverse, List.length_map, List.length_cons,
    List.length_nil, List.length_range] at hlen
  obtain ⟨n, hn⟩ : ∃ n, s.issued = n + 1 := ⟨s.issued - 1, by omega⟩
  rw [hn, List.range_succ] at hline
  have hlast := (List.cons.inj (List.append_inj_right' hline rfl)).1
  omega

theorem served_prefix (moves : List QueueMove) : ∀ s : TicketQueue,
    s.served <+: (moves.foldl TicketQueue.step s).served := by
  induction moves with
  | nil => exact fun s => List.prefix_rfl
  | cons m moves ih =>
      intro s
      refine List.IsPrefix.trans ?_ (ih (s.step m))
      cases m with
      | enqueue job => exact List.prefix_rfl
      | dequeue =>
          rw [TicketQueue.step]
          cases s.pending with
          | nil => exact List.prefix_rfl
          | cons t pending => exact List.prefix_append _ _
      | ack job => exact List.prefix_rfl
      | reclaim =>
          rw [TicketQueue.step]
          cases s.reclaimed with
          | none => exact List.prefix_rfl
          | some x => exact List.prefix_rfl

theorem inOrder_iff {moves : List QueueMove} (hmoves : .reclaim ∉ moves) :
    (run moves).InOrder ↔ Along TicketQueue.step DequeuesAlone init moves := by
  have hdom : Along TicketQueue.step (fun _ m => m ≠ .reclaim) init moves :=
    along_of_forall fun m hm heq => hmoves (heq ▸ hm)
  have hiff := foldl_obs_iff_along (fun (s : TicketQueue) (h : s.Lined) => h.inOrder)
    (fun _ _ h hm halone => h.step hm halone) (fun _ _ h _ horder => h.alone_of_inOrder horder)
    moves (rfl : init.Lined) hdom
  rw [← hiff]
  constructor
  · rintro horder pre ⟨post, rfl⟩
    rw [run, List.foldl_append] at horder
    have hprefix := served_prefix post (pre.foldl TicketQueue.step init)
    exact eq_range_of_prefix (horder ▸ hprefix)
  · exact fun h => h moves List.prefix_rfl

/-! ## The reaper -/

/-- Active jobs stand in the order in which they became active. -/
def Aged (s : TicketQueue) : Prop :=
  (s.active.map Prod.snd).Pairwise (· < ·) ∧ ∀ x ∈ s.active, x.2 < s.served.length

theorem Aged.sublist {s : TicketQueue} (h : s.Aged) {active : List (Ticket × Nat)}
    (hsub : active.Sublist s.active) :
    (active.map Prod.snd).Pairwise (· < ·) ∧ ∀ x ∈ active, x.2 < s.served.length :=
  ⟨h.1.sublist (hsub.map _), fun x hx => h.2 x (hsub.subset hx)⟩

theorem Aged.step {s : TicketQueue} (h : s.Aged) (m : QueueMove) : (s.step m).Aged := by
  cases m with
  | enqueue job => exact h
  | dequeue =>
      rw [TicketQueue.step]
      cases s.pending with
      | nil => exact h
      | cons t pending =>
          refine ⟨?_, fun x hx => ?_⟩
          · show ((s.active ++ [(t, s.served.length)]).map Prod.snd).Pairwise (· < ·)
            rw [List.map_append, List.pairwise_append]
            refine ⟨h.1, List.pairwise_singleton _ _, fun k hk l hl => ?_⟩
            obtain ⟨x, hx, rfl⟩ := List.mem_map.mp hk
            rw [List.mem_singleton.mp hl]
            exact h.2 x hx
          · show x.2 < (s.served ++ [t.number]).length
            rw [List.length_append, List.length_singleton]
            rcases List.mem_append.mp hx with hx | hx
            · exact Nat.lt_succ_of_lt (h.2 x hx)
            · rw [List.mem_singleton.mp hx]
              exact Nat.lt_succ_self _
  | ack job => exact h.sublist List.eraseP_sublist
  | reclaim =>
      rw [TicketQueue.step]
      cases s.reclaimed with
      | none => exact h
      | some x => exact h.sublist (List.dropLast_sublist _)

theorem aged_run (moves : List QueueMove) : (run moves).Aged :=
  List.foldlRecOn moves TicketQueue.step (motive := Aged)
    ⟨List.Pairwise.nil, fun _ hx => absurd hx List.not_mem_nil⟩ fun _ h m _ => h.step m

/-- The last of the active jobs is the one that has been active for the shortest time. -/
theorem Aged.reclaimsLongest_iff {s : TicketQueue} (h : s.Aged) :
    s.ReclaimsLongest ↔ s.active.length ≤ 1 := by
  obtain ⟨hsorted, -⟩ := h
  unfold ReclaimsLongest reclaimed
  rcases List.eq_nil_or_concat s.active with hs | ⟨active, x, hs⟩
  · rw [hs]
    exact iff_of_true (fun _ hx => by cases hx) (Nat.zero_le 1)
  · rw [List.concat_eq_append] at hs
    rw [hs, List.map_append, List.pairwise_append] at hsorted
    rw [hs, List.getLast?_concat, List.length_append, List.length_singleton]
    constructor
    · intro hlongest
      cases active with
      | nil => exact le_rfl
      | cons y active =>
          have hle := hlongest x rfl y List.mem_cons_self
          have hlt := hsorted.2.2 y.2 List.mem_cons_self x.2 List.mem_cons_self
          omega
    · intro hlen x' hx' y hy
      have hnil : active = [] := List.eq_nil_of_length_eq_zero (by omega)
      rw [hnil] at hy
      cases hx'
      rw [List.mem_singleton.mp hy]

/-- The order is kept if and only if the calls find one job at most. -/
theorem ordered_iff (moves : List QueueMove) : Ordered moves ↔ Alone moves := by
  have hreaper : (∀ pre, pre ++ [.reclaim] <+: moves → (run pre).ReclaimsLongest) ↔
      Along TicketQueue.step ReclaimsAlone init moves := by
    rw [along_iff]
    constructor
    · rintro h pre m hpre rfl
      exact (aged_run pre).reclaimsLongest_iff.mp (h pre hpre)
    · exact fun h pre hpre => (aged_run pre).reclaimsLongest_iff.mpr (h pre _ hpre rfl)
  constructor
  · exact fun h => ⟨fun hmoves => (inOrder_iff hmoves).mp (h.queue hmoves), hreaper.mp h.reaper⟩
  · exact fun h => ⟨fun hmoves => (inOrder_iff hmoves).mpr (h.queue hmoves), hreaper.mpr h.reaper⟩

def ada : Job := ⟨"run_a", "ada", "a.so"⟩
def bob : Job := ⟨"run_b", "bob", "b.so"⟩

/-- A stack: two jobs are enqueued, and the second leaves first. And of two active jobs
the one that became active last is reclaimed. -/
theorem second_job_first :
    ¬ Ordered [.enqueue ada, .enqueue bob, .dequeue] ∧
      ¬ Ordered [.enqueue ada, .dequeue, .enqueue bob, .dequeue, .reclaim] := by
  constructor
  · intro h
    exact absurd (h.queue (by simp)) (by decide)
  · intro h
    have hlongest := h.reaper [.enqueue ada, .dequeue, .enqueue bob, .dequeue] List.prefix_rfl
    exact absurd (hlongest (⟨1, bob⟩, 1) rfl (⟨0, ada⟩, 0) (by decide)) (by decide)

end TicketQueue

end VidhiArena.Backend
