import Mathlib.Data.Multiset.AddSub
import VidhiArena.Foundation.JsonText

/-!
# The job lists

`Queue` of `backend/jobs/queue.go`: two Redis lists of payloads, and four operations of one
command each. The commands of all clients form one sequence; which client sends one makes no
difference to what it does. `enqueued` and `acked` record the jobs that `LPUSH` and an
effective `LREM` were for.

A payload is the text that `json.Marshal` writes, with the left end of a list first.
-/

namespace VidhiArena.Backend

open VidhiArena.Foundation JsonText

structure Job where
  runID : String
  userID : String
  codePath : String
deriving DecidableEq

namespace Job

/-! ## Payloads -/

def runLabel : List Char := "\x7b\"run_id\":".toList
def userLabel : List Char := ",\"user_id\":".toList
def pathLabel : List Char := ",\"code_path\":".toList
def closing : List Char := "\x7d".toList

def marshal (job : Job) : List Char :=
  runLabel ++ (quoted job.runID.toList ++
    (userLabel ++ (quoted job.userID.toList ++
      (pathLabel ++ (quoted job.codePath.toList ++ closing)))))

def expect (literal text : List Char) : Option (List Char) :=
  if literal.isPrefixOf text then some (text.drop literal.length) else none

/-- `json.Unmarshal`, on what `json.Marshal` writes. -/
def unmarshal (text : List Char) : Option Job := do
  let (runID, text) ← readQuoted (← expect runLabel text)
  let (userID, text) ← readQuoted (← expect userLabel text)
  let (codePath, text) ← readQuoted (← expect pathLabel text)
  let rest ← expect closing text
  if rest.isEmpty then
    some ⟨String.ofList runID, String.ofList userID, String.ofList codePath⟩
  else none

theorem expect_append (literal text : List Char) :
    expect literal (literal ++ text) = some text := by
  rw [expect, if_pos (List.isPrefixOf_iff_prefix.mpr (List.prefix_append _ _)), List.drop_left]

theorem unmarshal_marshal (job : Job) : unmarshal job.marshal = some job := by
  have hend : expect closing closing = some [] := by
    have h := expect_append closing []
    rwa [List.append_nil] at h
  rw [unmarshal, marshal]
  simp only [expect_append, readQuoted_quoted, Option.bind_eq_bind, Option.bind_some, hend,
    List.isEmpty_nil, if_true, String.ofList_toList]

theorem marshal_injective : Function.Injective marshal := fun job job' h =>
  Option.some.inj ((unmarshal_marshal job).symm.trans (h ▸ unmarshal_marshal job'))

end Job

/-! ## The commands -/

structure JobQueue where
  pending : List (List Char)
  active : List (List Char)
  enqueued : Multiset Job
  acked : Multiset Job

inductive QueueMove where
  | enqueue (job : Job)
  | dequeue
  | ack (job : Job)
  | reclaim

namespace JobQueue

def init : JobQueue := ⟨[], [], 0, 0⟩

/-- `Enqueue`: `LPUSH`. -/
def enqueue (s : JobQueue) (job : Job) : JobQueue :=
  { s with pending := job.marshal :: s.pending, enqueued := job ::ₘ s.enqueued }

/-- `Dequeue`: `BLMOVE LEFT RIGHT`, and the job that the caller gets; `none` on a timeout. -/
def dequeue (s : JobQueue) : JobQueue × Option (Option Job) :=
  match s.pending with
  | [] => (s, none)
  | data :: pending =>
      ({ s with pending, active := s.active ++ [data] }, some (Job.unmarshal data))

/-- `Ack`: `LREM` of one element with this value. -/
def ack (s : JobQueue) (job : Job) : JobQueue :=
  if job.marshal ∈ s.active then
    { s with active := s.active.erase job.marshal, acked := job ::ₘ s.acked }
  else s

/-- `Reclaim`: `RPOPLPUSH`. -/
def reclaim (s : JobQueue) : JobQueue :=
  match s.active.getLast? with
  | none => s
  | some data => { s with active := s.active.dropLast, pending := data :: s.pending }

def step (s : JobQueue) : QueueMove → JobQueue
  | .enqueue job => s.enqueue job
  | .dequeue => s.dequeue.1
  | .ack job => s.ack job
  | .reclaim => s.reclaim

def run (moves : List QueueMove) : JobQueue :=
  moves.foldl step init

/-! ## Nothing is lost -/

/-- The lists are the payloads of `pending` and `active`, and these with the acknowledged
jobs are the enqueued ones. -/
structure Holds (s : JobQueue) (pending active : List Job) : Prop where
  pending_eq : s.pending = pending.map Job.marshal
  active_eq : s.active = active.map Job.marshal
  balance : s.enqueued = ↑pending + ↑active + s.acked

variable {s : JobQueue} {pending active : List Job}

theorem move_job (job pending active : Multiset Job) :
    job + pending + active = pending + (active + job) := by
  rw [Multiset.add_comm job pending, Multiset.add_assoc, Multiset.add_comm job active]

theorem Holds.enqueue (h : s.Holds pending active) (job : Job) :
    (s.enqueue job).Holds (job :: pending) active where
  pending_eq := congrArg (job.marshal :: ·) h.pending_eq
  active_eq := h.active_eq
  balance := by
    change job ::ₘ s.enqueued = ↑(job :: pending) + ↑active + s.acked
    rw [← Multiset.cons_coe, Multiset.cons_add, Multiset.cons_add, ← h.balance]

theorem Holds.dequeue {job : Job} (h : s.Holds (job :: pending) active) :
    s.dequeue.1.Holds pending (active ++ [job]) ∧ s.dequeue.2 = some (some job) := by
  have hpending : s.pending = job.marshal :: pending.map Job.marshal := h.pending_eq
  rw [JobQueue.dequeue, hpending]
  refine ⟨⟨rfl, ?_, ?_⟩, congrArg some (Job.unmarshal_marshal job)⟩
  · rw [List.map_append, ← h.active_eq]
    rfl
  · change s.enqueued = ↑pending + ↑(active ++ [job]) + s.acked
    rw [h.balance, ← Multiset.cons_coe, ← Multiset.coe_add, Multiset.coe_singleton,
      ← Multiset.singleton_add, move_job {job} pending active]

/-- An acknowledgement takes the job out of the active ones, or does nothing. -/
theorem Holds.ack (h : s.Holds pending active) (job : Job) :
    (s.ack job).Holds pending (active.erase job) := by
  have hmem : job.marshal ∈ s.active ↔ job ∈ active := by
    rw [h.active_eq, List.mem_map_of_injective Job.marshal_injective]
  unfold JobQueue.ack
  split
  · next hin =>
      refine ⟨h.pending_eq, ?_, ?_⟩
      · change s.active.erase job.marshal = _
        rw [h.active_eq, List.map_erase Job.marshal_injective]
      · change s.enqueued = ↑pending + ↑(active.erase job) + (job ::ₘ s.acked)
        rw [h.balance, Multiset.add_cons, ← Multiset.cons_add, ← Multiset.add_cons,
          Multiset.cons_coe, Multiset.coe_eq_coe.mpr (List.perm_cons_erase (hmem.mp hin)).symm]
  · next hout =>
      rw [List.erase_of_not_mem fun hin => hout (hmem.mpr hin)]
      exact h

theorem Holds.reclaim {job : Job} (h : s.Holds pending (active ++ [job])) :
    s.reclaim.Holds (job :: pending) active := by
  have hactive : s.active = active.map Job.marshal ++ [job.marshal] := by
    rw [h.active_eq, List.map_append]
    rfl
  rw [JobQueue.reclaim, hactive, List.getLast?_concat]
  refine ⟨congrArg (job.marshal :: ·) h.pending_eq, List.dropLast_concat, ?_⟩
  change s.enqueued = ↑(job :: pending) + ↑active + s.acked
  rw [h.balance, ← Multiset.cons_coe, ← Multiset.coe_add, Multiset.coe_singleton,
    ← Multiset.singleton_add, move_job {job} pending active]

theorem Holds.step (h : s.Holds pending active) (m : QueueMove) :
    ∃ pending' active', (s.step m).Holds pending' active' := by
  cases m with
  | enqueue job => exact ⟨_, _, h.enqueue job⟩
  | dequeue =>
      cases pending with
      | nil =>
          -- a timeout
          refine ⟨[], active, ?_⟩
          rw [JobQueue.step, JobQueue.dequeue, h.pending_eq]
          exact h
      | cons job pending => exact ⟨_, _, h.dequeue.1⟩
  | ack job => exact ⟨_, _, h.ack job⟩
  | reclaim =>
      rcases List.eq_nil_or_concat active with rfl | ⟨active, job, rfl⟩
      · -- nothing to reclaim
        refine ⟨pending, [], ?_⟩
        rw [JobQueue.step, JobQueue.reclaim, h.active_eq]
        exact h
      · rw [List.concat_eq_append] at h
        exact ⟨_, _, h.reclaim⟩

theorem holds_run (moves : List QueueMove) : ∃ pending active, (run moves).Holds pending active := by
  refine List.foldlRecOn (motive := fun s => ∃ pending active, Holds s pending active) moves step
    ⟨[], [], rfl, rfl, rfl⟩ ?_
  rintro s ⟨pending, active, h⟩ m -
  exact h.step m

/-- No job is lost or duplicated. At any time the enqueued jobs are the pending, the
active and the acknowledged ones; an acknowledgement takes out the job itself or none; and
who dequeues gets the job that has moved. -/
theorem jobs_conserved (moves : List QueueMove) : ∃ pending active : List Job,
    (run moves).pending = pending.map Job.marshal ∧
    (run moves).active = active.map Job.marshal ∧
    (run moves).enqueued = ↑pending + ↑active + (run moves).acked ∧
    (∀ job, ((run moves).ack job).active = (active.erase job).map Job.marshal ∧
      ((run moves).ack job).pending = (run moves).pending) ∧
    (run moves).dequeue.2 = pending.head?.map some := by
  obtain ⟨pending, active, h⟩ := holds_run moves
  refine ⟨pending, active, h.pending_eq, h.active_eq, h.balance, fun job => ?_, ?_⟩
  · have hack := h.ack job
    exact ⟨hack.active_eq, hack.pending_eq.trans h.pending_eq.symm⟩
  · cases pending with
    | nil => rw [JobQueue.dequeue, h.pending_eq]; rfl
    | cons job pending => exact h.dequeue.2

end JobQueue

end VidhiArena.Backend
