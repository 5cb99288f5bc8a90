import VidhiArena.Worker.NoLostJobs

/-!
# One worker at a time

While the reaper re-enqueues orphans only, a run has at most one copy of its job,
wherever it is (`Tidy.total`). Everything else follows from that: who processes the
job has it on the active list, so nobody else does; a completed run has no copy
that could be taken again; and each copy has one execution left for each retry that
it has left (`Tidy.budget`).

The reaper looks at a snapshot of the active list and at a key that is never
renewed. What it re-enqueues may have been completed since, or may be in the hands
of a worker that is merely slow.
-/

namespace VidhiArena.Worker

open VidhiArena.Foundation

namespace System

variable {s s' : System} {R : String} {i : Nat} {pc : WorkerPc}

/-- The calls of `processJob` for run `R`. -/
def executions (s : System) (R : String) : Nat := s.log.count (.started R)

/-- Bounded, exclusive execution. -/
structure Exclusive (s : System) : Prop where
  /-- no two workers process one run -/
  alone : ∀ R, (s.workers.countP fun pc => hasRun R pc.executing) ≤ 1
  /-- a completed run is not executed again -/
  once : ∀ R, ¬ [Event.completed R, .started R].Sublist s.log
  bounded : ∀ R, (s.executions R : Int) ≤ maxRetries + 1

/-- No run id is submitted twice; and an item of its snapshot for which the reaper
finds no heartbeat is still on the active list, in nobody's hands and not completed. -/
def orderly (s : System) : Move → Bool
  | .submit runId _ _ _ => .submitted runId ∉ s.log
  | .reaper _ =>
      match s.reaper with
      | .scanning (job :: _) => s.heartbeat job.runId ||
          (job ∈ s.active && s.listers job.runId = 0 && .completed job.runId ∉ s.log)
      | _ => true
  | _ => true

/-! ## Counting the copies -/

def unfinished (s : System) (R : String) : Nat :=
  s.workers.countP fun pc => hasRun R pc.unfinished

/-- A job of run `R` that is being built, or a copy of it. -/
def total (s : System) (R : String) : Nat := s.building.countP (RunJob.isOf R) + s.copies R

theorem active_le_total (s : System) (R : String) : s.active.countP (RunJob.isOf R) ≤ s.total R := by
  unfold System.total copies
  omega

theorem not_isOf_of_countP {l : List RunJob} (h : l.countP (RunJob.isOf R) = 0) :
    ∀ job ∈ l, job.runId ≠ R := by
  intro job hjob heq
  exact List.countP_eq_zero.mp h job hjob (decide_eq_true heq)

theorem countP_pos_of_mem {l : List RunJob} {job : RunJob} (h : job ∈ l) :
    0 < l.countP (RunJob.isOf job.runId) :=
  List.countP_pos_iff.mpr ⟨job, h, decide_eq_true rfl⟩

theorem countP_cons_isOf (job : RunJob) (l : List RunJob) :
    (job :: l).countP (RunJob.isOf R) = l.countP (RunJob.isOf R) + (RunJob.isOf R job).toNat := by
  rw [List.countP_cons]
  cases RunJob.isOf R job <;> rfl

/-- How the numbers of run `R` change when a worker handles a job; `d` is 1 if the
job is one of `R`. -/
inductive Shift (s s' : System) (R : String) (d : Nat) : Prop
  | same (p : s'.pending.countP (RunJob.isOf R) = s.pending.countP (RunJob.isOf R))
      (a : s'.active.countP (RunJob.isOf R) = s.active.countP (RunJob.isOf R))
      (c : s'.carriers R = s.carriers R) (l : s'.listers R = s.listers R)
      (u : s'.unfinished R + d = s.unfinished R)
  | take (p : s'.pending.countP (RunJob.isOf R) + d = s.pending.countP (RunJob.isOf R))
      (a : s'.active.countP (RunJob.isOf R) = s.active.countP (RunJob.isOf R))
      (c : s'.carriers R = s.carriers R + d) (l : s'.listers R = s.listers R)
      (u : s'.unfinished R = s.unfinished R)
  | list (p : s'.pending.countP (RunJob.isOf R) = s.pending.countP (RunJob.isOf R))
      (a : s'.active.countP (RunJob.isOf R) = s.active.countP (RunJob.isOf R) + d)
      (c : s'.carriers R + d = s.carriers R) (l : s'.listers R = s.listers R + d)
      (u : s'.unfinished R = s.unfinished R + d)
  | unlist (p : s'.pending.countP (RunJob.isOf R) = s.pending.countP (RunJob.isOf R))
      (a : s'.active.countP (RunJob.isOf R) + d = s.active.countP (RunJob.isOf R))
      (c : s'.carriers R = s.carriers R + d) (l : s'.listers R + d = s.listers R)
      (u : s'.unfinished R + d = s.unfinished R)
  | drop (p : s'.pending.countP (RunJob.isOf R) ≤ s.pending.countP (RunJob.isOf R) + d)
      (a : s'.active.countP (RunJob.isOf R) = s.active.countP (RunJob.isOf R))
      (c : s'.carriers R + d = s.carriers R) (l : s'.listers R = s.listers R)
      (u : s'.unfinished R = s.unfinished R)
  | retire (p : s'.pending.countP (RunJob.isOf R) = s.pending.countP (RunJob.isOf R))
      (a : s'.active.countP (RunJob.isOf R) + d = s.active.countP (RunJob.isOf R))
      (c : s'.carriers R = s.carriers R) (l : s'.listers R + d = s.listers R)
      (u : s'.unfinished R = s.unfinished R)

theorem Handled.shift (hi : s.workers[i]? = some pc)
    (hlist : ∀ job, pc.listed = some job → job ∈ s.active) (hstep : Handled s i pc s')
    (R : String) : ∃ d, Shift s s' R d := by
  have hcarry : ∀ pc', (s.workers.set i pc').countP (fun pc => hasRun R pc.carried) +
      (hasRun R pc.carried).toNat = s.carriers R + (hasRun R pc'.carried).toNat :=
    fun pc' => countP_set hi pc'
  have hlists : ∀ pc', (s.workers.set i pc').countP (fun pc => hasRun R pc.listed) +
      (hasRun R pc.listed).toNat = s.listers R + (hasRun R pc'.listed).toNat :=
    fun pc' => countP_set hi pc'
  have hopen : ∀ pc', (s.workers.set i pc').countP (fun pc => hasRun R pc.unfinished) +
      (hasRun R pc.unfinished).toNat = s.unfinished R + (hasRun R pc'.unfinished).toNat :=
    fun pc' => countP_set hi pc'
  cases hstep with
  | stay none => exact ⟨0, .same rfl rfl rfl rfl rfl⟩
  | @take job pending next =>
      refine ⟨(RunJob.isOf R job).toNat, .take ?_ rfl (hcarry (.popped job)) (hlists (.popped job))
        (hopen (.popped job))⟩
      rw [next]
      exact (countP_cons_isOf job pending).symm
  | @keep pc pc' heartbeat status carried listed unfinished fresh done =>
      have hc := hcarry pc'
      have hl := hlists pc'
      have hu := hopen pc'
      rw [carried] at hc
      rw [listed] at hl
      rw [unfinished] at hu
      exact ⟨0, .same rfl rfl (Nat.add_right_cancel hc) (Nat.add_right_cancel hl)
        (Nat.add_right_cancel hu)⟩
  | list job =>
      exact ⟨(RunJob.isOf R job).toNat, .list rfl (countP_cons_isOf job s.active)
        (hcarry (.processing job)) (hlists (.processing job)) (hopen (.processing job))⟩
  | complete job status =>
      exact ⟨(RunJob.isOf R job).toNat, .same rfl rfl (hcarry (.done job))
        (Nat.add_right_cancel (hlists (.done job))) (hopen (.done job))⟩
  | unlist job =>
      exact ⟨(RunJob.isOf R job).toNat, .unlist rfl (countP_erase_add (hlist job rfl))
        (hcarry (.unlisted job)) (hlists (.unlisted job)) (hopen (.unlisted job))⟩
  | requeue job now left =>
      refine ⟨(RunJob.isOf R job).toNat, .drop ?_ rfl (hcarry (.requeued job))
        (hlists (.requeued job)) (hopen (.requeued job))⟩
      exact le_of_eq (countP_append_singleton s.pending _)
  | abandon job status spent =>
      exact ⟨(RunJob.isOf R job).toNat, .drop (Nat.le_add_right _ _) rfl (hcarry .idle)
        (hlists .idle) (hopen .idle)⟩
  | retire job =>
      exact ⟨(RunJob.isOf R job).toNat, .retire rfl (countP_erase_add (hlist job rfl))
        (hcarry (.retired job)) (hlists (.retired job)) (hopen (.retired job))⟩

/-! ## The invariant -/

/-- What is left to a job: `k` executions more than it has had retries. -/
def Affords (s : System) (job : RunJob) (k : Nat) : Prop :=
  (s.executions job.runId : Int) ≤ job.retries + k ∧ job.retries ≤ maxRetries

structure Budget (s : System) : Prop where
  building : ∀ job ∈ s.building, s.Affords job 0
  pending : ∀ job ∈ s.pending, s.Affords job 0
  active : ∀ job ∈ s.active, s.Affords job 1
  workers : ∀ pc ∈ s.workers, ∀ job, pc.carried = some job →
    s.Affords job (if pc.fresh then 0 else 1)
  reaper : ∀ job, s.reaper.carried = some job → s.Affords job 1
  spent : ∀ R, (s.executions R : Int) ≤ maxRetries + 1

structure Tidy (s : System) : Prop where
  total : ∀ R, s.total R ≤ 1
  listers : ∀ R, s.listers R ≤ s.active.countP (RunJob.isOf R)
  finished : ∀ R, .completed R ∈ s.log →
    s.total R = s.active.countP (RunJob.isOf R) ∧ s.unfinished R = 0
  onList : ∀ pc ∈ s.workers, ∀ job, pc.listed = some job → job ∈ s.active
  suspect : ∀ job items, s.reaper = .stale job items →
    job ∈ s.active ∧ s.listers job.runId = 0 ∧ .completed job.runId ∉ s.log
  budget : s.Budget
  unsubmitted : ∀ R, .submitted R ∉ s.log →
    s.total R = 0 ∧ s.executions R = 0 ∧ .completed R ∉ s.log
  once : ∀ R, ¬ [Event.completed R, .started R].Sublist s.log

theorem listers_pos {job : RunJob} (hpc : pc ∈ s.workers) (h : pc.listed = some job) :
    0 < s.listers job.runId :=
  List.countP_pos_iff.mpr ⟨pc, hpc, hasRun_iff.mpr ⟨job, h, rfl⟩⟩

theorem carriers_pos {job : RunJob} (hpc : pc ∈ s.workers) (h : pc.carried = some job) :
    0 < s.carriers job.runId :=
  List.countP_pos_iff.mpr ⟨pc, hpc, hasRun_iff.mpr ⟨job, h, rfl⟩⟩

theorem unfinished_pos {job : RunJob} (hpc : pc ∈ s.workers) (h : pc.unfinished = some job) :
    0 < s.unfinished job.runId :=
  List.countP_pos_iff.mpr ⟨pc, hpc, hasRun_iff.mpr ⟨job, h, rfl⟩⟩

theorem executions_note (e : Event) (R : String) :
    (s.note e).executions R = s.executions R + (decide (e = .started R)).toNat := by
  unfold executions note
  rw [List.count_append, List.count_singleton]
  by_cases he : e = .started R <;> simp [he]

theorem sublist_append_pair {a b e : Event} {log : List Event}
    (h : [a, b].Sublist (log ++ [e])) : [a, b].Sublist log ∨ a ∈ log ∧ b = e := by
  obtain ⟨l₁, l₂, heq, h₁, h₂⟩ := List.sublist_append_iff.mp h
  rcases List.sublist_singleton.mp h₂ with rfl | rfl
  · rw [List.append_nil] at heq
    exact .inl (heq ▸ h₁)
  · have heq : [a] ++ [b] = l₁ ++ [e] := heq
    obtain ⟨rfl, hb⟩ := List.append_inj' heq rfl
    exact .inr ⟨List.singleton_sublist.mp h₁, List.singleton_inj.mp hb⟩

/-! ## A worker's step -/

theorem Tidy.numbers_handled (h : s.Tidy) (hi : s.workers[i]? = some pc)
    (hstep : Handled s i pc s') (hb : s'.building = s.building) (hr : s'.reaper = s.reaper)
    (R : String) :
    s'.total R ≤ s.total R ∧ s'.listers R ≤ s'.active.countP (RunJob.isOf R) ∧
      (s.total R = s.active.countP (RunJob.isOf R) → s.unfinished R = 0 →
        s'.total R = s'.active.countP (RunJob.isOf R) ∧ s'.unfinished R = 0) ∧
      (0 < s.active.countP (RunJob.isOf R) → s.listers R = 0 → s'.listers R = 0) := by
  have htotal := h.total R
  have hlisters := h.listers R
  obtain ⟨d, hshift⟩ := Handled.shift hi (h.onList pc (List.mem_of_getElem? hi)) hstep R
  unfold System.total copies at *
  rw [hb, hr]
  cases hshift with
  | same p a c l u => omega
  | take p a c l u => omega
  | list p a c l u => omega
  | unlist p a c l u => omega
  | drop p a c l u => omega
  | retire p a c l u => omega

theorem Affords.congr {job : RunJob} {k : Nat} (h : s.Affords job k)
    (he : ∀ R, s'.executions R = s.executions R) : s'.Affords job k :=
  ⟨he job.runId ▸ h.1, h.2⟩

theorem Budget.handed (h : s.Budget) (he : ∀ R, s'.executions R = s.executions R)
    (hb : ∀ job ∈ s'.building, job ∈ s.building)
    (hp : ∀ job ∈ s'.pending, job ∈ s.pending ∨ s.Affords job 0)
    (ha : ∀ job ∈ s'.active, job ∈ s.active)
    (hw : ∀ pc ∈ s'.workers, pc ∈ s.workers ∨ ∀ job, pc.carried = some job →
      s.Affords job (if pc.fresh then 0 else 1))
    (hr : ∀ job, s'.reaper.carried = some job → s.Affords job 1) : s'.Budget where
  building job hjob := (h.building job (hb job hjob)).congr he
  pending job hjob := ((hp job hjob).elim (h.pending job) id).congr he
  active job hjob := (h.active job (ha job hjob)).congr he
  workers pc hpc job hjob := ((hw pc hpc).elim (h.workers pc · job hjob) (· job hjob)).congr he
  reaper job hjob := (hr job hjob).congr he
  spent R := he R ▸ h.spent R

/-- An execution begins: it is paid for by the only copy that there is. -/
theorem Budget.list (h : s.Budget) {job : RunJob} (hi : s.workers[i]? = some (.marked job))
    (htotal : ∀ R, (({ s with active := job :: s.active }.setWorker i (.processing job)).note
      (.started job.runId)).total R ≤ 1) :
    (({ s with active := job :: s.active }.setWorker i (.processing job)).note
      (.started job.runId)).Budget := by
  have hmem : WorkerPc.marked job ∈ s.workers := List.mem_of_getElem? hi
  obtain ⟨hspent, hretries⟩ : s.Affords job 0 := h.workers _ hmem job rfl
  generalize hs' : ({ s with active := job :: s.active }.setWorker i (.processing job)).note
    (.started job.runId) = s' at htotal ⊢
  have hexec : ∀ R, s'.executions R = s.executions R + (decide (job.runId = R)).toNat := by
    intro R
    subst hs'
    rw [executions_note]
    simp [executions, setWorker]
  have hnumbers := htotal job.runId
  unfold System.total copies at hnumbers
  have hactive : s'.active = job :: s.active := by subst hs'; rfl
  rw [hactive, countP_cons_isOf, show RunJob.isOf job.runId job = true from decide_eq_true rfl,
    Bool.toNat_true] at hnumbers
  -- no other copy of this run is left
  have hb : s'.building.countP (RunJob.isOf job.runId) = 0 := by omega
  have hp : s'.pending.countP (RunJob.isOf job.runId) = 0 := by omega
  have ha : s.active.countP (RunJob.isOf job.runId) = 0 := by omega
  have hc : s'.carriers job.runId = 0 := by omega
  have hr : (hasRun job.runId s'.reaper.carried).toNat = 0 := by omega
  have hother : ∀ {j : RunJob} {k : Nat}, s.Affords j k → j.runId ≠ job.runId → s'.Affords j k := by
    intro j k hj hne
    refine ⟨?_, hj.2⟩
    rw [hexec, decide_eq_false (Ne.symm hne)]
    exact hj.1
  refine ⟨fun j hj => ?_, fun j hj => ?_, fun j hj => ?_, fun pc hpc j hj => ?_, fun j hj => ?_,
    fun R => ?_⟩
  · exact hother (h.building j (by subst hs'; exact hj)) (not_isOf_of_countP hb j hj)
  · exact hother (h.pending j (by subst hs'; exact hj)) (not_isOf_of_countP hp j hj)
  · rw [hactive] at hj
    rcases List.mem_cons.mp hj with rfl | hj
    · refine ⟨?_, hretries⟩
      rw [hexec, decide_eq_true rfl, Bool.toNat_true]
      push_cast
      omega
    · exact hother (h.active j hj) (not_isOf_of_countP ha j hj)
  · have hne : j.runId ≠ job.runId := by
      intro heq
      have := carriers_pos hpc hj
      rw [heq] at this
      omega
    have hold : pc ∈ s.workers := by
      subst hs'
      rcases List.mem_or_eq_of_mem_set hpc with hpc | rfl
      · exact hpc
      · cases hj
    exact hother (h.workers pc hold j hj) hne
  · have hne : j.runId ≠ job.runId := by
      intro heq
      rw [hj, show hasRun job.runId (some j) = true from decide_eq_true heq] at hr
      cases hr
    exact hother (h.reaper j (by subst hs'; exact hj)) hne
  · rw [hexec]
    by_cases hR : job.runId = R
    · subst hR
      rw [decide_eq_true rfl, Bool.toNat_true]
      push_cast
      omega
    · rw [decide_eq_false hR]
      exact h.spent R

theorem Budget.handled (h : s.Tidy) (hi : s.workers[i]? = some pc) (hstep : Handled s i pc s')
    (htotal : ∀ R, s'.total R ≤ 1) : s'.Budget := by
  have hmem : pc ∈ s.workers := List.mem_of_getElem? hi
  have hset : ∀ pc', (∀ job, pc'.carried = some job → s.Affords job (if pc'.fresh then 0 else 1)) →
      ∀ x ∈ s.workers.set i pc', x ∈ s.workers ∨ ∀ job, x.carried = some job →
        s.Affords job (if x.fresh then 0 else 1) := by
    intro pc' hnew x hx
    rcases List.mem_or_eq_of_mem_set hx with hx | rfl
    · exact .inl hx
    · exact .inr hnew
  have hsame := h.budget.reaper
  cases hstep with
  | stay none => exact h.budget
  | @take job pending next =>
      refine h.budget.handed (fun _ => rfl) (fun _ hj => hj) (fun j hj => .inl ?_) (fun _ hj => hj)
        (hset (.popped job) fun j hj => ?_) hsame
      · rw [next]
        exact List.mem_cons_of_mem _ hj
      · cases hj
        exact h.budget.pending job (next ▸ List.mem_cons_self)
  | @keep pc pc' heartbeat status carried listed unfinished fresh done =>
      refine h.budget.handed (fun _ => rfl) (fun _ hj => hj) (fun _ hj => .inl hj) (fun _ hj => hj)
        (hset pc' fun j hj => ?_) hsame
      rw [carried] at hj
      rw [fresh]
      exact h.budget.workers pc hmem j hj
  | list job => exact h.budget.list hi htotal
  | complete job status =>
      refine h.budget.handed (fun R => ?_) (fun _ hj => hj) (fun _ hj => .inl hj) (fun _ hj => hj)
        (hset (.done job) nofun) hsame
      rw [executions_note]
      rfl
  | unlist job =>
      refine h.budget.handed (fun _ => rfl) (fun _ hj => hj) (fun _ hj => .inl hj)
        (fun _ hj => List.mem_of_mem_erase hj) (hset (.unlisted job) fun j hj => ?_) hsame
      cases hj
      exact h.budget.active job (h.onList _ hmem job rfl)
  | requeue job now left =>
      refine h.budget.handed (fun _ => rfl) (fun _ hj => hj) (fun j hj => ?_) (fun _ hj => hj)
        (hset (.requeued job) nofun) hsame
      rcases List.mem_append.mp hj with hj | hj
      · exact .inl hj
      · cases List.mem_singleton.mp hj
        obtain ⟨hspent, -⟩ : s.Affords job 1 := h.budget.workers _ hmem job rfl
        exact .inr ⟨by simpa using hspent, Int.add_one_le_of_lt left⟩
  | abandon job status spent =>
      refine h.budget.handed (fun R => ?_) (fun _ hj => hj) (fun _ hj => .inl hj) (fun _ hj => hj)
        (hset .idle nofun) hsame
      rw [executions_note]
      rfl
  | retire job =>
      exact h.budget.handed (fun _ => rfl) (fun _ hj => hj) (fun _ hj => .inl hj)
        (fun _ hj => List.mem_of_mem_erase hj) (hset (.retired job) nofun) hsame

theorem handled_events (hstep : Handled s i pc s') :
    s'.log = s.log ∨ (∃ job, pc = .marked job ∧ s'.log = s.log ++ [.started job.runId]) ∨
      (∃ job status, pc = .running job ∧
        s' = ({ s with status }.setWorker i (.done job)).note (.completed job.runId)) ∨
      ∃ job, pc = .cleared job ∧ s'.log = s.log ++ [.abandoned job.runId] := by
  cases hstep with
  | stay | take | keep | unlist | requeue | retire => exact .inl rfl
  | list job => exact .inr (.inl ⟨job, rfl, rfl⟩)
  | complete job status => exact .inr (.inr (.inl ⟨job, status, rfl, rfl⟩))
  | abandon job status spent => exact .inr (.inr (.inr ⟨job, rfl, rfl⟩))

theorem handled_completed (hstep : Handled s i pc s') (hc : .completed R ∈ s'.log) :
    .completed R ∈ s.log ∨ ∃ job, pc.unfinished = some job ∧ job.runId = R := by
  rcases handled_events hstep with hlog | ⟨job, -, hlog⟩ | ⟨job, status, rfl, rfl⟩ | ⟨job, -, hlog⟩
  · exact .inl (hlog ▸ hc)
  · exact .inl (by simpa [hlog] using hc)
  · rcases List.mem_append.mp hc with hc | hc
    · exact .inl hc
    · exact .inr ⟨job, rfl, (Event.completed.inj (List.mem_singleton.mp hc)).symm⟩
  · exact .inl (by simpa [hlog] using hc)

theorem handled_executions (hstep : Handled s i pc s') (R : String) :
    s'.executions R = s.executions R ∨ ∃ job, pc.carried = some job ∧ job.runId = R := by
  unfold executions
  rcases handled_events hstep with hlog | ⟨job, rfl, hlog⟩ | ⟨job, status, -, rfl⟩ | ⟨job, -, hlog⟩
  · exact .inl (by rw [hlog])
  · by_cases hR : job.runId = R
    · exact .inr ⟨job, rfl, hR⟩
    · exact .inl (by simp [hlog, hR])
  · exact .inl (by simp [note, setWorker])
  · exact .inl (by simp [hlog])

theorem handled_again (hstep : Handled s i pc s')
    (hR : [Event.completed R, .started R].Sublist s'.log) :
    [Event.completed R, .started R].Sublist s.log ∨
      .completed R ∈ s.log ∧ ∃ job, pc.carried = some job ∧ job.runId = R := by
  rcases handled_events hstep with hlog | ⟨job, rfl, hlog⟩ | ⟨job, status, -, rfl⟩ | ⟨job, -, hlog⟩
  · exact .inl (hlog ▸ hR)
  · rw [hlog] at hR
    refine (sublist_append_pair hR).imp_right fun ⟨hc, he⟩ => ⟨hc, job, rfl, ?_⟩
    exact (Event.started.inj he).symm
  · exact .inl ((sublist_append_pair hR).resolve_right fun he => Event.noConfusion he.2)
  · rw [hlog] at hR
    exact .inl ((sublist_append_pair hR).resolve_right fun he => Event.noConfusion he.2)

/-- A worker takes an item off the active list only if the item is its own. -/
theorem handled_active (hstep : Handled s i pc s') {job : RunJob} (hjob : job ∈ s.active) :
    job ∈ s'.active ∨ pc.listed = some job := by
  have herase : ∀ own : RunJob, job ∈ s.active.erase own ∨ some own = some job := by
    intro own
    by_cases heq : job = own
    · exact .inr (congrArg some heq.symm)
    · exact .inl ((List.mem_erase_of_ne heq).mpr hjob)
  cases hstep with
  | stay | take | keep | complete | requeue | abandon => exact .inl hjob
  | list own => exact .inl (List.mem_cons_of_mem _ hjob)
  | unlist own => exact herase own
  | retire own => exact herase own

theorem Tidy.onList_handled (h : s.Tidy) (hi : s.workers[i]? = some pc)
    (hstep : Handled s i pc s')
    (hlisters : ∀ R, s'.listers R ≤ s'.active.countP (RunJob.isOf R)) :
    ∀ x ∈ s'.workers, ∀ job, x.listed = some job → job ∈ s'.active := by
  have hmem : pc ∈ s.workers := List.mem_of_getElem? hi
  have hset : ∀ pc', (∀ job, pc'.listed = some job → job ∈ s'.active) →
      s'.workers = s.workers.set i pc' → (∀ job ∈ s.active, job ∈ s'.active) →
      ∀ x ∈ s'.workers, ∀ job, x.listed = some job → job ∈ s'.active := by
    intro pc' hnew hworkers hkept x hx job hjob
    rw [hworkers] at hx
    rcases List.mem_or_eq_of_mem_set hx with hx | rfl
    · exact hkept job (h.onList x hx job hjob)
    · exact hnew job hjob
  -- the item that is removed was the only one of its run
  have herase : ∀ pc' job, job ∈ s.active → s'.active = s.active.erase job → pc'.listed = none →
      s'.workers = s.workers.set i pc' →
      ∀ x ∈ s'.workers, ∀ j, x.listed = some j → j ∈ s'.active := by
    intro pc' job hjob hactive hnone hworkers x hx j hj
    have hold : j ∈ s.active := by
      rw [hworkers] at hx
      rcases List.mem_or_eq_of_mem_set hx with hx | rfl
      · exact h.onList x hx j hj
      · rw [hnone] at hj
        cases hj
    rw [hactive]
    refine (List.mem_erase_of_ne fun heq => ?_).mpr hold
    have hpos := (listers_pos hx hj).trans_le (hlisters j.runId)
    have hgone := countP_erase_add (p := RunJob.isOf j.runId) hjob
    have htotal := h.total j.runId
    rw [hactive] at hpos
    rw [show RunJob.isOf j.runId job = true from decide_eq_true (heq ▸ rfl)] at hgone
    unfold System.total copies at htotal
    simp only [Bool.toNat_true] at hgone
    omega
  cases hstep with
  | stay none => exact h.onList
  | @take job pending next => exact hset (.popped job) nofun rfl fun _ hj => hj
  | @keep pc pc' heartbeat status carried listed unfinished fresh done =>
      exact hset pc' (fun j hj => h.onList pc hmem j (listed ▸ hj)) rfl fun _ hj => hj
  | list job =>
      refine hset (.processing job) (fun j hj => ?_) rfl fun _ hj => List.mem_cons_of_mem _ hj
      cases hj
      exact List.mem_cons_self
  | complete job status =>
      refine hset (.done job) (fun j hj => ?_) rfl fun _ hj => hj
      cases hj
      exact h.onList _ hmem job rfl
  | unlist job => exact herase (.unlisted job) job (h.onList _ hmem job rfl) rfl rfl rfl
  | requeue job now left => exact hset (.requeued job) nofun rfl fun _ hj => hj
  | abandon job status spent => exact hset .idle nofun rfl fun _ hj => hj
  | retire job => exact herase (.retired job) job (h.onList _ hmem job rfl) rfl rfl rfl

theorem listed_of_unfinished {job : RunJob} (h : pc.unfinished = some job) :
    pc.listed = some job := by
  cases pc <;> first | exact h | cases h

theorem listed_of_executing {job : RunJob} (h : pc.executing = some job) :
    pc.listed = some job := by
  cases pc <;> first | exact h | cases h

theorem unfinished_le (s : System) (R : String) : s.unfinished R ≤ s.listers R := by
  refine List.countP_mono_left fun pc _ hpc => ?_
  obtain ⟨job, hjob, hR⟩ := hasRun_iff.mp hpc
  exact hasRun_iff.mpr ⟨job, listed_of_unfinished hjob, hR⟩

/-- A run that has been completed, or not even submitted, is in no worker's hands. -/
theorem Tidy.handled_facts (h : s.Tidy) (hi : s.workers[i]? = some pc) :
    (∀ job, pc.carried = some job → .completed job.runId ∉ s.log ∧ 0 < s.total job.runId) ∧
      ∀ job, pc.unfinished = some job → .completed job.runId ∉ s.log ∧ 0 < s.total job.runId ∧
        s.unfinished job.runId = 1 ∧ s.total job.runId = s.active.countP (RunJob.isOf job.runId) := by
  have hmem : pc ∈ s.workers := List.mem_of_getElem? hi
  refine ⟨fun job hjob => ?_, fun job hjob => ?_⟩
  · have hpos := carriers_pos hmem hjob
    refine ⟨fun hc => ?_, ?_⟩
    · have := (h.finished _ hc).1
      unfold System.total copies at this
      omega
    · unfold System.total copies
      omega
  · have hpos := unfinished_pos hmem hjob
    have hle := s.unfinished_le job.runId
    have hlisters := h.listers job.runId
    have htotal := h.total job.runId
    unfold System.total copies at htotal ⊢
    refine ⟨fun hc => ?_, ?_, ?_, ?_⟩
    · have := (h.finished _ hc).2
      omega
    · omega
    · omega
    · omega

theorem Tidy.finished_handled (h : s.Tidy) (hi : s.workers[i]? = some pc)
    (hstep : Handled s i pc s') (hb : s'.building = s.building) (hr : s'.reaper = s.reaper)
    (hc : .completed R ∈ s'.log) :
    s'.total R = s'.active.countP (RunJob.isOf R) ∧ s'.unfinished R = 0 := by
  have hold : .completed R ∈ s.log →
      s'.total R = s'.active.countP (RunJob.isOf R) ∧ s'.unfinished R = 0 := by
    intro hc
    obtain ⟨htotal, hopen⟩ := h.finished R hc
    exact (h.numbers_handled hi hstep hb hr R).2.2.1 htotal hopen
  rcases handled_events hstep with hlog | ⟨job, -, hlog⟩ | ⟨job, status, rfl, rfl⟩ | ⟨job, -, hlog⟩
  · exact hold (hlog ▸ hc)
  · exact hold (by simpa [hlog] using hc)
  · rcases List.mem_append.mp hc with hc | hc
    · exact hold hc
    · cases List.mem_singleton.mp hc
      -- the run has this copy only, and it is the one that is completed
      obtain ⟨-, -, hone, hall⟩ := (h.handled_facts hi).2 job rfl
      have hcopies : (({ s with status }.setWorker i (.done job)).note
          (.completed job.runId)).copies job.runId = s.copies job.runId :=
        copies_setWorker (s := { s with status }) hi (.done job)
      have hopen : (({ s with status }.setWorker i (.done job)).note
          (.completed job.runId)).unfinished job.runId + 1 = s.unfinished job.runId := by
        have hset := countP_set (p := fun pc => hasRun job.runId pc.unfinished) hi (.done job)
        rwa [show hasRun job.runId (WorkerPc.running job).unfinished = true from decide_eq_true rfl]
          at hset
      refine ⟨?_, by omega⟩
      unfold System.total at hall ⊢
      rw [hcopies]
      exact hall
  · exact hold (by simpa [hlog] using hc)

theorem Tidy.handled (h : s.Tidy) (hi : s.workers[i]? = some pc) (hstep : Handled s i pc s') :
    s'.Tidy := by
  have hmem : pc ∈ s.workers := List.mem_of_getElem? hi
  have hb : s'.building = s.building := by cases hstep <;> rfl
  have hr : s'.reaper = s.reaper := by cases hstep <;> rfl
  have hnumbers := h.numbers_handled hi hstep hb hr
  have htotal : ∀ R, s'.total R ≤ 1 := fun R => (hnumbers R).1.trans (h.total R)
  have hlisters := fun R => (hnumbers R).2.1
  obtain ⟨hcarried, hopen⟩ := h.handled_facts hi
  refine ⟨htotal, hlisters, fun R hc => h.finished_handled hi hstep hb hr hc,
    h.onList_handled hi hstep hlisters, fun job items hpc => ?_,
    Budget.handled h hi hstep htotal, fun R hR => ?_, fun R hR => ?_⟩
  · obtain ⟨hjob, hfree, hc⟩ := h.suspect job items (hr ▸ hpc)
    have hnotown : ∀ own, pc.listed = some own → own.runId ≠ job.runId := by
      intro own hown heq
      exact absurd (listers_pos hmem hown) (by rw [heq, hfree]; exact Nat.lt_irrefl 0)
    refine ⟨?_, (hnumbers _).2.2.2 (countP_pos_of_mem hjob) hfree, fun hc' => ?_⟩
    · exact (handled_active hstep hjob).resolve_right fun hown => hnotown job hown rfl
    · rcases handled_completed hstep hc' with hc' | ⟨own, hown, heq⟩
      · exact hc hc'
      · exact hnotown own (listed_of_unfinished hown) heq
  · obtain ⟨hnone, hexec, hc⟩ := h.unsubmitted R fun hR' => hR ((handled_log hstep).1.subset hR')
    have hzero : s'.total R = 0 := Nat.le_zero.mp (hnone ▸ (hnumbers R).1)
    have hnotown : ∀ own : RunJob, 0 < s.total own.runId → own.runId ≠ R := by
      rintro own hpos rfl
      omega
    refine ⟨hzero, ?_, fun hc' => ?_⟩
    · rcases handled_executions hstep R with he | ⟨own, hown, heq⟩
      · rw [he, hexec]
      · exact absurd heq (hnotown own (hcarried own hown).2)
    · rcases handled_completed hstep hc' with hc' | ⟨own, hown, heq⟩
      · exact hc hc'
      · exact hnotown own (hopen own hown).2.1 heq
  · rcases handled_again hstep hR with hR | ⟨hc, own, hown, rfl⟩
    · exact h.once R hR
    · exact (hcarried own hown).1 hc

/-! ## The other steps -/

/-- No execution is begun or completed, and no run is submitted. -/
structure Quiet (s s' : System) : Prop where
  executions : ∀ R, s'.executions R = s.executions R
  completed : ∀ R, .completed R ∈ s'.log → .completed R ∈ s.log
  submitted : ∀ R, .submitted R ∈ s.log → .submitted R ∈ s'.log
  once : ∀ R, [Event.completed R, .started R].Sublist s'.log →
    [Event.completed R, .started R].Sublist s.log

theorem quiet_of_log (h : s'.log = s.log) : Quiet s s' where
  executions R := by unfold System.executions; rw [h]
  completed R hR := h ▸ hR
  submitted R hR := h ▸ hR
  once R hR := h ▸ hR

theorem quiet_of_append {e : Event} (h : s'.log = s.log ++ [e]) (hstarted : ∀ R, e ≠ .started R)
    (hcompleted : ∀ R, e ≠ .completed R) : Quiet s s' where
  executions R := by
    unfold System.executions
    rw [h, List.count_append, List.count_singleton]
    simp [hstarted R]
  completed R hR := by
    rw [h] at hR
    refine (List.mem_append.mp hR).resolve_right fun he => ?_
    exact hcompleted R (List.mem_singleton.mp he).symm
  submitted R hR := h ▸ List.mem_append_left _ hR
  once R hR := by
    rw [h] at hR
    exact (sublist_append_pair hR).resolve_right fun he => hstarted R he.2.symm

theorem Tidy.quiet (h : s.Tidy) (hquiet : Quiet s s') (htotal : ∀ R, s'.total R ≤ s.total R)
    (hlisters : ∀ R, s'.listers R ≤ s'.active.countP (RunJob.isOf R))
    (hfinished : ∀ R, .completed R ∈ s.log →
      s'.total R = s'.active.countP (RunJob.isOf R) ∧ s'.unfinished R = 0)
    (honList : ∀ pc ∈ s'.workers, ∀ job, pc.listed = some job → job ∈ s'.active)
    (hsuspect : ∀ job items, s'.reaper = .stale job items →
      job ∈ s'.active ∧ s'.listers job.runId = 0 ∧ .completed job.runId ∉ s.log)
    (hbudget : s'.Budget) : s'.Tidy where
  total R := (htotal R).trans (h.total R)
  listers := hlisters
  finished R hR := hfinished R (hquiet.completed R hR)
  onList := honList
  suspect job items hpc :=
    have ⟨hjob, hfree, hc⟩ := hsuspect job items hpc
    ⟨hjob, hfree, fun hc' => hc (hquiet.completed _ hc')⟩
  budget := hbudget
  unsubmitted R hR :=
    have ⟨hnone, hexec, hc⟩ := h.unsubmitted R fun hR' => hR (hquiet.submitted R hR')
    ⟨Nat.le_zero.mp (hnone ▸ htotal R), (hquiet.executions R).trans hexec,
      fun hc' => hc (hquiet.completed R hc')⟩
  once R hR := h.once R (hquiet.once R hR)

/-- The reaper takes the job off the list of the active ones and holds it itself. -/
theorem Tidy.unlisted (h : s.Tidy) {job : RunJob} {items : List RunJob}
    (pc : s.reaper = .stale job items) :
    { s with active := s.active.erase job, reaper := .unlisted job items }.Tidy := by
  obtain ⟨hjob, hfree, hopen⟩ := h.suspect job items pc
  have hgone : ∀ R, (s.active.erase job).countP (RunJob.isOf R) + (RunJob.isOf R job).toNat =
      s.active.countP (RunJob.isOf R) := fun R => countP_erase_add hjob
  have htotal : ∀ R, { s with
      active := s.active.erase job
      reaper := .unlisted job items }.total R = s.total R := by
    intro R
    have hcarried : hasRun R s.reaper.carried = false := by rw [pc]; rfl
    have := hgone R
    unfold System.total copies carriers
    rw [hcarried]
    change _ + (_ + _ + _ + (RunJob.isOf R job).toNat) = _
    dsimp only [Bool.toNat_false]
    omega
  -- the run of the job, and the others
  have hother : ∀ R, RunJob.isOf R job = false ∨ R = job.runId := by
    intro R
    by_cases hR : job.runId = R
    · exact .inr hR.symm
    · exact .inl (decide_eq_false hR)
  refine h.quiet (quiet_of_log rfl) (fun R => le_of_eq (htotal R)) (fun R => ?_)
    (fun R hc => ?_) (fun x hx j hj => ?_) nofun ?_
  · rcases hother R with hR | rfl
    · have := hgone R
      rw [hR] at this
      exact (h.listers R).trans (le_of_eq this.symm)
    · exact (le_of_eq hfree).trans (Nat.zero_le _)
  · rcases hother R with hR | rfl
    · have := hgone R
      rw [hR] at this
      exact ⟨(htotal R).trans ((h.finished R hc).1.trans this.symm), (h.finished R hc).2⟩
    · exact absurd hc hopen
  · refine (List.mem_erase_of_ne fun heq => ?_).mpr (h.onList x hx j hj)
    have := listers_pos (s := s) hx hj
    rw [heq, hfree] at this
    exact Nat.lt_irrefl 0 this
  · refine h.budget.handed (fun _ => rfl) (fun _ hj => hj) (fun _ hj => .inl hj)
      (fun _ hj => List.mem_of_mem_erase hj) (fun _ hpc => .inl hpc) fun j hj => ?_
    cases hj
    exact h.budget.active job hjob

/-- The reaper enqueues the job that it holds. -/
theorem Tidy.requeued (h : s.Tidy) {job : RunJob} {items : List RunJob}
    (pc : s.reaper = .unlisted job items) (left : job.retries < maxRetries) (now : Int) :
    { s.retry job now with reaper := .scanning items }.Tidy := by
  have htotal : ∀ R, { s.retry job now with reaper := .scanning items }.total R = s.total R := by
    intro R
    have hkept := copies_retry (s := s) (R := R) job now
    unfold System.total copies carriers at *
    rw [pc]
    change _ + (_ + _ + _ + 0) = _ + (_ + _ + _ + (RunJob.isOf R job).toNat)
    dsimp only [retry] at hkept ⊢
    omega
  refine h.quiet (quiet_of_log rfl) (fun R => le_of_eq (htotal R)) h.listers (fun R hc => ?_)
    h.onList nofun ?_
  · exact ⟨(htotal R).trans (h.finished R hc).1, (h.finished R hc).2⟩
  · refine h.budget.handed (fun _ => rfl) (fun _ hj => hj) (fun j hj => ?_) (fun _ hj => hj)
      (fun _ hpc => .inl hpc) nofun
    rcases List.mem_append.mp hj with hj | hj
    · exact .inl hj
    · cases List.mem_singleton.mp hj
      obtain ⟨hspent, -⟩ : s.Affords job 1 := h.budget.reaper job (by rw [pc]; rfl)
      exact .inr ⟨by simpa using hspent, Int.add_one_le_of_lt left⟩

theorem Tidy.reaped (h : s.Tidy) (hstep : Reaped s s')
    (horphan : ∀ job items, s.reaper = .scanning (job :: items) → s.heartbeat job.runId = false →
      job ∈ s.active ∧ s.listers job.runId = 0 ∧ .completed job.runId ∉ s.log) : s'.Tidy := by
  have hw : ∀ pc ∈ s.workers, pc ∈ s.workers ∨ ∀ job, pc.carried = some job →
      s.Affords job (if pc.fresh then 0 else 1) := fun _ hpc => .inl hpc
  cases hstep with
  | @keep reaper before after unsuspected =>
      have htotal : ∀ R, { s with reaper }.total R = s.total R := by
        intro R
        unfold System.total copies carriers
        rw [before, after]
      refine h.quiet (quiet_of_log rfl) (fun R => le_of_eq (htotal R)) h.listers (fun R hc => ?_)
        h.onList (fun job items hpc => absurd hpc (unsuspected job items)) ?_
      · exact ⟨(htotal R).trans (h.finished R hc).1, (h.finished R hc).2⟩
      · refine h.budget.handed (fun _ => rfl) (fun _ hj => hj) (fun _ hj => .inl hj)
          (fun _ hj => hj) hw fun job hjob => ?_
        rw [after] at hjob
        cases hjob
  | @suspect job items pc gone =>
      have htotal : ∀ R, { s with reaper := .stale job items }.total R = s.total R := by
        intro R
        unfold System.total copies carriers
        rw [pc]
        rfl
      refine h.quiet (quiet_of_log rfl) (fun R => le_of_eq (htotal R)) h.listers (fun R hc => ?_)
        h.onList (fun job' items' hpc => ?_) ?_
      · exact ⟨(htotal R).trans (h.finished R hc).1, (h.finished R hc).2⟩
      · cases hpc
        exact horphan job items pc gone
      · exact h.budget.handed (fun _ => rfl) (fun _ hj => hj) (fun _ hj => .inl hj)
          (fun _ hj => hj) hw nofun
  | unlist pc => exact h.unlisted pc
  | requeue pc now left => exact h.requeued pc left now
  | @abandon job items pc status spent =>
      have htotal : ∀ R, ({ s with status, reaper := .scanning items }.note
          (.abandoned job.runId)).total R + (RunJob.isOf R job).toNat = s.total R := by
        intro R
        unfold System.total copies carriers
        rw [pc]
        exact Nat.add_assoc _ _ _
      refine h.quiet (quiet_of_append rfl nofun nofun) (fun R => ?_) h.listers (fun R hc => ?_)
        h.onList nofun ?_
      · exact (Nat.le_add_right _ _).trans (le_of_eq (htotal R))
      · obtain ⟨hall, hopen⟩ := h.finished R hc
        refine ⟨le_antisymm ?_ (active_le_total _ R), hopen⟩
        exact (Nat.le_add_right _ _).trans (le_of_eq ((htotal R).trans hall))
      · exact h.budget.handed (quiet_of_append rfl (e := .abandoned job.runId) nofun nofun).executions
          (fun _ hj => hj) (fun _ hj => .inl hj) (fun _ hj => hj) hw nofun

/-- The end of `runForgePipeline`: the job that has been built is enqueued, or is no
more. -/
theorem Tidy.forge (h : s.Tidy) {job : RunJob} (hjob : job ∈ s.building) (result : Forge)
    (now : Int) : (s.stepForge job now result).Tidy := by
  have hgone : ∀ R, (s.building.erase job).countP (RunJob.isOf R) + (RunJob.isOf R job).toNat =
      s.building.countP (RunJob.isOf R) := fun R => countP_erase_add hjob
  have hdropped : ∀ status, { s with building := s.building.erase job, status }.Tidy := by
    intro status
    have hle : ∀ R, { s with building := s.building.erase job, status }.total R ≤ s.total R := by
      intro R
      have := hgone R
      unfold System.total copies carriers
      dsimp only
      omega
    refine h.quiet (quiet_of_log rfl) hle h.listers (fun R hc => ?_) h.onList h.suspect ?_
    · obtain ⟨hall, hopen⟩ := h.finished R hc
      refine ⟨?_, hopen⟩
      have := hgone R
      unfold System.total copies carriers at *
      dsimp only at *
      omega
    · exact h.budget.handed (fun _ => rfl) (fun _ hj => List.mem_of_mem_erase hj)
        (fun _ hj => .inl hj) (fun _ hj => hj) (fun _ hpc => .inl hpc) h.budget.reaper
  cases result with
  | failed => exact hdropped _
  | directError => exact hdropped _
  | directComplete => exact hdropped _
  | enqueued =>
      have htotal : ∀ R, (s.stepForge job now .enqueued).total R = s.total R := by
        intro R
        have hpush := countP_append_singleton (p := RunJob.isOf R) s.pending
          { job with enqueuedAt := now }
        rw [show RunJob.isOf R { job with enqueuedAt := now } = RunJob.isOf R job from rfl] at hpush
        have := hgone R
        unfold System.total copies carriers stepForge note
        dsimp only
        omega
      refine h.quiet (quiet_of_append rfl nofun nofun) (fun R => le_of_eq (htotal R)) h.listers
        (fun R hc => ?_) h.onList h.suspect ?_
      · exact ⟨(htotal R).trans (h.finished R hc).1, (h.finished R hc).2⟩
      · refine h.budget.handed
          (quiet_of_append rfl (e := .pushed job.runId) nofun nofun).executions
          (fun _ hj => List.mem_of_mem_erase hj) (fun j hj => ?_) (fun _ hj => hj)
          (fun _ hpc => .inl hpc) h.budget.reaper
        rcases List.mem_append.mp hj with hj | hj
        · exact .inl hj
        · cases List.mem_singleton.mp hj
          exact .inr (h.budget.building job hjob)

theorem Tidy.submit (h : s.Tidy) {runId : String} (hnew : .submitted runId ∉ s.log)
    (userId soPath roundId : String) : (s.step (.submit runId userId soPath roundId)).Tidy := by
  obtain ⟨hnone, hexec, hopen⟩ := h.unsubmitted runId hnew
  have htotal : ∀ R, (s.step (.submit runId userId soPath roundId)).total R =
      s.total R + (decide (runId = R)).toNat := by
    intro R
    have := countP_cons_isOf (R := R) ⟨runId, userId, soPath, roundId, "", 0, 0⟩ s.building
    unfold System.total copies carriers System.step note RunJob.isOf at *
    dsimp only at *
    omega
  have hquiet : Quiet s (s.step (.submit runId userId soPath roundId)) :=
    quiet_of_append rfl (e := .submitted runId) nofun nofun
  have hother : ∀ R, R ≠ runId → (s.step (.submit runId userId soPath roundId)).total R = s.total R :=
    fun R hR => (htotal R).trans (by rw [decide_eq_false (Ne.symm hR)]; rfl)
  have hafford : ∀ {job : RunJob} {k : Nat}, s.Affords job k →
      (s.step (.submit runId userId soPath roundId)).Affords job k :=
    fun hjob => hjob.congr hquiet.executions
  refine ⟨fun R => ?_, h.listers, fun R hc => ?_, h.onList, fun job items hpc => ?_, ?_,
    fun R hR => ?_, fun R hR => h.once R (hquiet.once R hR)⟩
  · by_cases hR : R = runId
    · rw [htotal, hR, hnone, decide_eq_true rfl]
      exact le_refl _
    · exact (le_of_eq (hother R hR)).trans (h.total R)
  · have hold := hquiet.completed R hc
    have hR : R ≠ runId := by
      rintro rfl
      exact hopen hold
    exact ⟨(hother R hR).trans (h.finished R hold).1, (h.finished R hold).2⟩
  · obtain ⟨hjob, hfree, hc⟩ := h.suspect job items hpc
    exact ⟨hjob, hfree, fun hc' => hc (hquiet.completed _ hc')⟩
  · refine ⟨fun job hjob => ?_, fun job hjob => hafford (h.budget.pending job hjob),
      fun job hjob => hafford (h.budget.active job hjob),
      fun pc hpc job hjob => hafford (h.budget.workers pc hpc job hjob),
      fun job hjob => hafford (h.budget.reaper job hjob), fun R => ?_⟩
    · rcases List.mem_cons.mp hjob with rfl | hjob
      · exact hafford ⟨by simp [hexec], (by decide : (0 : Int) ≤ maxRetries)⟩
      · exact hafford (h.budget.building job hjob)
    · rw [hquiet.executions]
      exact h.budget.spent R
  · have hR' : R ≠ runId := by
      rintro rfl
      exact hR (List.mem_append_right _ (List.mem_singleton.mpr rfl))
    obtain ⟨hnone, hexec, hc⟩ := h.unsubmitted R fun hR' => hR (hquiet.submitted R hR')
    exact ⟨(hother R hR').trans hnone, (hquiet.executions R).trans hexec,
      fun hc' => hc (hquiet.completed R hc')⟩

/-- A crash takes what a worker has in its hands with it, and leaves the rest. -/
theorem Tidy.crash (h : s.Tidy) (i : Nat) : (s.step (.crash i)).Tidy := by
  have hcarry : ∀ R, (s.step (.crash i)).carriers R ≤ s.carriers R :=
    fun R => countP_set_le rfl s.workers i
  have hlists : ∀ R, (s.step (.crash i)).listers R ≤ s.listers R :=
    fun R => countP_set_le rfl s.workers i
  have hopen : ∀ R, (s.step (.crash i)).unfinished R ≤ s.unfinished R :=
    fun R => countP_set_le rfl s.workers i
  have hmem : ∀ pc ∈ (s.step (.crash i)).workers, pc ∈ s.workers ∨ pc = .idle :=
    fun pc hpc => List.mem_or_eq_of_mem_set hpc
  have hle : ∀ R, (s.step (.crash i)).total R ≤ s.total R :=
    fun R => Nat.add_le_add_left (Nat.add_le_add_right (Nat.add_le_add_left (hcarry R) _) _) _
  refine h.quiet (quiet_of_log rfl) hle (fun R => (hlists R).trans (h.listers R)) (fun R hc => ?_)
    (fun pc hpc job hjob => ?_) (fun job items hpc => ?_) ?_
  · obtain ⟨hall, hzero⟩ := h.finished R hc
    exact ⟨le_antisymm ((hle R).trans (le_of_eq hall)) (active_le_total _ R),
      Nat.le_zero.mp (hzero ▸ hopen R)⟩
  · rcases hmem pc hpc with hpc | rfl
    · exact h.onList pc hpc job hjob
    · cases hjob
  · obtain ⟨hjob, hfree, hc⟩ := h.suspect job items hpc
    exact ⟨hjob, Nat.le_zero.mp (hfree ▸ hlists job.runId), hc⟩
  · refine h.budget.handed (fun _ => rfl) (fun _ hj => hj) (fun _ hj => .inl hj) (fun _ hj => hj)
      (fun pc hpc => ?_) h.budget.reaper
    refine (hmem pc hpc).imp_right ?_
    rintro rfl job hjob
    cases hjob

theorem Tidy.crashReaper (h : s.Tidy) : (s.step .crashReaper).Tidy := by
  have hle : ∀ R, (s.step .crashReaper).total R ≤ s.total R :=
    fun R => Nat.add_le_add_left (Nat.add_le_add_left (Nat.zero_le _) _) _
  refine h.quiet (quiet_of_log rfl) hle h.listers (fun R hc => ?_) h.onList nofun ?_
  · obtain ⟨hall, hopen⟩ := h.finished R hc
    exact ⟨le_antisymm ((hle R).trans (le_of_eq hall)) (active_le_total _ R), hopen⟩
  · exact h.budget.handed (fun _ => rfl) (fun _ hj => hj) (fun _ hj => .inl hj) (fun _ hj => hj)
      (fun _ hpc => .inl hpc) nofun

/-! ## Runs -/

theorem Tidy.step (h : s.Tidy) {m : Move} (horderly : s.orderly m = true) : (s.step m).Tidy := by
  cases m with
  | submit runId userId soPath roundId => exact h.submit (of_decide_eq_true horderly) ..
  | forge job result now =>
      unfold System.step
      dsimp only
      split
      · next hjob => exact h.forge hjob result now
      · exact h
  | worker i now check exit =>
      unfold System.step
      dsimp only
      split
      · next pc hpc => exact h.handled hpc (s.stepWorker_handled i now check exit pc)
      · exact h
  | reaper now =>
      refine h.reaped (s.stepReaper_reaped now) fun job items hpc hgone => ?_
      simpa [orderly, hpc, hgone, and_assoc] using horderly
  | expire runId =>
      exact h.quiet (quiet_of_log rfl) (fun _ => le_refl _) h.listers h.finished h.onList h.suspect
        (h.budget.handed (fun _ => rfl) (fun _ hj => hj) (fun _ hj => .inl hj) (fun _ hj => hj)
          (fun _ hpc => .inl hpc) h.budget.reaper)
  | crash i => exact h.crash i
  | crashReaper => exact h.crashReaper

theorem tidy_init (n : Nat) : (init n).Tidy := by
  have hidle : ∀ {p : WorkerPc → Bool}, p .idle = false → (init n).workers.countP p = 0 := by
    intro p hp
    refine List.countP_eq_zero.mpr fun pc hpc => ?_
    rw [List.eq_of_mem_replicate hpc, hp]
    exact Bool.false_ne_true
  have htotal : ∀ R, (init n).total R = 0 := by
    intro R
    unfold System.total copies carriers
    rw [hidle rfl]
    rfl
  have hnone : ∀ pc ∈ (init n).workers, pc = .idle := fun pc hpc => List.eq_of_mem_replicate hpc
  refine ⟨fun R => ?_, fun R => ?_, nofun, fun pc hpc job hjob => ?_, nofun, ?_, fun R _ => ?_,
    fun R hR => ?_⟩
  · rw [htotal]
    exact Nat.zero_le 1
  · exact le_of_eq (hidle rfl)
  · rw [hnone pc hpc] at hjob
    cases hjob
  · refine ⟨nofun, nofun, nofun, fun pc hpc job hjob => ?_, nofun, fun R => ?_⟩
    · rw [hnone pc hpc] at hjob
      cases hjob
    · exact Int.le_of_lt (by decide : (0 : Int) < maxRetries + 1)
  · exact ⟨htotal R, rfl, nofun⟩
  · exact absurd (List.sublist_nil.mp hR) (by simp)

theorem Tidy.exclusive (h : s.Tidy) : s.Exclusive where
  alone R := by
    have hle : (s.workers.countP fun pc => hasRun R pc.executing) ≤ s.listers R := by
      refine List.countP_mono_left fun pc _ hpc => ?_
      obtain ⟨job, hjob, hR⟩ := hasRun_iff.mp hpc
      exact hasRun_iff.mpr ⟨job, listed_of_executing hjob, hR⟩
    exact (hle.trans (h.listers R)).trans ((active_le_total s R).trans (h.total R))
  once := h.once
  bounded := h.budget.spent

end System

/-- Bounded, exclusive execution, in a run of any number of workers and the reaper in
which run ids are submitted once and the reaper re-enqueues orphans only. -/
theorem runs_exclusive {n : Nat} {moves : List Move}
    (horderly : Along System.step (fun s m => s.orderly m = true) (System.init n) moves) :
    (System.run n moves).Exclusive :=
  (foldl_inv System.Tidy (fun _ _ h hm => h.step hm) moves _ (System.tidy_init n) horderly).exclusive

/-- The next `k` commands of worker `i`, all of which succeed. -/
def works (i k : Nat) : List Move := List.replicate k (.worker i 2000 .started .complete)

/-- A worker crashes while it processes the job, the heartbeat expires, and the job is
reaped and completed by another worker. -/
theorem runs_exclusive_orphan :
    let moves := enqueueOne "run_1" ++ works 0 3 ++ [.crash 0, .expire "run_1"] ++
      List.replicate 4 (.reaper 3000) ++ works 1 7
    Along System.step (fun s m => s.orderly m = true) (System.init 2) moves ∧
      (System.run 2 moves).executions "run_1" = 2 ∧ (System.run 2 moves).Exclusive := by
  intro moves
  have horderly : Along System.step (fun s m => s.orderly m = true) (System.init 2) moves := by
    decide +kernel
  exact ⟨horderly, by decide +kernel, runs_exclusive horderly⟩

/-- A stale snapshot: the reaper reads the active list, the worker completes the job,
takes it off the list and deletes the heartbeat, and the reaper, which finds none,
enqueues the job once more. It is executed again. -/
theorem completed_run_repeated :
    ¬ (System.run 1 (enqueueOne "run_1" ++ works 0 3 ++ [.reaper 2000] ++ works 0 4 ++
      List.replicate 3 (.reaper 2000) ++ works 0 3)).Exclusive := by
  intro h
  exact absurd (h.once "run_1") (by decide +kernel)

end VidhiArena.Worker
