import VidhiArena.Worker.Exclusive

/-!
# Final statuses

The client polls until the status is `complete`, `error` or `tle`. `processJob` writes
such a status and then returns an error all the same, after a timeout and when the
binary is invalid, and its caller enqueues the job again.

Where that does not happen, a run with a final status is `Closed`: no process has a
job of it that could still write another one. What is left of it, on the active list
or in the hands of a process, has been completed or has no retry left.
-/

namespace VidhiArena.Worker

open VidhiArena.Foundation

/-- The job a worker has in its hands. -/
def WorkerPc.inHand : WorkerPc → Option RunJob
  | idle => none
  | popped job | marked job | processing job | running job | failed job | unlisted job
  | cleared job | requeued job | done job | retired job => some job

/-- The worker writes no status but `t` before it takes another job. -/
def WorkerPc.leaves (t : Status) : WorkerPc → Bool
  | idle | done _ | retired _ => true
  | failed job | unlisted job | cleared job => t = .error ∧ ¬ job.retries < maxRetries
  | popped _ | marked _ | processing _ | running _ | requeued _ => false

/-- The worker may change the status `t` of run `R`. -/
def WorkerPc.threatens (R : String) (t : Status) (pc : WorkerPc) : Bool :=
  hasRun R pc.inHand && !pc.leaves t

/-- The worker has enqueued a job of run `R` again, and is about to write the status. -/
def WorkerPc.requeuing (R : String) : WorkerPc → Bool
  | requeued job => job.runId = R
  | _ => false

namespace System

variable {s s' : System} {R : String} {t : Status} {i : Nat} {pc pc' : WorkerPc} {job : RunJob}

/-- Final statuses are final in a run: a status on which the client stops polling is
the status at the end. -/
def Absorbing (n : Nat) (moves : List Move) : Prop :=
  ∀ pre, pre <+: moves → ∀ R t, (run n pre).status R = some t → t.terminal = true →
    (run n moves).status R = some t

/-- The status of run `R` is nobody's to write. -/
def unclaimed (s : System) (R : String) : Bool := s.workers.countP (WorkerPc.requeuing R) = 0

/-- Beside what `orderly` asks for: no execution times out, a binary is found invalid on
its last try only, and no outcome is recorded while a worker that has enqueued the run
again has yet to write its status. -/
def steady (s : System) (m : Move) : Bool :=
  s.orderly m &&
    match m with
    | .worker i _ check exit =>
        match s.workers[i]? with
        | some (.processing job) =>
            check ≠ .elfInvalid || (¬ job.retries < maxRetries && s.unclaimed job.runId)
        | some (.running job) => exit = .failed || (exit = .complete && s.unclaimed job.runId)
        | some (.cleared job) => job.retries < maxRetries || s.unclaimed job.runId
        | _ => true
    | .reaper _ =>
        match s.reaper with
        | .unlisted job _ => job.retries < maxRetries || s.unclaimed job.runId
        | _ => true
    | _ => true

/-- Nobody is going to change the status `t` of run `R`. -/
structure Closed (s : System) (R : String) (t : Status) : Prop where
  building : s.building.countP (RunJob.isOf R) = 0
  pending : s.pending.countP (RunJob.isOf R) = 0
  active : ∀ job ∈ s.active, job.runId = R →
    .completed R ∈ s.log ∨ t = .error ∧ ¬ job.retries < maxRetries
  workers : s.workers.countP (WorkerPc.threatens R t) = 0
  reaper : ∀ job items, s.reaper = .stale job items ∨ s.reaper = .unlisted job items →
    job.runId = R → t = .error ∧ ¬ job.retries < maxRetries

/-! ## Status writes -/

theorem status_update_of_ne (h : job.runId ≠ R) (t : Status) :
    (s.updateRunStatus job.runId t).status R = s.status R :=
  Function.update_of_ne (Ne.symm h) ..

theorem status_update_self (h : s.status job.runId = some t) :
    (s.updateRunStatus job.runId t).status job.runId = some t := by
  simp [updateRunStatus, h]

theorem status_update {u : Status} (h : (s.updateRunStatus job.runId u).status R = some t) :
    s.status R = some t ∨ job.runId = R ∧ t = u := by
  by_cases hR : job.runId = R
  · subst hR
    refine .inr ⟨rfl, ?_⟩
    simp only [updateRunStatus, Function.update_self, Option.map_eq_some_iff] at h
    obtain ⟨-, -, rfl⟩ := h
    rfl
  · exact .inl (status_update_of_ne hR u ▸ h)

/-! ## A closed run stays closed -/

theorem Closed.harmless (h : s.Closed R t) (hi : s.workers[i]? = some pc) :
    pc.threatens R t = false :=
  Bool.eq_false_iff.mpr (List.countP_eq_zero.mp h.workers pc (List.mem_of_getElem? hi))

/-- The run has no new job, and worker `i` is at a place where it leaves the status. -/
theorem Closed.handed (h : s.Closed R t) (hb : s'.building = s.building)
    (hr : s'.reaper = s.reaper) (hp : s'.pending.countP (RunJob.isOf R) = 0)
    (ha : ∀ job ∈ s'.active, job.runId = R → job ∈ s.active)
    (hw : s'.workers = s.workers.set i pc') (hlog : s.log <+: s'.log)
    (hpc : pc'.threatens R t = false) : s'.Closed R t where
  building := hb ▸ h.building
  pending := hp
  active job hjob hR := (h.active job (ha job hjob hR) hR).imp_left (hlog.subset ·)
  workers := Nat.le_zero.mp (by rw [hw, ← h.workers]; exact countP_set_le hpc s.workers i)
  reaper := hr ▸ h.reaper

theorem Closed.pending_retry (h : s.Closed R t) (hne : job.runId ≠ R) (now : Int) :
    (s.retry job now).pending.countP (RunJob.isOf R) = 0 := by
  have hpush := countP_append_singleton (p := RunJob.isOf R) s.pending
    { job with retries := job.retries + 1, enqueuedAt := now }
  have hother : RunJob.isOf R { job with retries := job.retries + 1, enqueuedAt := now } = false :=
    not_hasRun hne
  rwa [h.pending, hother] at hpush

theorem not_threatens_of_ne (h : pc.inHand = some job) (hR : job.runId ≠ R) :
    pc.threatens R t = false := by
  simp [WorkerPc.threatens, h, hasRun, RunJob.isOf, hR]

theorem not_threatens_of_leaves (h : pc.leaves t = true) : pc.threatens R t = false := by
  simp [WorkerPc.threatens, h]

theorem ne_or_leaves (h : pc.threatens R t = false) (hjob : pc.inHand = some job) :
    job.runId ≠ R ∨ pc.leaves t = true := by
  simpa [WorkerPc.threatens, hjob, hasRun, RunJob.isOf, imp_iff_not_or] using h

theorem ne_of_stays (h : pc.threatens R t = false) (hjob : pc.inHand = some job)
    (hstays : pc.leaves t = false) : job.runId ≠ R :=
  (ne_or_leaves h hjob).resolve_right (Bool.eq_false_iff.mp hstays)

/-- A worker with a job of another run, or one that has no retry left after an error. -/
theorem not_threatens_spent (h : pc.inHand = some job)
    (hspent : job.runId ≠ R ∨ t = .error ∧ ¬ job.retries < maxRetries)
    (hpc : pc = .unlisted job ∨ pc = .cleared job ∨ pc = .failed job) :
    pc.threatens R t = false := by
  rcases hspent with hne | hspent
  · exact not_threatens_of_ne h hne
  · rcases hpc with rfl | rfl | rfl <;> exact not_threatens_of_leaves (decide_eq_true hspent)

/-- The next job is of another run. -/
theorem Closed.popped (h : s.Closed R t) {pending : List RunJob} (hp : s.pending = job :: pending) :
    ({ s with pending }.setWorker i (.popped job)).Closed R t := by
  have hnone := h.pending
  rw [hp] at hnone
  have hne : job.runId ≠ R := not_isOf_of_countP hnone job List.mem_cons_self
  refine h.handed rfl rfl ?_ (fun _ hj _ => hj) rfl List.prefix_rfl (not_threatens_of_ne rfl hne)
  exact Nat.le_zero.mp (hnone ▸ (List.sublist_cons_self job pending).countP_le)

/-- A job of another run, or one that is not tried again, and whose error is no news. -/
theorem Closed.cleared (h : s.Closed R t) (hstatus : s.status R = some t)
    (hspent : job.runId ≠ R ∨ t = .error ∧ ¬ job.retries < maxRetries) (now : Int) :
    (if job.retries < maxRetries then (s.retry job now).setWorker i (.requeued job)
      else ((s.updateRunStatus job.runId .error).setWorker i .idle).note
        (.abandoned job.runId)).Closed R t ∧
    (if job.retries < maxRetries then (s.retry job now).setWorker i (.requeued job)
      else ((s.updateRunStatus job.runId .error).setWorker i .idle).note
        (.abandoned job.runId)).status R = some t := by
  split
  · next hleft =>
      have hne : job.runId ≠ R := hspent.resolve_right fun hs => hs.2 hleft
      exact ⟨h.handed rfl rfl (h.pending_retry hne now) (fun _ hj _ => hj) rfl List.prefix_rfl
        (not_threatens_of_ne rfl hne), hstatus⟩
  · refine ⟨h.handed rfl rfl h.pending (fun _ hj _ => hj) rfl (List.prefix_append ..)
      (not_threatens_of_leaves rfl), ?_⟩
    -- of the run itself it is the status that it has
    by_cases hR : job.runId = R
    · subst hR
      obtain ⟨rfl, -⟩ := hspent.resolve_left fun hne => hne rfl
      exact status_update_self hstatus
    · exact (status_update_of_ne hR .error).trans hstatus

theorem Closed.worker (h : s.Closed R t) (hstatus : s.status R = some t)
    (hi : s.workers[i]? = some pc) (now : Int) (check : Check) (exit : Exit) :
    (s.stepWorker i now check exit pc).Closed R t ∧
      (s.stepWorker i now check exit pc).status R = some t := by
  have hpc := h.harmless hi
  have hother : ∀ {job : RunJob}, job.runId ≠ R → ∀ u,
      (s.updateRunStatus job.runId u).status R = some t :=
    fun hne u => (status_update_of_ne hne u).trans hstatus
  cases pc with
  | idle =>
      cases hp : s.pending with
      | nil =>
          simp only [stepWorker, hp]
          exact ⟨h, hstatus⟩
      | cons job pending =>
          simp only [stepWorker, hp]
          exact ⟨h.popped hp, hstatus⟩
  | popped job =>
      have hne := ne_of_stays hpc rfl rfl
      exact ⟨h.handed rfl rfl h.pending (fun _ hj _ => hj) rfl List.prefix_rfl
        (not_threatens_of_ne rfl hne), hstatus⟩
  | marked job =>
      have hne := ne_of_stays hpc rfl rfl
      refine ⟨h.handed rfl rfl h.pending (fun j hj hR => ?_) rfl (List.prefix_append ..)
        (not_threatens_of_ne rfl hne), hstatus⟩
      refine (List.mem_cons.mp hj).resolve_left ?_
      rintro rfl
      exact hne hR
  | processing job =>
      have hne := ne_of_stays hpc rfl rfl
      cases check with
      | soMissing | startFailed =>
          exact ⟨h.handed rfl rfl h.pending (fun _ hj _ => hj) rfl List.prefix_rfl
            (not_threatens_of_ne rfl hne), hstatus⟩
      | elfInvalid | started =>
          exact ⟨h.handed rfl rfl h.pending (fun _ hj _ => hj) rfl List.prefix_rfl
            (not_threatens_of_ne rfl hne), hother hne _⟩
  | running job =>
      have hne := ne_of_stays hpc rfl rfl
      cases exit with
      | failed =>
          exact ⟨h.handed rfl rfl h.pending (fun _ hj _ => hj) rfl List.prefix_rfl
            (not_threatens_of_ne rfl hne), hstatus⟩
      | timedOut =>
          exact ⟨h.handed rfl rfl h.pending (fun _ hj _ => hj) rfl List.prefix_rfl
            (not_threatens_of_ne rfl hne), hother hne _⟩
      | complete =>
          exact ⟨h.handed rfl rfl h.pending (fun _ hj _ => hj) rfl (List.prefix_append ..)
            (not_threatens_of_ne rfl hne), hother hne _⟩
  | failed job =>
      have hspent := (ne_or_leaves hpc rfl).imp_right of_decide_eq_true
      exact ⟨h.handed rfl rfl h.pending (fun _ hj _ => List.mem_of_mem_erase hj) rfl List.prefix_rfl
        (not_threatens_spent rfl hspent (.inl rfl)), hstatus⟩
  | unlisted job =>
      have hspent := (ne_or_leaves hpc rfl).imp_right of_decide_eq_true
      exact ⟨h.handed rfl rfl h.pending (fun _ hj _ => hj) rfl List.prefix_rfl
        (not_threatens_spent rfl hspent (.inr (.inl rfl))), hstatus⟩
  | cleared job =>
      have hspent := (ne_or_leaves hpc rfl).imp_right of_decide_eq_true
      exact h.cleared hstatus hspent now
  | requeued job =>
      have hne := ne_of_stays hpc rfl rfl
      exact ⟨h.handed rfl rfl h.pending (fun _ hj _ => hj) rfl List.prefix_rfl
        (not_threatens_of_leaves rfl), hother hne _⟩
  | done job =>
      exact ⟨h.handed rfl rfl h.pending (fun _ hj _ => List.mem_of_mem_erase hj) rfl List.prefix_rfl
        (not_threatens_of_leaves rfl), hstatus⟩
  | retired job =>
      exact ⟨h.handed rfl rfl h.pending (fun _ hj _ => hj) rfl List.prefix_rfl
        (not_threatens_of_leaves rfl), hstatus⟩

/-- The reaper's step on a closed run, which it takes for an orphan only if the run
has no completed execution. -/
theorem Closed.reaper_step (h : s.Closed R t) (hstatus : s.status R = some t)
    (horphan : ∀ job items, s.reaper = .scanning (job :: items) → s.heartbeat job.runId = false →
      job ∈ s.active ∧ .completed job.runId ∉ s.log) (now : Int) :
    (s.stepReaper now).Closed R t ∧ (s.stepReaper now).status R = some t := by
  unfold stepReaper
  split
  · exact ⟨⟨h.building, h.pending, h.active, h.workers, nofun⟩, hstatus⟩
  · exact ⟨⟨h.building, h.pending, h.active, h.workers, nofun⟩, hstatus⟩
  · next job items hpc =>
      split
      · exact ⟨⟨h.building, h.pending, h.active, h.workers, nofun⟩, hstatus⟩
      · next hgone =>
          obtain ⟨hjob, hopen⟩ := horphan job items hpc (Bool.eq_false_iff.mpr hgone)
          refine ⟨⟨h.building, h.pending, h.active, h.workers, ?_⟩, hstatus⟩
          rintro job' items' (heq | heq) rfl
          · cases heq
            exact (h.active job hjob rfl).resolve_left hopen
          · cases heq
  · next job items hpc =>
      refine ⟨⟨h.building, h.pending, fun j hj => h.active j (List.mem_of_mem_erase hj), h.workers,
        ?_⟩, hstatus⟩
      rintro job' items' (heq | heq) hR
      · cases heq
      · cases heq
        exact h.reaper job items (.inl hpc) hR
  · next job items hpc =>
      have hspent : job.runId = R → t = .error ∧ ¬ job.retries < maxRetries :=
        h.reaper job items (.inr hpc)
      split
      · next hleft =>
          have hne : job.runId ≠ R := fun hR => (hspent hR).2 hleft
          exact ⟨⟨h.building, h.pending_retry hne now, h.active, h.workers, nofun⟩, hstatus⟩
      · refine ⟨⟨h.building, h.pending, fun j hj hR => ?_, h.workers, nofun⟩, ?_⟩
        · exact (h.active j hj hR).imp_left (List.mem_append_left _ ·)
        · by_cases hR : job.runId = R
          · subst hR
            obtain ⟨rfl, -⟩ := hspent rfl
            exact status_update_self hstatus
          · exact (status_update_of_ne hR _).trans hstatus

/-! ## Recording an outcome closes the run -/

theorem threatens_zero {workers : List WorkerPc}
    (hc : (workers.countP fun pc => hasRun R pc.carried) = 0)
    (hl : (workers.countP fun pc => hasRun R pc.listed) = 0)
    (hq : workers.countP (WorkerPc.requeuing R) = 0) :
    workers.countP (WorkerPc.threatens R t) = 0 := by
  refine List.countP_eq_zero.mpr fun pc hpc hthreat => ?_
  have hc := List.countP_eq_zero.mp hc pc hpc
  have hl := List.countP_eq_zero.mp hl pc hpc
  have hq := List.countP_eq_zero.mp hq pc hpc
  have hR : hasRun R pc.inHand = true := (Bool.and_eq_true_iff.mp hthreat).1
  cases pc with
  | idle => cases hR
  | popped job | marked job | unlisted job | cleared job => exact hc hR
  | processing job | running job | failed job | done job => exact hl hR
  | requeued job => exact hq hR
  | retired job => simp [WorkerPc.threatens, WorkerPc.leaves] at hthreat

theorem closed_of_none (hb : s.building.countP (RunJob.isOf R) = 0)
    (hp : s.pending.countP (RunJob.isOf R) = 0) (ha : s.active.countP (RunJob.isOf R) = 0)
    (hc : s.carriers R = 0) (hl : s.listers R = 0)
    (hq : s.workers.countP (WorkerPc.requeuing R) = 0)
    (hr : ∀ job items, s.reaper = .stale job items ∨ s.reaper = .unlisted job items →
      job.runId ≠ R) : s.Closed R t where
  building := hb
  pending := hp
  active job hjob hR := absurd hR (not_isOf_of_countP ha job hjob)
  workers := threatens_zero hc hl hq
  reaper job items hpc hR := absurd hR (hr job items hpc)

/-- Neither does the reaper have a job of a run that is not on the active list. -/
theorem Tidy.unreaped (h : s.Tidy) (hr : hasRun R s.reaper.carried = false)
    (hfree : s.active.countP (RunJob.isOf R) = 0 ∨ 0 < s.listers R) (job : RunJob)
    (items : List RunJob) (hpc : s.reaper = .stale job items ∨ s.reaper = .unlisted job items) :
    job.runId ≠ R := by
  rintro rfl
  rcases hpc with hpc | hpc
  · obtain ⟨hjob, hnone, -⟩ := h.suspect job items hpc
    have hpos := countP_pos_of_mem hjob
    omega
  · rw [hpc, show hasRun job.runId (ReaperPc.unlisted job items).carried = true from
      decide_eq_true rfl] at hr
    cases hr

theorem countP_idle (hi : s.workers[i]? = some pc) {p : WorkerPc → Bool} (hidle : p .idle = false) :
    (s.workers.set i .idle).countP p + (p pc).toNat = s.workers.countP p := by
  have hset := countP_set (p := p) hi .idle
  rwa [hidle] at hset

/-- `processJob` records an outcome: it has the only copy of the job. -/
theorem Tidy.closed_listed (h : s.Tidy) (hi : s.workers[i]? = some pc) (hjob : pc.listed = some job)
    (hq : s.workers.countP (WorkerPc.requeuing job.runId) = 0) (hb : s'.building = s.building)
    (hp : s'.pending = s.pending) (ha : s'.active = s.active) (hr : s'.reaper = s.reaper)
    (hw : s'.workers = s.workers.set i pc') (hpc : pc'.threatens job.runId t = false)
    (hlast : .completed job.runId ∈ s'.log ∨ t = .error ∧ ¬ job.retries < maxRetries) :
    s'.Closed job.runId t := by
  have hmem : pc ∈ s.workers := List.mem_of_getElem? hi
  have hown : hasRun job.runId pc.listed = true := hasRun_iff.mpr ⟨job, hjob, rfl⟩
  have hpos := listers_pos hmem hjob
  have hlisters := h.listers job.runId
  have htotal := h.total job.runId
  unfold System.total copies at htotal
  have hcarried : hasRun job.runId s.reaper.carried = false := Bool.toNat_eq_zero.mp (by omega)
  refine ⟨by rw [hb]; omega, by rw [hp]; omega, fun j hj hR => ?_, ?_, ?_⟩
  · rw [ha] at hj
    refine hlast.imp_right fun ⟨ht, hspent⟩ => ⟨ht, ?_⟩
    suffices heq : j = job by rwa [heq]
    by_contra hne
    have herase := countP_erase_add (p := RunJob.isOf job.runId) (h.onList pc hmem job hjob)
    have hleft := countP_pos_of_mem ((List.mem_erase_of_ne hne).mpr hj)
    rw [hR] at hleft
    rw [show RunJob.isOf job.runId job = true from decide_eq_true rfl, Bool.toNat_true] at herase
    omega
  · have hc := countP_idle hi (p := fun pc => hasRun job.runId pc.carried) rfl
    have hl := countP_idle hi (p := fun pc => hasRun job.runId pc.listed) rfl
    have hq' := countP_idle hi (p := WorkerPc.requeuing job.runId) rfl
    simp only [hown, Bool.toNat_true] at hl
    unfold carriers at htotal
    unfold System.listers at hlisters hpos
    have hnone : (s.workers.set i .idle).countP (WorkerPc.threatens job.runId t) = 0 :=
      threatens_zero (by omega) (by omega) (by omega)
    rw [hw, ← List.set_set .idle]
    exact Nat.le_zero.mp (hnone ▸ countP_set_le hpc _ i)
  · rw [hr]
    exact fun j items hpc hR => absurd hR (h.unreaped hcarried (.inr hpos) j items hpc)

theorem Tidy.closed_carried (h : s.Tidy) (hi : s.workers[i]? = some pc)
    (hjob : pc.carried = some job) (hq : s.workers.countP (WorkerPc.requeuing job.runId) = 0)
    (hb : s'.building = s.building) (hp : s'.pending = s.pending) (ha : s'.active = s.active)
    (hr : s'.reaper = s.reaper) (hw : s'.workers = s.workers.set i .idle) :
    s'.Closed job.runId t := by
  have hown : hasRun job.runId pc.carried = true := hasRun_iff.mpr ⟨job, hjob, rfl⟩
  have hpos := carriers_pos (List.mem_of_getElem? hi) hjob
  have hlisters := h.listers job.runId
  have htotal := h.total job.runId
  unfold System.total copies at htotal
  have hc := countP_idle hi (p := fun pc => hasRun job.runId pc.carried) rfl
  have hl := countP_idle hi (p := fun pc => hasRun job.runId pc.listed) rfl
  have hq' := countP_idle hi (p := WorkerPc.requeuing job.runId) rfl
  simp only [hown, Bool.toNat_true] at hc
  have hactive : s.active.countP (RunJob.isOf job.runId) = 0 := by omega
  have hcarried : hasRun job.runId s.reaper.carried = false := Bool.toNat_eq_zero.mp (by omega)
  unfold carriers at htotal hpos
  unfold System.listers at hlisters
  refine closed_of_none (by rw [hb]; omega) (by rw [hp]; omega) (by rw [ha]; exact hactive) ?_ ?_ ?_ ?_
  · unfold carriers
    rw [hw]
    omega
  · unfold System.listers
    rw [hw]
    omega
  · rw [hw]
    omega
  · rw [hr]
    exact h.unreaped hcarried (.inl hactive)

theorem Tidy.closed_reaped (h : s.Tidy) {items : List RunJob} (hpc : s.reaper = .unlisted job items)
    (hq : s.workers.countP (WorkerPc.requeuing job.runId) = 0) (hb : s'.building = s.building)
    (hp : s'.pending = s.pending) (ha : s'.active = s.active) (hr : s'.reaper = .scanning items)
    (hw : s'.workers = s.workers) : s'.Closed job.runId t := by
  have hlisters := h.listers job.runId
  have htotal := h.total job.runId
  have hown : hasRun job.runId s.reaper.carried = true := by rw [hpc]; exact decide_eq_true rfl
  unfold System.total copies at htotal
  rw [hown, Bool.toNat_true] at htotal
  refine closed_of_none (by rw [hb]; omega) (by rw [hp]; omega) (by rw [ha]; omega) ?_ ?_ ?_ ?_
  · unfold carriers at *
    rw [hw]
    omega
  · unfold System.listers at *
    rw [hw]
    omega
  · rw [hw]
    exact hq
  · rw [hr]
    exact nofun

/-- The pipeline fails, or runs the Game Master itself: the job is enqueued nowhere. -/
theorem Tidy.closed_built (h : s.Tidy) (hjob : job ∈ s.building)
    (hq : s.workers.countP (WorkerPc.requeuing job.runId) = 0) (status : String → Option Status) :
    { s with building := s.building.erase job, status }.Closed job.runId t := by
  have hlisters := h.listers job.runId
  have htotal := h.total job.runId
  have hgone := countP_erase_add (p := RunJob.isOf job.runId) hjob
  rw [show RunJob.isOf job.runId job = true from decide_eq_true rfl, Bool.toNat_true] at hgone
  unfold System.total copies at htotal
  have hactive : s.active.countP (RunJob.isOf job.runId) = 0 := by omega
  have hcarried : hasRun job.runId s.reaper.carried = false := Bool.toNat_eq_zero.mp (by omega)
  refine closed_of_none (by dsimp only; omega) (by dsimp only; omega) hactive ?_ ?_ hq
    (h.unreaped hcarried (.inl hactive))
  · exact (by omega : s.carriers job.runId = 0)
  · exact (by omega : s.listers job.runId = 0)

/-! ## Runs -/

/-- The invariant. -/
structure Final (s : System) : Prop where
  tidy : s.Tidy
  closed : ∀ R t, s.status R = some t → t.terminal = true → s.Closed R t
  rows : ∀ R, .submitted R ∉ s.log → s.status R = none
  requeued : ∀ R, s.workers.countP (WorkerPc.requeuing R) ≠ 0 →
    .submitted R ∈ s.log ∧ s.building.countP (RunJob.isOf R) = 0

theorem status_update_none {runId : String} {u : Status} (h : s.status R = none) :
    (s.updateRunStatus runId u).status R = none := by
  by_cases hR : runId = R
  · subst hR
    simp [updateRunStatus, h]
  · exact (Function.update_of_ne (Ne.symm hR) ..).trans h

theorem status_none_worker (h : s.status R = none) (now : Int) (check : Check) (exit : Exit) :
    (s.stepWorker i now check exit pc).status R = none := by
  cases pc with
  | idle => cases hp : s.pending <;> (simp only [stepWorker, hp]; exact h)
  | processing job => cases check <;> first | exact h | exact status_update_none h
  | running job => cases exit <;> first | exact h | exact status_update_none h
  | cleared job =>
      unfold stepWorker
      dsimp only
      split
      · exact h
      · exact status_update_none h
  | requeued job => exact status_update_none h
  | popped | marked | failed | unlisted | done | retired => exact h

theorem requeuing_worker (pc : WorkerPc) (now : Int) (check : Check) (exit : Exit) :
    (s.stepWorker i now check exit pc).workers.countP (WorkerPc.requeuing R) ≤
      s.workers.countP (WorkerPc.requeuing R) ∨ ∃ job, pc.carried = some job ∧ job.runId = R := by
  cases pc with
  | idle =>
      left
      cases hp : s.pending with
      | nil =>
          simp only [stepWorker, hp]
          exact le_refl _
      | cons job pending =>
          simp only [stepWorker, hp]
          exact countP_set_le rfl s.workers i
  | processing job => cases check <;> exact .inl (countP_set_le rfl s.workers i)
  | running job => cases exit <;> exact .inl (countP_set_le rfl s.workers i)
  | cleared job =>
      by_cases hR : job.runId = R
      · exact .inr ⟨job, rfl, hR⟩
      · left
        unfold stepWorker
        dsimp only
        split
        · have hother : WorkerPc.requeuing R (.requeued job) = false := decide_eq_false hR
          exact countP_set_le hother s.workers i
        · exact countP_set_le rfl s.workers i
  | popped | marked | failed | unlisted | requeued | done | retired =>
      exact .inl (countP_set_le rfl s.workers i)

theorem step_log (s : System) (m : Move) : s.log <+: (s.step m).log := by
  cases m with
  | submit => exact List.prefix_append ..
  | forge job result now =>
      unfold System.step
      dsimp only
      split
      · cases result <;> first | exact List.prefix_rfl | exact List.prefix_append ..
      · exact List.prefix_rfl
  | worker i now check exit =>
      unfold System.step
      dsimp only
      split
      · next pc _ => exact (handled_log (s.stepWorker_handled i now check exit pc)).1
      · exact List.prefix_rfl
  | reaper now => exact (reaped_log (s.stepReaper_reaped now)).1
  | expire | crash | crashReaper => exact List.prefix_rfl

theorem Closed.step {m : Move} (h : s.Closed R t) (hsubmitted : .submitted R ∈ s.log)
    (horderly : s.orderly m = true) (hstatus : s.status R = some t) :
    (s.step m).Closed R t ∧ (s.step m).status R = some t := by
  cases m with
  | submit runId userId soPath roundId =>
      have hne : runId ≠ R := by
        rintro rfl
        exact of_decide_eq_true horderly hsubmitted
      refine ⟨⟨?_, h.pending, fun j hj hR => ?_, h.workers, h.reaper⟩, ?_⟩
      · have hcons := countP_cons_isOf (R := R) ⟨runId, userId, soPath, roundId, "", 0, 0⟩ s.building
        rw [h.building, not_hasRun hne] at hcons
        exact hcons
      · exact (h.active j hj hR).imp_left (List.mem_append_left _ ·)
      · exact (Function.update_of_ne (Ne.symm hne) ..).trans hstatus
  | forge job result now =>
      unfold System.step
      dsimp only
      split
      · next hjob =>
          have hne : job.runId ≠ R := not_isOf_of_countP h.building job hjob
          have hb : (s.building.erase job).countP (RunJob.isOf R) = 0 :=
            Nat.le_zero.mp (h.building ▸ (List.erase_sublist).countP_le)
          cases result with
          | failed | directError | directComplete =>
              exact ⟨⟨hb, h.pending, h.active, h.workers, h.reaper⟩,
                (status_update_of_ne hne _).trans hstatus⟩
          | enqueued =>
              refine ⟨⟨hb, ?_, fun j hj hR => ?_, h.workers, h.reaper⟩, hstatus⟩
              · have hpush := countP_append_singleton (p := RunJob.isOf R) s.pending
                  { job with enqueuedAt := now }
                have hother : RunJob.isOf R { job with enqueuedAt := now } = false := not_hasRun hne
                rwa [h.pending, hother] at hpush
              · exact (h.active j hj hR).imp_left (List.mem_append_left _ ·)
      · exact ⟨h, hstatus⟩
  | worker i now check exit =>
      unfold System.step
      dsimp only
      split
      · next pc hi => exact h.worker hstatus hi now check exit
      · exact ⟨h, hstatus⟩
  | reaper now =>
      refine h.reaper_step hstatus (fun job items hpc hgone => ?_) now
      have hcond : (job ∈ s.active ∧ s.listers job.runId = 0) ∧ .completed job.runId ∉ s.log := by
        simpa [orderly, hpc, hgone] using horderly
      exact ⟨hcond.1.1, hcond.2⟩
  | expire runId => exact ⟨⟨h.building, h.pending, h.active, h.workers, h.reaper⟩, hstatus⟩
  | crash i =>
      have hidle : WorkerPc.idle.threatens R t = false := rfl
      exact ⟨h.handed rfl rfl h.pending (fun _ hj _ => hj) rfl List.prefix_rfl hidle, hstatus⟩
  | crashReaper =>
      refine ⟨⟨h.building, h.pending, h.active, h.workers, ?_⟩, hstatus⟩
      rintro job items (hpc | hpc)
      · cases hpc
      · cases hpc

theorem Tidy.closed_worker (h : s.Tidy) (hi : s.workers[i]? = some pc) {now : Int} {check : Check}
    {exit : Exit} (hsteady : s.steady (.worker i now check exit) = true)
    (hnew : s.status R ≠ some t) (ht : t.terminal = true)
    (hstatus : (s.stepWorker i now check exit pc).status R = some t) :
    (s.stepWorker i now check exit pc).Closed R t := by
  have hrule := (Bool.and_eq_true_iff.mp hsteady).2
  simp only [hi] at hrule
  cases pc with
  | idle =>
      refine absurd hstatus ?_
      cases hp : s.pending <;> (simp only [stepWorker, hp]; exact hnew)
  | popped | marked | failed | unlisted | done | retired => exact absurd hstatus hnew
  | processing job =>
      cases check with
      | soMissing | startFailed => exact absurd hstatus hnew
      | started =>
          obtain ⟨-, rfl⟩ := (status_update hstatus).resolve_left hnew
          cases ht
      | elfInvalid =>
          obtain ⟨rfl, rfl⟩ := (status_update hstatus).resolve_left hnew
          have hlast : ¬ job.retries < maxRetries ∧ s.unclaimed job.runId = true := by
            simpa using hrule
          exact h.closed_listed hi rfl (of_decide_eq_true hlast.2) rfl rfl rfl rfl rfl
            (not_threatens_spent rfl (.inr ⟨rfl, hlast.1⟩) (.inr (.inr rfl))) (.inr ⟨rfl, hlast.1⟩)
  | running job =>
      cases exit with
      | timedOut => cases hrule
      | failed => exact absurd hstatus hnew
      | complete =>
          obtain ⟨rfl, rfl⟩ := (status_update hstatus).resolve_left hnew
          have hfree : s.unclaimed job.runId = true := by simpa using hrule
          exact h.closed_listed hi rfl (of_decide_eq_true hfree) rfl rfl rfl rfl rfl
            (not_threatens_of_leaves rfl)
            (.inl (List.mem_append_right _ (List.mem_singleton.mpr rfl)))
  | cleared job =>
      simp only [stepWorker] at hstatus ⊢
      split at hstatus
      · exact absurd hstatus hnew
      · next hspent =>
          obtain ⟨rfl, rfl⟩ := (status_update hstatus).resolve_left hnew
          have hfree : s.unclaimed job.runId = true := by simpa [hspent] using hrule
          rw [if_neg hspent]
          exact h.closed_carried hi rfl (of_decide_eq_true hfree) rfl rfl rfl rfl rfl
  | requeued job =>
      obtain ⟨-, rfl⟩ := (status_update hstatus).resolve_left hnew
      cases ht

theorem stepReaper_status (s : System) (now : Int) :
    (s.stepReaper now).status = s.status ∨ ∃ job items, s.reaper = .unlisted job items ∧
      ¬ job.retries < maxRetries ∧ s.stepReaper now =
        { s.updateRunStatus job.runId .error with reaper := .scanning items }.note
          (.abandoned job.runId) := by
  unfold stepReaper
  split
  · exact .inl rfl
  · exact .inl rfl
  · split <;> exact .inl rfl
  · exact .inl rfl
  · next job items hpc =>
      split
      · exact .inl rfl
      · next hspent => exact .inr ⟨job, items, hpc, hspent, rfl⟩

theorem Final.closes (h : s.Final) {m : Move} (hsteady : s.steady m = true)
    (hnew : s.status R ≠ some t) (ht : t.terminal = true)
    (hstatus : (s.step m).status R = some t) : (s.step m).Closed R t := by
  cases m with
  | submit runId userId soPath roundId =>
      by_cases hR : R = runId
      · subst hR
        simp only [System.step, note, Function.update_self, Option.some.injEq] at hstatus
        subst hstatus
        cases ht
      · exact absurd ((Function.update_of_ne hR ..).symm.trans hstatus) hnew
  | forge job result now =>
      unfold System.step at hstatus ⊢
      dsimp only at hstatus ⊢
      split at hstatus
      · next hjob =>
          rw [if_pos hjob]
          have hfree : s.workers.countP (WorkerPc.requeuing job.runId) = 0 := by
            by_contra hq
            have hnone := (h.requeued job.runId hq).2
            exact absurd (countP_pos_of_mem hjob) (by omega)
          cases result with
          | failed | directError | directComplete =>
              obtain ⟨rfl, rfl⟩ := (status_update hstatus).resolve_left hnew
              exact h.tidy.closed_built hjob hfree _
          | enqueued => exact absurd hstatus hnew
      · exact absurd hstatus hnew
  | worker i now check exit =>
      unfold System.step at hstatus ⊢
      dsimp only at hstatus ⊢
      split at hstatus
      · next pc hi => exact h.tidy.closed_worker hi hsteady hnew ht hstatus
      · exact absurd hstatus hnew
  | reaper now =>
      rcases s.stepReaper_status now with hsame | ⟨job, items, hpc, hspent, heq⟩
      · exact absurd ((congrFun hsame R).symm.trans hstatus) hnew
      · have hrule := (Bool.and_eq_true_iff.mp hsteady).2
        have hfree : s.unclaimed job.runId = true := by simpa [hpc, hspent] using hrule
        change (s.stepReaper now).status R = some t at hstatus
        change (s.stepReaper now).Closed R t
        rw [heq] at hstatus ⊢
        obtain ⟨rfl, rfl⟩ := (status_update hstatus).resolve_left hnew
        exact h.tidy.closed_reaped hpc (of_decide_eq_true hfree) rfl rfl rfl rfl rfl
  | expire | crash | crashReaper => exact absurd hstatus hnew

theorem Final.rows_step (h : s.Final) (m : Move) (hR : .submitted R ∉ (s.step m).log) :
    (s.step m).status R = none := by
  have hnone := h.rows R fun hR' => hR ((s.step_log m).subset hR')
  cases m with
  | submit runId userId soPath roundId =>
      have hne : R ≠ runId := by
        rintro rfl
        exact hR (List.mem_append_right _ (List.mem_singleton.mpr rfl))
      exact (Function.update_of_ne hne ..).trans hnone
  | forge job result now =>
      unfold System.step
      dsimp only
      split
      · cases result <;> first | exact hnone | exact status_update_none hnone
      · exact hnone
  | worker i now check exit =>
      unfold System.step
      dsimp only
      split
      · exact status_none_worker hnone now check exit
      · exact hnone
  | reaper now =>
      rcases s.stepReaper_status now with hsame | ⟨job, items, -, -, heq⟩
      · exact (congrFun hsame R).trans hnone
      · change (s.stepReaper now).status R = none
        rw [heq]
        exact status_update_none hnone
  | expire | crash | crashReaper => exact hnone

theorem reaped_frame (hstep : Reaped s s') : s'.workers = s.workers ∧ s'.building = s.building := by
  cases hstep <;> exact ⟨rfl, rfl⟩

theorem handled_building (hstep : Handled s i pc s') : s'.building = s.building := by
  cases hstep <;> rfl

/-- What a worker enqueues again has been submitted, and is not being built. -/
theorem Tidy.carried_submitted (h : s.Tidy) (hpc : pc ∈ s.workers) (hjob : pc.carried = some job) :
    .submitted job.runId ∈ s.log ∧ s.building.countP (RunJob.isOf job.runId) = 0 := by
  have hpos := carriers_pos hpc hjob
  have htotal := h.total job.runId
  refine ⟨?_, ?_⟩
  · by_contra hnew
    have hnone := (h.unsubmitted job.runId hnew).1
    unfold System.total copies at hnone
    omega
  · unfold System.total copies at htotal
    omega

theorem Final.requeued_step (h : s.Final) {m : Move} (horderly : s.orderly m = true)
    (hR : (s.step m).workers.countP (WorkerPc.requeuing R) ≠ 0) :
    .submitted R ∈ (s.step m).log ∧ (s.step m).building.countP (RunJob.isOf R) = 0 := by
  have hlog : .submitted R ∈ s.log → .submitted R ∈ (s.step m).log := ((s.step_log m).subset ·)
  have hsame : (s.step m).workers = s.workers → .submitted R ∈ s.log ∧
      s.building.countP (RunJob.isOf R) = 0 := fun hw => h.requeued R (hw ▸ hR)
  cases m with
  | submit runId userId soPath roundId =>
      obtain ⟨hold, hnone⟩ := hsame rfl
      refine ⟨hlog hold, ?_⟩
      have hne : runId ≠ R := by
        rintro rfl
        exact of_decide_eq_true horderly hold
      have hcons := countP_cons_isOf (R := R) ⟨runId, userId, soPath, roundId, "", 0, 0⟩ s.building
      rwa [hnone, not_hasRun hne] at hcons
  | forge job result now =>
      unfold System.step at hR hlog hsame ⊢
      dsimp only at hR hlog hsame ⊢
      split at hR
      · next hjob =>
          rw [if_pos hjob] at hlog hsame ⊢
          have hworkers : (s.stepForge job now result).workers = s.workers := by
            cases result <;> rfl
          have hbuilding : (s.stepForge job now result).building = s.building.erase job := by
            cases result <;> rfl
          obtain ⟨hold, hnone⟩ := hsame hworkers
          refine ⟨hlog hold, ?_⟩
          rw [hbuilding]
          exact Nat.le_zero.mp (hnone ▸ List.erase_sublist.countP_le)
      · next hjob =>
          rw [if_neg hjob]
          exact h.requeued R hR
  | worker i now check exit =>
      unfold System.step at hR hlog ⊢
      dsimp only at hR hlog ⊢
      split at hR
      · next pc hi =>
          rw [handled_building (s.stepWorker_handled i now check exit pc)]
          simp only [hi] at hlog
          rcases requeuing_worker (R := R) pc now check exit with hle | ⟨job, hjob, rfl⟩
          · obtain ⟨hold, hnone⟩ := h.requeued R fun hzero => hR (Nat.le_zero.mp (hzero ▸ hle))
            exact ⟨hlog hold, hnone⟩
          · obtain ⟨hold, hnone⟩ := h.tidy.carried_submitted (List.mem_of_getElem? hi) hjob
            exact ⟨hlog hold, hnone⟩
      · exact h.requeued R hR
  | reaper now =>
      obtain ⟨hworkers, hbuilding⟩ := reaped_frame (s.stepReaper_reaped now)
      obtain ⟨hold, hnone⟩ := hsame hworkers
      exact ⟨hlog hold, hbuilding ▸ hnone⟩
  | expire => exact hsame rfl
  | crash i =>
      refine h.requeued R fun hzero => hR (Nat.le_zero.mp ?_)
      exact hzero ▸ countP_set_le rfl s.workers i
  | crashReaper => exact hsame rfl

theorem Final.step (h : s.Final) {m : Move} (hsteady : s.steady m = true) :
    (s.step m).Final ∧ ∀ R t, s.status R = some t → t.terminal = true →
      (s.step m).status R = some t := by
  have horderly : s.orderly m = true := (Bool.and_eq_true_iff.mp hsteady).1
  have hkept : ∀ R t, s.status R = some t → t.terminal = true →
      (s.step m).Closed R t ∧ (s.step m).status R = some t := by
    intro R t hstatus ht
    have hsubmitted : .submitted R ∈ s.log := by
      by_contra hnew
      rw [h.rows R hnew] at hstatus
      cases hstatus
    exact (h.closed R t hstatus ht).step hsubmitted horderly hstatus
  refine ⟨⟨h.tidy.step horderly, fun R t hstatus ht => ?_, fun R => h.rows_step m,
    fun R => h.requeued_step horderly⟩, fun R t hstatus ht => (hkept R t hstatus ht).2⟩
  by_cases hold : s.status R = some t
  · exact (hkept R t hold ht).1
  · exact h.closes hsteady hold ht hstatus

theorem final_init (n : Nat) : (init n).Final := by
  refine ⟨tidy_init n, nofun, fun _ _ => rfl, fun R hR => absurd ?_ hR⟩
  refine List.countP_eq_zero.mpr fun pc hpc => ?_
  rw [List.eq_of_mem_replicate hpc]
  exact Bool.false_ne_true

theorem Final.kept : ∀ {s : System} {moves : List Move}, s.Final →
    Along System.step (fun s m => s.steady m = true) s moves → ∀ R t, s.status R = some t →
    t.terminal = true → (moves.foldl System.step s).status R = some t
  | _, [], _, _, _, _, hstatus, _ => hstatus
  | _, _ :: _, h, ⟨hm, hrest⟩, R, t, hstatus, ht =>
      (h.step hm).1.kept hrest R t ((h.step hm).2 R t hstatus ht) ht

end System

/-- Final statuses are final, in a run in which run ids are submitted once, the reaper
re-enqueues orphans only, no execution times out, a binary is found invalid on its last
try only, and no outcome is recorded for a run that a worker is about to call queued. -/
theorem final_statuses_absorbing {n : Nat} {moves : List Move}
    (hsteady : Along System.step (fun s m => s.steady m = true) (System.init n) moves) :
    System.Absorbing n moves := by
  rintro pre ⟨post, rfl⟩ R t hstatus ht
  obtain ⟨hpre, hpost⟩ := along_append.mp hsteady
  have hfinal : (System.run n pre).Final :=
    foldl_inv System.Final (fun _ _ h hm => (h.step hm).1) pre _ (System.final_init n) hpre
  rw [System.run, List.foldl_append]
  exact hfinal.kept hpost R t hstatus ht

/-- The Game Master fails once, and the second execution completes. -/
theorem final_statuses_absorbing_second_try :
    let moves := enqueueOne "run_1" ++ works 0 4 ++
      List.replicate 5 (.worker 0 2000 .started .failed) ++ works 0 7
    Along System.step (fun s m => s.steady m = true) (System.init 1) moves ∧
      (System.run 1 moves).status "run_1" = some .complete ∧ System.Absorbing 1 moves := by
  intro moves
  have hsteady : Along System.step (fun s m => s.steady m = true) (System.init 1) moves := by
    decide +kernel
  exact ⟨hsteady, by decide +kernel, final_statuses_absorbing hsteady⟩

/-- A timeout is not final: the worker writes `tle`, and its loop, to which `processJob`
returns an error, enqueues the job again and writes `queued`. -/
theorem timed_out_run_queued :
    ¬ System.Absorbing 1 (enqueueOne "run_1" ++ works 0 4 ++
      List.replicate 5 (.worker 0 2000 .started .timedOut)) := by
  intro h
  have hpre : enqueueOne "run_1" ++ works 0 4 ++ [.worker 0 2000 .started .timedOut] <+:
      enqueueOne "run_1" ++ works 0 4 ++ List.replicate 5 (.worker 0 2000 .started .timedOut) := by
    decide
  have hend := h _ hpre "run_1" .tle (by decide +kernel) rfl
  exact absurd hend (by decide +kernel)

end VidhiArena.Worker
