import VidhiArena.Worker.JobQueue

/-!
# No job is lost

A job leaves a list only into the hands of a process, and leaves these only onto a
list, unless its run is settled: `processJob` has returned nil for it, or its
retries are used up. So the copies of an unsettled run never get fewer
(`copies_stepWorker`, `copies_stepReaper`), except that a process crashes with one
in its hands. The windows are those after `BRPOP` and before the job is on the
active list, and after `LREM` and before it is enqueued again.
-/

namespace VidhiArena.Worker

open VidhiArena.Foundation

namespace System

variable {s : System} {R : String} {i : Nat} {pc pc' : WorkerPc}

def Settled (s : System) (R : String) : Prop := .completed R ∈ s.log ∨ .abandoned R ∈ s.log

/-- A process that is alive has a job of run `R` in its hands. -/
def HeldAlive (s : System) (R : String) : Prop :=
  (∃ pc ∈ s.workers, ∃ job, pc.carried = some job ∧ job.runId = R) ∨
    ∃ job, s.reaper.carried = some job ∧ job.runId = R

/-- No job is lost: a run that has been enqueued and is not settled has a job that
is pending, active or held. -/
def NoneLost (s : System) : Prop :=
  ∀ R, .pushed R ∈ s.log → ¬ s.Settled R →
    (∃ job ∈ s.pending, job.runId = R) ∨ (∃ job ∈ s.active, job.runId = R) ∨ s.HeldAlive R

/-- The process that crashes, if any, has no job in its hands that is on neither list. -/
def safeCrash (s : System) : Move → Bool
  | .crash i =>
      match s.workers[i]? with
      | some pc => pc.carried = none
      | none => true
  | .crashReaper => s.reaper.carried = none
  | _ => true

/-! ## Copies -/

theorem hasRun_iff {o : Option RunJob} : hasRun R o = true ↔ ∃ job, o = some job ∧ job.runId = R := by
  cases o with
  | none => simp [hasRun]
  | some job => simp [hasRun, RunJob.isOf]

theorem copies_pos : 0 < s.copies R ↔
    (∃ job ∈ s.pending, job.runId = R) ∨ (∃ job ∈ s.active, job.runId = R) ∨ s.HeldAlive R := by
  have hlist : ∀ {l : List RunJob}, 0 < l.countP (RunJob.isOf R) ↔ ∃ job ∈ l, job.runId = R := by
    intro l
    simp [List.countP_pos_iff, RunJob.isOf]
  have hworkers : 0 < s.carriers R ↔ ∃ pc ∈ s.workers, ∃ job, pc.carried = some job ∧
      job.runId = R := by
    simp only [carriers, List.countP_pos_iff, hasRun_iff]
  have hreaper : 0 < (hasRun R s.reaper.carried).toNat ↔
      ∃ job, s.reaper.carried = some job ∧ job.runId = R := by
    rw [← hasRun_iff]
    cases hasRun R s.reaper.carried <;> simp
  unfold copies HeldAlive
  rw [← hlist, ← hlist, ← hworkers, ← hreaper]
  omega

theorem copies_setWorker (h : s.workers[i]? = some pc) (pc' : WorkerPc) :
    (s.setWorker i pc').copies R + (hasRun R pc.carried).toNat =
      s.copies R + (hasRun R pc'.carried).toNat := by
  have := countP_set (p := fun pc => hasRun R pc.carried) h pc'
  unfold copies carriers setWorker
  dsimp only at this ⊢
  omega

theorem copies_erase (job : RunJob) :
    s.copies R ≤ { s with active := s.active.erase job }.copies R + (RunJob.isOf R job).toNat := by
  have := countP_erase_ge (p := RunJob.isOf R) s.active job
  unfold copies carriers
  dsimp only
  omega

theorem copies_retry (job : RunJob) (now : Int) :
    (s.retry job now).copies R = s.copies R + (RunJob.isOf R job).toNat := by
  have := countP_append_singleton (p := RunJob.isOf R) s.pending
    { job with retries := job.retries + 1, enqueuedAt := now }
  unfold copies carriers retry
  dsimp only
  rw [this]
  have : RunJob.isOf R { job with retries := job.retries + 1, enqueuedAt := now } =
    RunJob.isOf R job := rfl
  rw [this]
  omega

theorem copies_pending {job : RunJob} {pending : List RunJob} (h : s.pending = job :: pending) :
    s.copies R = { s with pending }.copies R + (RunJob.isOf R job).toNat := by
  unfold copies carriers
  rw [h, List.countP_cons]
  cases RunJob.isOf R job <;> (simp; try omega)

theorem copies_active (job : RunJob) :
    { s with active := job :: s.active }.copies R = s.copies R + (RunJob.isOf R job).toNat := by
  unfold copies carriers
  dsimp only
  rw [List.countP_cons]
  cases RunJob.isOf R job <;> (simp; try omega)

theorem not_hasRun {job : RunJob} (h : job.runId ≠ R) : RunJob.isOf R job = false :=
  decide_eq_false h

/-- A worker loses nothing; `hdone` says that it retires completed runs only. -/
theorem copies_handled {s' : System} (h : s.workers[i]? = some pc) (hstep : Handled s i pc s')
    (hdone : ∀ job, pc = .done job → .completed job.runId ∈ s.log) :
    s'.Settled R ∨ s.copies R ≤ s'.copies R := by
  have hset : ∀ (s' : System) (pc' : WorkerPc), s'.workers = s.workers →
      (s'.setWorker i pc').copies R + (hasRun R pc.carried).toNat =
        s'.copies R + (hasRun R pc'.carried).toNat :=
    fun s' pc' heq => copies_setWorker (heq ▸ h) _
  cases hstep with
  | stay none => exact .inr (le_refl _)
  | @take job pending next =>
      have hkept := hset { s with pending } (.popped job) rfl
      exact .inr (le_of_eq ((copies_pending next).trans hkept.symm))
  | @keep pc pc' heartbeat status carried listed unfinished fresh done =>
      have hkept := hset { s with heartbeat, status } pc' rfl
      rw [carried] at hkept
      exact .inr (le_of_eq (Nat.add_right_cancel hkept).symm)
  | list job =>
      have hkept := hset { s with active := job :: s.active } (.processing job) rfl
      rw [copies_active] at hkept
      exact .inr (le_of_eq (Nat.add_right_cancel hkept).symm)
  | complete job status => exact .inr (le_of_eq (hset { s with status } (.done job) rfl).symm)
  | unlist job =>
      have hkept := hset { s with active := s.active.erase job } (.unlisted job) rfl
      exact .inr ((copies_erase job).trans (le_of_eq hkept.symm))
  | requeue job now left =>
      have hkept := hset (s.retry job now) (.requeued job) rfl
      rw [copies_retry] at hkept
      exact .inr (le_of_eq (Nat.add_right_cancel hkept).symm)
  | abandon job status spent =>
      by_cases hR : job.runId = R
      · exact .inl (.inr (hR ▸ by simp [note]))
      · have hkept := hset { s with status } .idle rfl
        rw [show hasRun R (WorkerPc.cleared job).carried = false from not_hasRun hR] at hkept
        exact .inr (le_of_eq hkept.symm)
  | retire job =>
      by_cases hR : job.runId = R
      · exact .inl (.inl (hR ▸ hdone job rfl))
      · have hkept := hset { s with active := s.active.erase job } (.retired job) rfl
        have hgone := copies_erase (s := s) (R := R) job
        rw [not_hasRun hR] at hgone
        exact .inr (hgone.trans (le_of_eq hkept.symm))

theorem copies_reaper (s' : System) (hp : s'.pending = s.pending) (ha : s'.active = s.active)
    (hw : s'.workers = s.workers) :
    s'.copies R + (hasRun R s.reaper.carried).toNat =
      s.copies R + (hasRun R s'.reaper.carried).toNat := by
  unfold copies carriers
  rw [hp, ha, hw]
  omega

theorem copies_reaped {s' : System} (hstep : Reaped s s') :
    s'.Settled R ∨ s.copies R ≤ s'.copies R := by
  cases hstep with
  | @keep reaper before after unsuspected =>
      have hkept := copies_reaper (s := s) (R := R) { s with reaper } rfl rfl rfl
      rw [before, after] at hkept
      exact .inr (le_of_eq (Nat.add_right_cancel hkept).symm)
  | @suspect job items pc gone =>
      have hkept := copies_reaper (s := s) (R := R) { s with reaper := .stale job items } rfl rfl rfl
      rw [pc] at hkept
      exact .inr (le_of_eq (Nat.add_right_cancel hkept).symm)
  | @unlist job items pc =>
      have hkept := copies_reaper (s := { s with active := s.active.erase job }) (R := R)
        { s with active := s.active.erase job, reaper := .unlisted job items } rfl rfl rfl
      have hnone : hasRun R s.reaper.carried = false := by rw [pc]; rfl
      simp only [hnone] at hkept
      exact .inr ((copies_erase job).trans (le_of_eq hkept.symm))
  | @requeue job items pc now left =>
      have hkept := copies_reaper (s := s.retry job now) (R := R)
        { s.retry job now with reaper := .scanning items } rfl rfl rfl
      rw [copies_retry, show (s.retry job now).reaper = s.reaper from rfl, pc] at hkept
      exact .inr (le_of_eq (Nat.add_right_cancel hkept).symm)
  | @abandon job items pc status spent =>
      by_cases hR : job.runId = R
      · exact .inl (.inr (hR ▸ by simp [note]))
      · have hkept := copies_reaper (s := s) (R := R)
          { s with status, reaper := .scanning items } rfl rfl rfl
        rw [pc, show hasRun R (ReaperPc.unlisted job items).carried = false from not_hasRun hR]
          at hkept
        exact .inr (le_of_eq hkept.symm)

/-! ## Runs -/

/-- The invariant. -/
structure Kept (s : System) : Prop where
  copies : ∀ R, .pushed R ∈ s.log → s.Settled R ∨ 0 < s.copies R
  done : ∀ pc ∈ s.workers, ∀ job, pc = .done job → .completed job.runId ∈ s.log

theorem Kept.copies_of_le (h : s.Kept) {s' : System} (hlog : s.log <+: s'.log)
    (hpushed : ∀ R, .pushed R ∈ s'.log → .pushed R ∈ s.log)
    (hle : ∀ R, s'.Settled R ∨ s.copies R ≤ s'.copies R) (R : String) (hR : .pushed R ∈ s'.log) :
    s'.Settled R ∨ 0 < s'.copies R := by
  rcases h.copies R (hpushed R hR) with hset | hpos
  · exact .inl (hset.imp (hlog.subset ·) (hlog.subset ·))
  · exact (hle R).imp_right fun hle => lt_of_lt_of_le hpos hle

theorem handled_log {s' : System} (hstep : Handled s i pc s') : s.log <+: s'.log ∧
    ∀ R, .pushed R ∈ s'.log → .pushed R ∈ s.log := by
  cases hstep with
  | stay | take | keep | unlist | requeue | retire => exact ⟨List.prefix_rfl, fun _ h => h⟩
  | list | complete | abandon =>
      refine ⟨List.prefix_append .., fun R h => ?_⟩
      simpa [note, setWorker] using h

theorem reaped_log {s' : System} (hstep : Reaped s s') : s.log <+: s'.log ∧
    ∀ R, .pushed R ∈ s'.log → .pushed R ∈ s.log := by
  cases hstep with
  | keep | suspect | unlist | requeue => exact ⟨List.prefix_rfl, fun _ h => h⟩
  | abandon =>
      refine ⟨List.prefix_append .., fun R h => ?_⟩
      simpa [note] using h

theorem Kept.handled (h : s.Kept) {s' : System} (hi : s.workers[i]? = some pc)
    (hstep : Handled s i pc s') : s'.Kept := by
  obtain ⟨hlog, hpushed⟩ := handled_log hstep
  have hmem : pc ∈ s.workers := List.mem_of_getElem? hi
  refine ⟨h.copies_of_le hlog hpushed fun R => copies_handled hi hstep (h.done pc hmem), ?_⟩
  have hset : ∀ pc', (∀ job, pc' = .done job → .completed job.runId ∈ s'.log) →
      s'.workers = s.workers.set i pc' →
      ∀ x ∈ s'.workers, ∀ job, x = .done job → .completed job.runId ∈ s'.log := by
    intro pc' hnew hworkers x hx job hjob
    rw [hworkers] at hx
    rcases List.mem_or_eq_of_mem_set hx with hx | rfl
    · exact hlog.subset (h.done x hx job hjob)
    · exact hnew job hjob
  cases hstep with
  | stay none => exact h.done
  | keep heartbeat status carried listed unfinished fresh done =>
      exact hset _ (fun job hjob => absurd hjob (done job)) rfl
  | complete job status =>
      refine hset (.done job) (fun job' hjob => ?_) rfl
      cases hjob
      simp [note]
  | take next => exact hset (.popped _) nofun rfl
  | list job => exact hset (.processing job) nofun rfl
  | unlist job => exact hset (.unlisted job) nofun rfl
  | requeue job now left => exact hset (.requeued job) nofun rfl
  | abandon job status spent => exact hset .idle nofun rfl
  | retire job => exact hset (.retired job) nofun rfl

theorem Kept.reaped (h : s.Kept) {s' : System} (hstep : Reaped s s') : s'.Kept := by
  obtain ⟨hlog, hpushed⟩ := reaped_log hstep
  refine ⟨h.copies_of_le hlog hpushed fun R => copies_reaped hstep, ?_⟩
  have hworkers : s'.workers = s.workers := by cases hstep <;> rfl
  rw [hworkers]
  exact fun pc hpc job hjob => hlog.subset (h.done pc hpc job hjob)

theorem Kept.forge (h : s.Kept) (job : RunJob) (result : Forge) (now : Int) :
    (s.stepForge job now result).Kept := by
  cases result with
  | enqueued =>
      have hcopies : ∀ R, (s.stepForge job now .enqueued).copies R =
          s.copies R + (RunJob.isOf R job).toNat := by
        intro R
        have hcount := countP_append_singleton (p := RunJob.isOf R) s.pending
          { job with enqueuedAt := now }
        have hsame : RunJob.isOf R { job with enqueuedAt := now } = RunJob.isOf R job := rfl
        rw [hsame] at hcount
        unfold System.copies carriers stepForge note
        dsimp only
        omega
      refine ⟨fun R hR => ?_, fun pc hpc job' hjob => ?_⟩
      · rw [hcopies]
        by_cases hjob : job.runId = R
        · rw [show RunJob.isOf R job = true from decide_eq_true hjob]
          exact .inr (Nat.succ_pos _)
        · have hold : .pushed R ∈ s.log := by
            simpa [stepForge, note, Ne.symm hjob] using hR
          refine (h.copies R hold).imp (fun hset => ?_) fun hpos => Nat.lt_add_right _ hpos
          exact hset.imp (List.mem_append_left _) (List.mem_append_left _)
      · exact List.mem_append_left _ (h.done pc hpc job' hjob)
  | failed => exact ⟨h.copies, h.done⟩
  | directError => exact ⟨h.copies, h.done⟩
  | directComplete => exact ⟨h.copies, h.done⟩

theorem Kept.step (h : s.Kept) {m : Move} (hsafe : s.safeCrash m = true) : (s.step m).Kept := by
  cases m with
  | submit runId userId soPath roundId =>
      refine ⟨fun R hR => ?_, fun pc hpc job hjob => List.mem_append_left _ (h.done pc hpc job hjob)⟩
      have hold : .pushed R ∈ s.log := by simpa [System.step, note] using hR
      refine (h.copies R hold).imp_left fun hset => ?_
      exact hset.imp (List.mem_append_left _) (List.mem_append_left _)
  | forge job result now =>
      unfold System.step
      dsimp only
      split
      · exact h.forge job result now
      · exact h
  | worker i now check exit =>
      unfold System.step
      dsimp only
      split
      · next pc hpc => exact h.handled hpc (s.stepWorker_handled i now check exit pc)
      · exact h
  | reaper now => exact h.reaped (s.stepReaper_reaped now)
  | expire runId => exact ⟨h.copies, h.done⟩
  | crash i =>
      cases hpc : s.workers[i]? with
      | none =>
          have hsame : s.step (.crash i) = s :=
            congrArg (fun workers => { s with workers })
              (List.set_eq_of_length_le (List.getElem?_eq_none_iff.mp hpc))
          rw [hsame]
          exact h
      | some pc =>
          have hnone : pc.carried = none := by simpa [safeCrash, hpc] using hsafe
          have hkept : ∀ R, (s.step (.crash i)).copies R = s.copies R := by
            intro R
            have hset := copies_setWorker (R := R) hpc .idle
            rw [hnone] at hset
            exact Nat.add_right_cancel hset
          refine ⟨fun R hR => ?_, fun x hx job hjob => ?_⟩
          · rw [hkept]
            exact h.copies R hR
          · rcases List.mem_or_eq_of_mem_set hx with hx | rfl
            · exact h.done x hx job hjob
            · cases hjob
  | crashReaper =>
      have hnone : s.reaper.carried = none := by simpa [safeCrash] using hsafe
      refine ⟨fun R hR => ?_, h.done⟩
      have hset := copies_reaper (s := s) (R := R) { s with reaper := .idle } rfl rfl rfl
      rw [hnone] at hset
      rw [show (s.step .crashReaper).copies R = s.copies R from Nat.add_right_cancel hset]
      exact h.copies R hR

theorem kept_init (n : Nat) : (init n).Kept := by
  refine ⟨fun R hR => absurd hR List.not_mem_nil, fun pc hpc job hjob => ?_⟩
  rw [List.eq_of_mem_replicate hpc] at hjob
  cases hjob

end System

/-- No job is lost in a run of any number of workers and the reaper in which no
process crashes with a job in its hands that is on neither list. -/
theorem jobs_not_lost {n : Nat} {moves : List Move}
    (hsafe : Along System.step (fun s m => s.safeCrash m = true) (System.init n) moves) :
    (System.run n moves).NoneLost := by
  have hkept := foldl_inv System.Kept (fun s m h hm => h.step hm) moves _ (System.kept_init n) hsafe
  intro R hR hopen
  exact System.copies_pos.mp ((hkept.copies R hR).resolve_left hopen)

/-- A submission that has been built and enqueued. -/
def enqueueOne (runId : String) : List Move :=
  [.submit runId "alice" "/tmp/a.so" "round1",
    .forge ⟨runId, "alice", "/tmp/a.so", "round1", "", 0, 0⟩ .enqueued 1000]

/-- A worker crashes while it processes the job: the job is on the active list. -/
theorem jobs_not_lost_crash_while_processing :
    let moves := enqueueOne "run_1" ++ [.worker 0 0 .started .complete, .worker 0 0 .started .complete,
      .worker 0 0 .started .complete, .crash 0]
    Along System.step (fun s m => s.safeCrash m = true) (System.init 1) moves ∧
      (System.run 1 moves).NoneLost := by
  intro moves
  have hsafe : Along System.step (fun s m => s.safeCrash m = true) (System.init 1) moves := by
    decide +kernel
  exact ⟨hsafe, jobs_not_lost hsafe⟩

/-- A crash after `BRPOP`: the worker pops the job and dies before it is on the
active list. It is on no list and in nobody's hands. -/
theorem job_lost_after_pop :
    ¬ (System.run 1 (enqueueOne "run_1" ++ [.worker 0 0 .started .complete, .crash 0])).NoneLost := by
  intro h
  have hstate : (System.run 1 (enqueueOne "run_1" ++
      [.worker 0 0 .started .complete, .crash 0])).copies "run_1" = 0 := by decide +kernel
  refine absurd (System.copies_pos.mpr (h "run_1" (by decide +kernel) ?_)) (by rw [hstate]; decide)
  rintro (hset | hset)
  · exact absurd hset (by decide +kernel)
  · exact absurd hset (by decide +kernel)

end VidhiArena.Worker
