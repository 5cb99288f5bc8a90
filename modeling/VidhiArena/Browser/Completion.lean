import VidhiArena.Browser.VidhiEngine

/-!
# One completion for each run

The guards of the engine do not ask whether a run has been completed, nor whether a message is
about the run that is under way. While every final message that they let pass is about a run
that waits for it, each run completes once.
-/

namespace VidhiArena.Browser

open VidhiArena.Foundation
open VidhiArena.Backend (RunStatus)

/-- A run with this id for which the subscribers have been called. -/
def Start.isDone (runId : String) : Start → Bool
  | .running _ r _ completed => r == runId && completed
  | _ => false

theorem Start.isRun_of_isDone {runId : String} {st : Start} (h : st.isDone runId = true) :
    st.isRun runId = true := by
  cases st with
  | running => exact (Bool.and_eq_true_iff.mp h).1
  | probing | onWorker | finished | submitting | failed => exact nomatch h

theorem Start.isDone_of_not_isOpen {runId : String} {st : Start} (hrun : st.isRun runId = true)
    (hopen : st.isOpen runId ≠ true) : st.isDone runId = true := by
  cases st with
  | running kind r polling completed =>
      cases completed with
      | true => exact (Bool.and_true _).trans hrun
      | false => exact absurd ((Bool.and_true _).trans hrun) hopen
  | probing | onWorker | finished | submitting | failed => exact nomatch hrun

theorem Start.isDone_complete {runId : String} {st : Start} (h : st.isOpen runId = true)
    (runId' : String) : st.isDone runId' = false ∧ st.complete.isDone runId' = (runId == runId') := by
  cases st with
  | running kind r polling completed =>
      obtain ⟨hr, hopen⟩ := Bool.and_eq_true_iff.mp h
      obtain rfl := eq_of_beq hr
      obtain rfl : completed = false := by simpa using hopen
      exact ⟨Bool.and_false _, Bool.and_true _⟩
  | probing | onWorker | finished | submitting | failed => exact nomatch h

namespace VidhiEngine

variable {s : VidhiEngine}

/-- The calls of the subscribers match the starts that are marked. -/
structure Matched (s : VidhiEngine) : Prop where
  done : ∀ runId, s.log.countP (Completion.isFor runId) = s.starts.countP (Start.isDone runId)
  failed : ∀ k, s.log.count (.failed k) ≤ if s.starts[k]? = some .failed then 1 else 0
  own : ∀ runId during, .terminal runId during ∈ s.log → during.all (Start.isRun runId) = true

theorem Matched.completesOnce (h : s.Matched) : s.CompletesOnce where
  once runId := by
    rw [h.done runId]
    exact List.countP_mono_left fun _ _ => Start.isRun_of_isDone
  failed k := by
    refine (h.failed k).trans ?_
    split
    · exact le_rfl
    · exact Nat.zero_le 1
  own := h.own

/-! ## Turns without a message about a run -/

section Starts

variable {k : Nat} {st st' : Start}

theorem Matched.failed_eq_zero (h : s.Matched) (hst : s.starts[k]? = some st)
    (hne : st ≠ .failed) : s.log.count (.failed k) = 0 := by
  have hk := h.failed k
  rw [if_neg fun heq => hne (Option.some.inj (hst.symm.trans heq))] at hk
  exact Nat.le_zero.mp hk

theorem Matched.setStart (h : s.Matched) (st' : Start) (hst : s.starts[k]? = some st) (hne : st ≠ .failed)
    (hdone : ∀ runId, st'.isDone runId = st.isDone runId) : (s.setStart k st').Matched where
  done runId := by
    have hset := countP_set (p := Start.isDone runId) hst st'
    rw [hdone runId] at hset
    exact (h.done runId).trans (Nat.add_right_cancel hset).symm
  failed j := by
    by_cases hjk : j = k
    · subst hjk
      exact (h.failed_eq_zero hst hne).trans_le (Nat.zero_le _)
    · change s.log.count (Completion.failed j) ≤
        if (s.starts.set k st')[j]? = some .failed then 1 else 0
      rw [List.getElem?_set_ne (Ne.symm hjk)]
      exact h.failed j
  own := h.own

theorem Matched.failBeforeRun (h : s.Matched) (hst : s.starts[k]? = some st)
    (hne : st ≠ .failed) (hdone : ∀ runId, st.isDone runId = false) :
    (s.failBeforeRun k).Matched where
  done runId := by
    change (s.log ++ [Completion.failed k]).countP (Completion.isFor runId) = _
    rw [countP_append_singleton]
    exact (h.setStart .failed hst hne fun r => (hdone r).symm).done runId
  failed j := by
    change (s.log ++ [Completion.failed k]).count (Completion.failed j) ≤
      if (s.starts.set k .failed)[j]? = some .failed then 1 else 0
    by_cases hjk : j = k
    · subst hjk
      have hlt := (List.getElem?_eq_some_iff.mp hst).1
      rw [List.getElem?_set_self hlt, if_pos rfl, List.count_append, h.failed_eq_zero hst hne,
        List.count_singleton_self]
    · have hother : Completion.failed k ≠ Completion.failed j := fun heq =>
        hjk (Completion.failed.inj heq).symm
      rw [List.getElem?_set_ne (Ne.symm hjk), List.count_append,
        List.count_singleton, if_neg fun heq => hother (eq_of_beq heq)]
      exact h.failed j
  own runId during hin := by
    rcases List.mem_append.mp hin with hin | hin
    · exact h.own runId during hin
    · exact nomatch List.mem_singleton.mp hin

end Starts

theorem Matched.worker (h : s.Matched) (k : Nat) :
    { s with log := s.log ++ [.worker k] : VidhiEngine }.Matched where
  done runId := by
    change (s.log ++ [Completion.worker k]).countP (Completion.isFor runId) = _
    rw [countP_append_singleton]
    exact h.done runId
  failed j := by
    change (s.log ++ [Completion.worker k]).count (Completion.failed j) ≤ _
    rw [List.count_append]
    exact h.failed j
  own runId during hin := by
    rcases List.mem_append.mp hin with hin | hin
    · exact h.own runId during hin
    · exact nomatch List.mem_singleton.mp hin

theorem Matched.begin (h : s.Matched) : s.begin.Matched where
  done runId := by
    change _ = (s.starts ++ [Start.probing]).countP (Start.isDone runId)
    rw [countP_append_singleton]
    exact h.done runId
  failed j := by
    refine (h.failed j).trans ?_
    split
    · next heq =>
        have hlt := (List.getElem?_eq_some_iff.mp heq).1
        change 1 ≤ if (s.starts ++ [Start.probing])[j]? = some .failed then 1 else 0
        rw [List.getElem?_append_left hlt, if_pos heq]
    · exact Nat.zero_le _
  own := h.own

theorem begin_starts : s.begin.starts[s.starts.length]? = some .probing :=
  List.getElem?_concat_length

theorem Matched.startRun (h : s.Matched) {k : Nat} (hst : s.starts[k]? = some .probing)
    (kind : Kind) (valid : Bool) : (s.startRun k kind valid).Matched := by
  rw [VidhiEngine.startRun]
  split
  · obtain ⟨hdone, hfailed, hown⟩ :=
      h.setStart (.submitting kind) hst (by decide) fun _ => rfl
    exact ⟨hdone, hfailed, hown⟩
  · exact h.failBeforeRun hst (by decide) fun _ => rfl

theorem Matched.endPoll (h : s.Matched) (k : Nat) : (s.endPoll k).Matched := by
  rw [VidhiEngine.endPoll]
  split
  · next kind runId polling completed hst =>
      exact h.setStart _ hst Start.noConfusion fun _ => rfl
  · exact h

theorem CompletesOnce.of_endPoll {k : Nat} (h : (s.endPoll k).CompletesOnce) :
    s.CompletesOnce := by
  rw [VidhiEngine.endPoll] at h
  split at h
  · next kind runId polling completed hst =>
      refine ⟨fun r => ?_, h.failed, h.own⟩
      have hset := countP_set (p := Start.isRun r) hst (.running kind runId false completed)
      exact (h.once r).trans_eq (Nat.add_right_cancel hset)
  · exact h

/-- The flag that the polls share counts for nothing in what has been called. -/
theorem Matched.stopped (h : s.Matched) : { s with pollStopped := true : VidhiEngine }.Matched :=
  ⟨h.done, h.failed, h.own⟩

theorem CompletesOnce.of_stopped
    (h : { s with pollStopped := true : VidhiEngine }.CompletesOnce) : s.CompletesOnce :=
  ⟨h.once, h.failed, h.own⟩

/-! ## Messages about a run -/

theorem Matched.report (h : s.Matched) {runId : String} (hawaits : s.awaits runId = true) :
    (s.report runId).Matched := by
  obtain ⟨hopen, hown⟩ := Bool.and_eq_true_iff.mp hawaits
  obtain ⟨k, hk⟩ := Option.isSome_iff_exists.mp
    ((List.findIdx?_isSome (p := Start.isOpen runId)).trans hopen)
  obtain ⟨hlt, hst, -⟩ := List.findIdx?_eq_some_iff_getElem.mp hk
  have hget : s.starts[k]? = some s.starts[k] := List.getElem?_eq_getElem hlt
  have hstarts : (s.report runId).starts = s.starts.set k s.starts[k].complete := by
    simp only [VidhiEngine.report, hk]
    rw [List.modify_eq_set_getElem?, hget]
    rfl
  constructor
  · intro r
    obtain ⟨hbefore, hafter⟩ := Start.isDone_complete hst r
    have hset := countP_set (p := Start.isDone r) hget s.starts[k].complete
    rw [hbefore, hafter] at hset
    change (s.log ++ [Completion.terminal runId s.during]).countP (Completion.isFor r) = _
    rw [countP_append_singleton, h.done r, hstarts]
    exact hset.symm
  · intro j
    change (s.log ++ [Completion.terminal runId s.during]).count (Completion.failed j) ≤ _
    rw [List.count_append, hstarts]
    refine (h.failed j).trans ?_
    split
    · next heq =>
        -- a start that has failed has no run
        have hjk : k ≠ j := by
          rintro rfl
          rw [Option.some.inj (hget.symm.trans heq)] at hst
          exact nomatch hst
        rw [List.getElem?_set_ne hjk, if_pos heq]
    · exact Nat.zero_le _
  · intro r during hin
    rcases List.mem_append.mp hin with hin | hin
    · exact h.own r during hin
    · obtain ⟨rfl, rfl⟩ := Completion.terminal.inj (List.mem_singleton.mp hin)
      exact hown

/-- A run that is not awaited completes once too often, or while another start is under way. -/
theorem Matched.awaits_of_report (h : s.Matched) {runId : String}
    (hafter : (s.report runId).CompletesOnce) : s.awaits runId = true := by
  have hlog : (s.report runId).log = s.log ++ [.terminal runId s.during] := rfl
  have hown : s.during.all (Start.isRun runId) = true := by
    refine hafter.own runId s.during ?_
    rw [hlog]
    exact List.mem_append_right _ (List.mem_singleton_self _)
  rw [VidhiEngine.awaits, hown, Bool.and_true]
  by_contra hopen
  have hdone : s.starts.countP (Start.isDone runId) = s.starts.countP (Start.isRun runId) := by
    refine List.countP_congr fun st hst => ⟨Start.isRun_of_isDone, fun hrun => ?_⟩
    exact Start.isDone_of_not_isOpen hrun fun h => hopen (List.any_eq_true.mpr ⟨st, hst, h⟩)
  have hstarts : (s.report runId).starts = s.starts := by
    simp only [VidhiEngine.report]
    rw [List.findIdx?_eq_none_iff.mpr fun st hst => ?_]
    exact Bool.eq_false_iff.mpr fun h => hopen (List.any_eq_true.mpr ⟨st, hst, h⟩)
  have honce := hafter.once runId
  rw [hlog, hstarts, countP_append_singleton, h.done runId, hdone] at honce
  change _ + (runId == runId).toNat ≤ _ at honce
  rw [beq_self_eq_true] at honce
  exact Nat.not_succ_le_self _ honce

/-! ## Turns -/

theorem onProgress_cases (s : VidhiEngine) (kind : Kind) (runId : String) (status : RunStatus) :
    (s.tells kind status = false ∧ s.onProgress kind runId status = s) ∨
    (s.tells kind status = true ∧
      ((s.report runId).Matched → (s.onProgress kind runId status).Matched) ∧
      ((s.onProgress kind runId status).CompletesOnce → (s.report runId).CompletesOnce)) := by
  cases kind with
  | cloud =>
      simp only [onProgress, tells]
      split
      · next hpass => exact Or.inr ⟨hpass, Matched.stopped, CompletesOnce.of_stopped⟩
      · next hpass => exact Or.inl ⟨Bool.eq_false_iff.mpr hpass, rfl⟩
  | backend =>
      simp only [onProgress, tells]
      split
      · next hpass => exact Or.inr ⟨hpass, id, id⟩
      · next hpass => exact Or.inl ⟨Bool.eq_false_iff.mpr hpass, rfl⟩

/-- What one turn can do: it calls the subscribers about no run, or it reports one and is
in turn exactly if that run is awaited. -/
theorem Matched.step_cases (h : s.Matched) (m : EngineMove) :
    (s.inTurn m = true ∧ (s.step m).Matched) ∨
    ∃ runId, s.inTurn m = s.awaits runId ∧ ((s.report runId).Matched → (s.step m).Matched) ∧
      ((s.step m).CompletesOnce → (s.report runId).CompletesOnce) := by
  cases m with
  | startLocal =>
      exact Or.inl ⟨rfl, h.begin.setStart _ begin_starts (by decide) fun _ => rfl⟩
  | startCloud valid => exact Or.inl ⟨rfl, h.begin.startRun begin_starts .cloud valid⟩
  | startAuto => exact Or.inl ⟨rfl, h.begin⟩
  | probed k up valid =>
      refine Or.inl ⟨rfl, ?_⟩
      simp only [VidhiEngine.step]
      split
      · next hst =>
          split
          · exact h.startRun hst .backend valid
          · exact h.setStart _ hst (by decide) fun _ => rfl
      · exact h
  | workerEnded k complete =>
      refine Or.inl ⟨rfl, ?_⟩
      simp only [VidhiEngine.step]
      split
      · next hst =>
          have hset := h.setStart .finished hst (by decide) fun _ => rfl
          split
          · exact hset.worker k
          · exact hset
      · exact h
  | submitted k runId =>
      refine Or.inl ⟨rfl, ?_⟩
      simp only [VidhiEngine.step]
      split
      · next kind hst =>
          obtain ⟨hdone, hfailed, hown⟩ := h.setStart (.running kind runId true false) hst
            Start.noConfusion fun r => Bool.and_false (runId == r)
          exact ⟨hdone, hfailed, hown⟩
      · exact h
  | rejected k =>
      refine Or.inl ⟨rfl, ?_⟩
      simp only [VidhiEngine.step]
      split
      · next hst => exact h.failBeforeRun hst Start.noConfusion fun _ => rfl
      · exact h
  | update runId status =>
      simp only [VidhiEngine.step, handleWSMessage, inTurn]
      split
      · next hpass =>
          rw [hpass]
          exact Or.inr ⟨runId, rfl, Matched.stopped, CompletesOnce.of_stopped⟩
      · next hpass =>
          rw [Bool.eq_false_iff.mpr hpass]
          exact Or.inl ⟨rfl, h⟩
  | poll k status =>
      simp only [VidhiEngine.step]
      split
      · next kind runId completed hst =>
          simp only [inTurn, hst]
          rcases s.onProgress_cases kind runId status with ⟨hquiet, hsame⟩ | ⟨htells, hto, hback⟩
          · rw [hquiet, hsame]
            refine Or.inl ⟨rfl, ?_⟩
            split
            · exact h.endPoll k
            · exact h
          · rw [htells]
            refine Or.inr ⟨runId, rfl, ?_⟩
            split
            · exact ⟨fun hr => (hto hr).endPoll k, fun hr => hback hr.of_endPoll⟩
            · exact ⟨hto, hback⟩
      · next hst =>
          refine Or.inl ⟨?_, h⟩
          rw [inTurn]
          split
          · next heq => exact absurd heq (hst _ _ _)
          · rfl

theorem Matched.init : init.Matched where
  done _ := rfl
  failed _ := Nat.zero_le _
  own _ _ hin := nomatch hin

/-- In every run of the engine, each run completes at most once and by its own message, if
and only if every final message that gets past the guards is about a run that is awaited. -/
theorem completes_once_iff (moves : List EngineMove) :
    (∀ pre, pre <+: moves → (run pre).CompletesOnce) ↔
      Along step (fun s m => s.inTurn m = true) init moves := by
  have hobs : ∀ s, Matched s → s.CompletesOnce := fun _ => Matched.completesOnce
  refine foldl_obs_iff hobs ?_ ?_ moves Matched.init
  · intro s m h hturn
    rcases h.step_cases m with ⟨-, hmatched⟩ | ⟨runId, heq, hto, -⟩
    · exact hmatched
    · exact hto (h.report (heq ▸ hturn))
  · intro s m h hafter
    rcases h.step_cases m with ⟨hturn, -⟩ | ⟨runId, heq, -, hback⟩
    · exact hturn
    · exact heq.trans (h.awaits_of_report (hback hafter))

/-- The result of the first run arrives while the second one is being submitted. -/
theorem earlier_run_completes_later_start :
    ¬ ∀ moves, (run moves).CompletesOnce := by
  intro h
  have hown := (h [.startCloud true, .submitted 0 "run_ada_1", .startCloud true,
    .update "run_ada_1" .complete]).own "run_ada_1" (some (.submitting .cloud)) (by decide)
  exact absurd hown (by decide)

end VidhiEngine

end VidhiArena.Browser
