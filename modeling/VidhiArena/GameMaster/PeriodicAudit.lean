import VidhiArena.GameMaster.Accountants
import VidhiArena.GameMaster.Telemetry

/-!
# The periodic audit

The loop records tick metrics and nothing else, so the shadow that the watchdog
feeds never sees an add, a fill or a cancel (`Unfed`). At every thousandth tick
it compares the account of a contestant that has not traded with the tracker's.
The audit is clean exactly when the tracker happens to agree with that.
-/

namespace VidhiArena.GameMaster

open VidhiArena.Foundation

/-! ## The verdict -/

/-- Neither mismatch is on record, and nothing has been taken off the score. -/
def ShadowLOB.Agrees (S : ShadowLOB) : Prop :=
  (∀ v ∈ S.violations, v.type ≠ .positionIntegrityMismatch ∧ v.type ≠ .cashIntegrityMismatch) ∧
    S.correctnessScore = 1

/-- What the tracker must report to look like a contestant that has not traded:
no position but for one share, the starting cash but for one cent. -/
def PnLTracker.Flat (t : PnLTracker) : Prop :=
  ¬ 1 < abs64 (0 - t.position) ∧
    (startingCash.toInt - t.cashFpSafe.toInt).natAbs ≤ oneCent.toInt.natAbs

instance (t : PnLTracker) : Decidable t.Flat := inferInstanceAs (Decidable (_ ∧ _))

/-- The validation that is about to happen, if one is, finds the tracker flat. -/
def Arena.AuditsFlat (a : Arena) : Action → Prop
  | .gm .. => a.phase = .validate → a.tick % 1000 = 999 → a.pnl.Flat
  | .watchdog => True

/-! ## A shadow that is not fed -/

/-- The account of the shadow is the one it started with; what it has on record
are mismatches of the account. -/
structure ShadowLOB.Unfed (S : ShadowLOB) : Prop where
  position : S.position = 0
  cash : S.cashFp = startingCash.toInt
  types : ∀ v ∈ S.violations,
    v.type = .positionIntegrityMismatch ∨ v.type = .cashIntegrityMismatch
  penalties : S.violations = [] → S.penalties = ⟨0, 0, 0, 0, 0⟩

namespace ShadowLOB

variable {S : ShadowLOB}

theorem Unfed.init : ShadowLOB.init.Unfed :=
  ⟨rfl, rfl, fun _ hv => absurd hv List.not_mem_nil, fun _ => rfl⟩

theorem Unfed.agrees_iff (h : S.Unfed) : S.Agrees ↔ S.violations = [] := by
  constructor
  · rintro ⟨hnone, -⟩
    refine List.eq_nil_iff_forall_not_mem.mpr fun v hv => ?_
    rcases h.types v hv with ht | ht
    · exact (hnone v hv).1 ht
    · exact (hnone v hv).2 ht
  · intro hnil
    refine ⟨fun v hv => ?_, ?_⟩
    · rw [hnil] at hv
      exact absurd hv List.not_mem_nil
    · rw [correctnessScore, h.penalties hnil]
      decide +kernel

theorem report_record (S : ShadowLOB) (v : Violation) :
    (S.report v).violations ≠ [] ∧
      ∀ w ∈ (S.report v).violations, w ∈ S.violations ∨ w = v := by
  show (S.addViolation v).violations ≠ [] ∧ ∀ w ∈ (S.addViolation v).violations, _
  unfold addViolation
  split
  · refine ⟨by simp, fun w hw => ?_⟩
    simpa using hw
  · rename_i hfull
    refine ⟨fun hnil => hfull ?_, fun w hw => Or.inl hw⟩
    rw [hnil]
    decide

theorem Unfed.report (h : S.Unfed) {v : Violation}
    (hv : v.type = .positionIntegrityMismatch ∨ v.type = .cashIntegrityMismatch) :
    (S.report v).Unfed := by
  obtain ⟨hne, hmem⟩ := report_record S v
  have haccount := account_report S v
  refine ⟨?_, ?_, fun w hw => ?_, fun hnil => absurd hnil hne⟩
  · exact (congrArg Prod.fst haccount).trans h.position
  · exact (congrArg Prod.snd haccount).trans h.cash
  · rcases hmem w hw with hw | rfl
    · exact h.types w hw
    · exact hv

theorem cash_test (c : Int64) :
    oneCent.toInt < abs128 (wrap128 (startingCash.toInt - c.toInt)) ↔
      ¬ (startingCash.toInt - c.toInt).natAbs ≤ oneCent.toInt.natAbs := by
  have hlo := c.le_toInt
  have hhi := c.toInt_lt
  have hstart : startingCash.toInt = 100000000000 := rfl
  have hcent : oneCent.toInt = 10000 := rfl
  have hwrap : ∀ x : Int, -2 ^ 65 ≤ x → x ≤ 2 ^ 65 → wrap128 x = x :=
    fun x h₁ h₂ => Int.bmod_eq_of_le (by omega) (by omega)
  rw [hwrap _ (by omega) (by omega), abs128]
  split
  · rw [hwrap _ (by omega) (by omega)]
    omega
  · omega

/-- A validation records nothing exactly when the tracker is flat. -/
theorem Unfed.validate (h : S.Unfed) (t : PnLTracker) (tickId : Int64) :
    (S.validateContestantState t.position t.cashFpSafe tickId).Unfed ∧
      ((S.validateContestantState t.position t.cashFpSafe tickId).violations = [] ↔
        S.violations = [] ∧ t.Flat) := by
  unfold validateContestantState PnLTracker.Flat
  simp only [h.position]
  by_cases hpos : 1 < abs64 (0 - t.position)
  · -- the position is on record whatever the cash
    have hbefore := h.report (v := ⟨.positionIntegrityMismatch, tickId, 0, .position 0 t.position⟩)
      (Or.inl rfl)
    have hne := (report_record S ⟨.positionIntegrityMismatch, tickId, 0,
      .position 0 t.position⟩).1
    simp only [if_pos hpos, hbefore.cash]
    split
    · refine ⟨hbefore.report (Or.inr rfl), ?_⟩
      have hne' := (report_record (S.report ⟨.positionIntegrityMismatch, tickId, 0,
        .position 0 t.position⟩) ⟨.cashIntegrityMismatch, tickId, 0,
        .cash (Int64.ofInt startingCash.toInt) t.cashFpSafe⟩).1
      exact ⟨fun hnil => absurd hnil hne', fun hflat => absurd hpos hflat.2.1⟩
    · exact ⟨hbefore, fun hnil => absurd hnil hne, fun hflat => absurd hpos hflat.2.1⟩
  · simp only [if_neg hpos, h.cash]
    split
    · rename_i hcash
      refine ⟨h.report (Or.inr rfl), ?_⟩
      exact ⟨fun hnil => absurd hnil (report_record _ _).1,
        fun hflat => absurd hflat.2.2 ((cash_test _).mp hcash)⟩
    · rename_i hcash
      refine ⟨h, fun hnil => ⟨hnil, hpos, ?_⟩, And.left⟩
      exact not_not.mp fun hno => hcash ((cash_test _).mpr hno)

end ShadowLOB

/-! ## Both threads -/

def TelemetryEvent.IsMetrics : TelemetryEvent → Prop
  | .tickMetrics .. => True
  | _ => False

theorem TelemetryWatchdog.shadow_handle (wd : TelemetryWatchdog) {ev : TelemetryEvent}
    (h : ev.IsMetrics) : (wd.handle ev).shadow = wd.shadow := by
  have hrecord : ∀ ns, (wd.recordLatency ns).shadow = wd.shadow := by
    intro ns
    unfold recordLatency
    split <;> rfl
  cases ev with
  | tickMetrics tickId tickNs pnlFp position =>
      simp only [handle]
      split
      · unfold swapHdr
        split
        · exact hrecord tickNs
        · exact hrecord tickNs
      · exact hrecord tickNs
  | limitAdd => cases h
  | fill => cases h
  | cancel => cases h

namespace Arena

variable {cfg : SimConfig} {maxTicks : Int64} {a a' : Arena} {act : Action} {h : BookHistory}

/-- The ring carries tick metrics only, and the shadow is not fed. -/
structure Inv (a : Arena) : Prop where
  metrics : ∀ i, (a.ring.events i).IsMetrics
  unfed : a.watchdog.shadow.Unfed

theorem Inv.start (cfg : SimConfig) (lob : PersistentLOB) : (Arena.start cfg lob).Inv :=
  ⟨fun _ => trivial, ShadowLOB.Unfed.init⟩

/-- What an action makes of the record. -/
def Kept (a a' : Arena) (flat : Prop) : Prop :=
  a'.Inv ∧ (a'.watchdog.shadow.violations = [] ↔ a.watchdog.shadow.violations = [] ∧ flat)

theorem kept_of_shadow {flat : Prop} (hinv : a.Inv)
    (hmetrics : ∀ i, (a'.ring.events i).IsMetrics)
    (hshadow : a'.watchdog.shadow = a.watchdog.shadow) (hflat : flat) : Kept a a' flat :=
  ⟨⟨hmetrics, hshadow ▸ hinv.unfed⟩, by rw [hshadow, and_iff_left hflat]⟩

theorem watchdogStep_kept (hinv : a.Inv) :
    Kept a { a with ring := (a.watchdog.step a.ring).1, watchdog := (a.watchdog.step a.ring).2 }
      True := by
  have hboth : (a.watchdog.step a.ring).1.events = a.ring.events ∧
      (a.watchdog.step a.ring).2.shadow = a.watchdog.shadow := by
    unfold TelemetryWatchdog.step
    split
    · split <;> exact ⟨rfl, rfl⟩
    · exact ⟨rfl, rfl⟩
    · split
      · exact ⟨rfl, a.watchdog.shadow_handle (hinv.metrics _)⟩
      · exact ⟨rfl, rfl⟩
    · exact ⟨rfl, rfl⟩
    · exact ⟨rfl, rfl⟩
  refine kept_of_shadow hinv (fun i => ?_) hboth.2 trivial
  show ((a.watchdog.step a.ring).1.events i).IsMetrics
  rw [hboth.1]
  exact hinv.metrics i

theorem gmStep_kept (hinv : a.Inv) {input : TickInput} {tickNs : Int64}
    (hstep : a.gmStep cfg maxTicks input tickNs = .ok (h, a')) :
    Kept a a' (a.AuditsFlat (.gm input tickNs)) := by
  have hother : a.phase ≠ .validate → a.AuditsFlat (.gm input tickNs) :=
    fun hne heq => absurd heq hne
  unfold gmStep at hstep
  cases hphase : a.phase with
  | tick =>
      have hflat := hother (by rw [hphase]; decide)
      simp only [hphase] at hstep
      split at hstep
      · obtain ⟨⟨h', sim⟩, -, hstep⟩ := bind_eq_ok.mp hstep
        cases hstep
        exact kept_of_shadow hinv hinv.metrics rfl hflat
      · cases hstep
        exact kept_of_shadow hinv hinv.metrics rfl hflat
  | validate =>
      simp only [hphase] at hstep
      cases hstep
      by_cases hdue : a.tick % 1000 = 999
      · obtain ⟨hunfed, hiff⟩ := hinv.unfed.validate a.pnl a.tick
        refine ⟨⟨hinv.metrics, ?_⟩, ?_⟩
        · simpa only [if_pos hdue] using hunfed
        · simp only [if_pos hdue, hiff]
          exact and_congr_right fun _ => ⟨fun hf _ _ => hf, fun hf => hf hphase hdue⟩
      · refine kept_of_shadow hinv hinv.metrics ?_ fun _ hd => absurd hd hdue
        simp only [if_neg hdue]
  | write =>
      have hflat := hother (by rw [hphase]; decide)
      simp only [hphase] at hstep
      split at hstep
      · cases hstep
        refine kept_of_shadow hinv (fun i => ?_) rfl hflat
        simp only [TelemetryRing.write, Function.update_apply]
        split
        · trivial
        · exact hinv.metrics i
      · cases hstep
        exact kept_of_shadow hinv hinv.metrics rfl hflat
  | publish =>
      have hflat := hother (by rw [hphase]; decide)
      simp only [hphase] at hstep
      cases hstep
      exact kept_of_shadow hinv hinv.metrics rfl hflat
  | stopped =>
      have hflat := hother (by rw [hphase]; decide)
      simp only [hphase] at hstep
      cases hstep
      exact kept_of_shadow hinv hinv.metrics rfl hflat

/-- One action keeps the record empty exactly when its audit, if it is one,
finds the tracker flat. -/
theorem step_kept (hinv : a.Inv) (hstep : a.step cfg maxTicks act = .ok (h, a')) :
    Kept a a' (a.AuditsFlat act) := by
  cases act with
  | gm input tickNs => exact gmStep_kept hinv hstep
  | watchdog =>
      cases hstep
      exact watchdogStep_kept hinv

theorem run_kept : ∀ {acts : List Action} {a a' : Arena} {hs : List BookHistory}, a.Inv →
    runFrom (step cfg maxTicks) a acts = .ok (hs, a') →
    Kept a a' (AdmittedFrom (step cfg maxTicks) AuditsFlat a acts)
  | [], _, _, _, hinv, hrun => by
      cases hrun
      exact kept_of_shadow hinv hinv.metrics rfl trivial
  | act :: acts, a, a', hs, hinv, hrun => by
      obtain ⟨⟨h, a₁⟩, hstep, hrun⟩ := bind_eq_ok.mp hrun
      obtain ⟨⟨hs₁, a₂⟩, hrest, hrun⟩ := bind_eq_ok.mp hrun
      cases hrun
      obtain ⟨hinv₁, hiff₁⟩ := step_kept hinv hstep
      obtain ⟨hinv', hiff'⟩ := run_kept hinv₁ hrest
      refine ⟨hinv', ?_⟩
      simp only [AdmittedFrom, hstep]
      rw [hiff', hiff₁, and_assoc]

end Arena

/-! ## Ticks in which nothing happens -/

/-- Every bot at `agg = 0`. -/
def quietConfig : SimConfig :=
  let off : Aggression := ⟨false, fun _ => 0⟩
  ⟨⟨off, off, 0, off, off, off⟩, 1000, fun _ _ => 0⟩

/-- The Game Master moves, and the contestant times out. -/
def quiet : Action := .gm ⟨.gbm 0 0 false, .timeout⟩ 0

theorem quiet_step (s : SimState) :
    ∃ gm, SimState.step quietConfig s ⟨.gbm 0 0 false, .timeout⟩ = .ok ([], s.1, gm) ∧
      gm.pnl = s.2.pnl.resetTickState :=
  ⟨_, rfl, rfl⟩

namespace Arena

theorem quiet_defined (a : Arena) : ∃ h a', a.step quietConfig 1000000 quiet = .ok (h, a') ∧
    a'.pnl.position = a.pnl.position ∧ a'.pnl.cashFp = a.pnl.cashFp := by
  obtain ⟨gm, hsim, hpnl⟩ := quiet_step a.sim
  simp only [step, quiet, gmStep]
  cases a.phase with
  | tick =>
      simp only [hsim, ok_bind]
      split
      · refine ⟨_, _, rfl, ?_, ?_⟩
        · show gm.pnl.position = _
          rw [hpnl]
          rfl
        · show gm.pnl.cashFp = _
          rw [hpnl]
          rfl
      · exact ⟨_, _, rfl, rfl, rfl⟩
  | validate => exact ⟨_, _, rfl, rfl, rfl⟩
  | write =>
      simp only
      split
      · exact ⟨_, _, rfl, rfl, rfl⟩
      · exact ⟨_, _, rfl, rfl, rfl⟩
  | publish => exact ⟨_, _, rfl, rfl, rfl⟩
  | stopped => exact ⟨_, _, rfl, rfl, rfl⟩

theorem quiet_run : ∀ (k : Nat) (a : Arena), a.pnl.Flat →
    ∃ hs a', runFrom (step quietConfig 1000000) a (List.replicate k quiet) = .ok (hs, a') ∧
      AdmittedFrom (step quietConfig 1000000) AuditsFlat a (List.replicate k quiet)
  | 0, a, _ => ⟨[], a, rfl, trivial⟩
  | k + 1, a, hflat => by
      obtain ⟨h, a₁, hstep, hpos, hcash⟩ := a.quiet_defined
      have hflat₁ : a₁.pnl.Flat := by
        simpa only [PnLTracker.Flat, PnLTracker.cashFpSafe, hpos, hcash] using hflat
      obtain ⟨hs, a', hrun, hadm⟩ := quiet_run k a₁ hflat₁
      refine ⟨h :: hs, a', ?_, fun _ _ => hflat, ?_⟩
      · simp only [List.replicate_succ, runFrom, hstep, ok_bind, hrun, pure_ok]
      · simp only [hstep]
        exact hadm

/-- Between two ticks, with the account as given and nothing read from the ring. -/
structure Resting (n : Nat) (position : Int64) (cashFp : Int) (a : Arena) : Prop where
  phase : a.phase = .tick
  tick : a.tick = Int64.ofNat n
  position : a.pnl.position = position
  cash : a.pnl.cashFp = cashFp
  writeHead : a.ring.writeHead = UInt64.ofNat n
  readHead : a.ring.readHead = 0

variable {n : Nat} {position : Int64} {cashFp : Int} {a : Arena}

theorem Resting.tick_step (h : Resting n position cashFp a) (hn : n < 1000) :
    ∃ a₁, a.step quietConfig 1000000 quiet = .ok ([], a₁) ∧ a₁.phase = .validate ∧
      a₁.tick = a.tick ∧ a₁.ring = a.ring ∧ a₁.pnl.position = position ∧
      a₁.pnl.cashFp = cashFp := by
  obtain ⟨gm, hsim, hpnl⟩ := quiet_step a.sim
  have hlt : a.tick < 1000000 := by
    rw [h.tick, Int64.lt_iff_toInt_lt, Int64.toInt_ofNat_of_lt (by omega)]
    show (n : Int) < 1000000
    omega
  refine ⟨{ a with sim := (a.sim.1, gm), phase := .validate }, ?_, rfl, rfl, rfl, ?_, ?_⟩
  · simp only [step, quiet, gmStep, h.phase, if_pos hlt, hsim, ok_bind, pure_ok]
  · show gm.pnl.position = position
    rw [hpnl]
    exact h.position
  · show gm.pnl.cashFp = cashFp
    rw [hpnl]
    exact h.cash

theorem Resting.round (h : Resting n position cashFp a) (hn : n < 1000) :
    ∃ hs a', runFrom (step quietConfig 1000000) a [quiet, quiet, quiet, quiet] = .ok (hs, a') ∧
      Resting (n + 1) position cashFp a' := by
  obtain ⟨a₁, hstep, hphase, htick, hring, hpos, hcash⟩ := h.tick_step hn
  have hspace : a₁.ring.HasSpace := by
    rw [hring, TelemetryRing.HasSpace, h.writeHead, h.readHead, UInt64.lt_iff_toNat_lt]
    simp only [UInt64.sub_zero, UInt64.toNat_ofNat']
    show n % 2 ^ 64 < 65472
    omega
  -- validation, the event, its publication
  have hvalidate : ∃ shadow, a₁.step quietConfig 1000000 quiet = .ok ([],
      { a₁ with phase := .write, watchdog := { a₁.watchdog with shadow } }) := by
    simp only [step, quiet, gmStep, hphase]
    exact ⟨_, rfl⟩
  obtain ⟨a₂, hstep₂, hphase₂, htick₂, hring₂, hsim₂⟩ :
      ∃ a₂, a₁.step quietConfig 1000000 quiet = .ok ([], a₂) ∧ a₂.phase = .write ∧
        a₂.tick = a₁.tick ∧ a₂.ring = a₁.ring ∧ a₂.sim = a₁.sim := by
    obtain ⟨shadow, hvalidate⟩ := hvalidate
    exact ⟨_, hvalidate, rfl, rfl, rfl, rfl⟩
  rw [← hring₂] at hspace
  have hwrite : ∃ ev, a₂.step quietConfig 1000000 quiet = .ok ([],
      { a₂ with phase := .publish, ring := a₂.ring.write ev }) := by
    simp only [step, quiet, gmStep, hphase₂, if_pos hspace]
    exact ⟨_, rfl⟩
  obtain ⟨a₃, hstep₃, hphase₃, htick₃, hwrite₃, hread₃, hsim₃⟩ :
      ∃ a₃, a₂.step quietConfig 1000000 quiet = .ok ([], a₃) ∧ a₃.phase = .publish ∧
        a₃.tick = a₂.tick ∧ a₃.ring.writeHead = a₂.ring.writeHead ∧
        a₃.ring.readHead = a₂.ring.readHead ∧ a₃.sim = a₂.sim := by
    obtain ⟨ev, hwrite⟩ := hwrite
    exact ⟨_, hwrite, rfl, rfl, rfl, rfl, rfl⟩
  have hstep₄ : a₃.step quietConfig 1000000 quiet = .ok ([],
      { a₃ with phase := .tick, tick := a₃.tick + 1, ring := a₃.ring.publish }) := by
    simp only [step, quiet, gmStep, hphase₃]
    rfl
  have hsim : a₃.sim = a₁.sim := hsim₃.trans hsim₂
  have hrun : runFrom (step quietConfig 1000000) a [quiet, quiet, quiet, quiet] =
      .ok ([[], [], [], []],
        { a₃ with phase := .tick, tick := a₃.tick + 1, ring := a₃.ring.publish }) := by
    simp only [runFrom, hstep, hstep₂, hstep₃, hstep₄, ok_bind, pure_ok]
  refine ⟨_, _, hrun, rfl, ?_, ?_, ?_, ?_, ?_⟩
  · show a₃.tick + 1 = _
    rw [htick₃, htick₂, htick, h.tick, Int64.ofNat_add]
    rfl
  · show a₃.sim.2.pnl.position = _
    rw [hsim]
    exact hpos
  · show a₃.sim.2.pnl.cashFp = _
    rw [hsim]
    exact hcash
  · show a₃.ring.writeHead + 1 = _
    rw [hwrite₃, hring₂, hring, h.writeHead, UInt64.ofNat_add]
    rfl
  · show a₃.ring.readHead = _
    rw [hread₃, hring₂, hring, h.readHead]

theorem Resting.rounds : ∀ {k n : Nat} {a : Arena}, Resting n position cashFp a →
    n + k ≤ 999 → ∃ hs a', runFrom (step quietConfig 1000000) a
      (List.replicate (4 * k) quiet) = .ok (hs, a') ∧ Resting (n + k) position cashFp a'
  | 0, _, a, h, _ => ⟨[], a, rfl, h⟩
  | k + 1, n, a, h, hle => by
      obtain ⟨hs₁, a₁, hrun₁, h₁⟩ := h.round (by omega)
      obtain ⟨hs₂, a₂, hrun₂, h₂⟩ := Resting.rounds (k := k) h₁ (by omega)
      refine ⟨hs₁ ++ hs₂, a₂, ?_, ?_⟩
      · rw [show 4 * (k + 1) = 4 + 4 * k by omega, List.replicate_add]
        exact runFrom_trans hrun₁ hrun₂
      · rwa [show n + (k + 1) = n + 1 + k by omega]

end Arena

/-- The audit of every run, from any seeded book and under every interleaving
of the two threads: it agrees with the tracker exactly when each validation finds
the tracker flat. -/
theorem audit_agrees_iff {cfg : SimConfig} {maxTicks : Int64} {lob : PersistentLOB}
    {acts : List Action} {hs : List BookHistory} {a : Arena}
    (hrun : runFrom (Arena.step cfg maxTicks) (Arena.start cfg lob) acts = .ok (hs, a)) :
    a.watchdog.shadow.Agrees ↔
      AdmittedFrom (Arena.step cfg maxTicks) Arena.AuditsFlat (Arena.start cfg lob) acts := by
  obtain ⟨hinv, hiff⟩ := Arena.run_kept (Arena.Inv.start cfg lob) hrun
  rw [hinv.unfed.agrees_iff, hiff]
  exact and_iff_right rfl

theorem seedBook_defined : ∃ h lob,
    seedBook.run PersistentLOB.apply PersistentLOB.init = .ok ((), h, lob) := by
  have hcalls : (seedBook.run PersistentLOB.apply PersistentLOB.init).map
      (fun r => r.2.1.length) = .ok 2 := by decide +kernel
  obtain ⟨⟨_, h, lob⟩, hseed, -⟩ := map_eq_ok hcalls
  exact ⟨h, lob, hseed⟩

/-- A thousand quiet ticks, with the audit of the last one. -/
theorem audit_agrees_quiet :
    ∃ h lob hs a, seedBook.run PersistentLOB.apply PersistentLOB.init = .ok ((), h, lob) ∧
      runFrom (Arena.step quietConfig 1000000) (Arena.start quietConfig lob)
        (List.replicate 4000 quiet) = .ok (hs, a) ∧ a.watchdog.shadow.Agrees := by
  obtain ⟨h, lob, hseed⟩ := seedBook_defined
  have hflat : (PnLTracker.create 1000).Flat := by decide
  obtain ⟨hs, a, hrun, hadm⟩ := Arena.quiet_run 4000 (Arena.start quietConfig lob) hflat
  exact ⟨h, lob, hs, a, hseed, hrun, (audit_agrees_iff hrun).mpr hadm⟩

/-- The first tick, in which the contestant buys ten. -/
def buyTen : List Action :=
  [.gm ⟨.gbm 0 0 false, .answer 1 fun _ => ⟨3, 0, 10, 0⟩⟩ 0, quiet, quiet, quiet]

theorem buyTen_resting {h : BookHistory} {lob : PersistentLOB}
    (hseed : seedBook.run PersistentLOB.apply PersistentLOB.init = .ok ((), h, lob)) :
    ∃ hs a, runFrom (Arena.step quietConfig 1000000) (Arena.start quietConfig lob) buyTen =
      .ok (hs, a) ∧ Arena.Resting 1 10 98999000000 a := by
  have hview : ((seedBook.run PersistentLOB.apply PersistentLOB.init) >>= fun r =>
      runFrom (Arena.step quietConfig 1000000) (Arena.start quietConfig r.2.2) buyTen).map
        (fun r => (r.2.phase, r.2.tick, r.2.pnl.position, r.2.pnl.cashFp, r.2.ring.writeHead,
          r.2.ring.readHead)) = .ok (.tick, 1, 10, 98999000000, 1, 0) := by
    decide +kernel
  rw [hseed, ok_bind] at hview
  obtain ⟨⟨hs, a⟩, hrun, heq⟩ := map_eq_ok hview
  simp only [Prod.mk.injEq] at heq
  obtain ⟨hphase, htick, hpos, hcash, hwrite, hread⟩ := heq
  exact ⟨hs, a, hrun, hphase, htick, hpos, hcash, hwrite, hread⟩

/-- The audit accuses an honest book: the contestant buys ten from the seed quote
in the first tick and holds them; the shadow has never heard of it. -/
theorem audit_accuses_honest_book :
    ∃ h lob hs a, seedBook.run PersistentLOB.apply PersistentLOB.init = .ok ((), h, lob) ∧
      runFrom (Arena.step quietConfig 1000000) (Arena.start quietConfig lob)
        (buyTen ++ List.replicate 3994 quiet) = .ok (hs, a) ∧ ¬ a.watchdog.shadow.Agrees := by
  obtain ⟨h, lob, hseed⟩ := seedBook_defined
  obtain ⟨hs₁, a₁, hrun₁, hrest₁⟩ := buyTen_resting hseed
  obtain ⟨hs₂, a₂, hrun₂, hrest₂⟩ := hrest₁.rounds (k := 998) (by omega)
  obtain ⟨a₃, hstep₃, hphase₃, htick₃, -, hpos₃, -⟩ := hrest₂.tick_step (by omega)
  obtain ⟨h₄, a₄, hstep₄, -⟩ := a₃.quiet_defined
  have hlast : runFrom (Arena.step quietConfig 1000000) a₂ [quiet, quiet] =
      .ok ([[], h₄], a₄) := by
    simp only [runFrom, hstep₃, hstep₄, ok_bind, pure_ok]
  have hsplit : List.replicate 3994 quiet = List.replicate (4 * 998) quiet ++ [quiet, quiet] :=
    List.replicate_add (4 * 998) 2 quiet
  have hrun := runFrom_trans hrun₁ (runFrom_trans hrun₂ hlast)
  rw [← hsplit] at hrun
  refine ⟨h, lob, _, a₄, hseed, hrun, ?_⟩
  -- the audit of tick 999 finds ten shares
  obtain ⟨hinv₂, -⟩ := Arena.run_kept (Arena.Inv.start quietConfig lob)
    (runFrom_trans hrun₁ hrun₂)
  obtain ⟨hinv₃, -⟩ := Arena.step_kept hinv₂ hstep₃
  obtain ⟨hinv₄, hiff₄⟩ := Arena.step_kept hinv₃ hstep₄
  rw [hinv₄.unfed.agrees_iff, hiff₄]
  rintro ⟨-, hflat⟩
  have hdue : a₃.tick % 1000 = 999 := by
    rw [htick₃, hrest₂.tick]
    decide
  have hpass := (hflat hphase₃ hdue).1
  rw [hpos₃] at hpass
  exact hpass (by decide)

end VidhiArena.GameMaster
