import VidhiArena.GameMaster.Fills
import VidhiArena.GameMaster.TickLoop

/-!
# Settlement

What the contestant's account should be is a function of the fills that the book
has produced: `netVolume` and `netAmount` sign each fill by the side, or sides,
on which the contestant stands, and a tick costs one penalty when some fill of
the contestant leaves the position over the limit.

The tracker sees only the fills of step 6, and signs each of them once. Both are
enough as long as no market order meets a resting order of the contestant:
whoever sends it, the fill would be lost or counted on one side only.
-/

namespace VidhiArena.GameMaster

open VidhiArena.Foundation

/-! ## What the contestant is owed -/

namespace MatchedFill

def contestantBuys (f : MatchedFill) : Bool :=
  (f.takerIsBuy && f.takerParticipant = contestant) ||
    (!f.takerIsBuy && f.makerParticipant = contestant)

def contestantSells (f : MatchedFill) : Bool :=
  (!f.takerIsBuy && f.takerParticipant = contestant) ||
    (f.takerIsBuy && f.makerParticipant = contestant)

/-- Plus the volume if the contestant buys, minus the volume if it sells. -/
def signedVolume (f : MatchedFill) : Int :=
  (if f.contestantBuys then f.volume.toInt else 0) -
    (if f.contestantSells then f.volume.toInt else 0)

/-- The contestant has taken from somebody else. -/
def TakenFromOther (f : MatchedFill) : Prop :=
  f.takerParticipant = contestant ∧ f.makerParticipant ≠ contestant

/-- The contestant has no part in the fill. -/
def AmongOthers (f : MatchedFill) : Prop :=
  f.takerParticipant ≠ contestant ∧ f.makerParticipant ≠ contestant

variable {f : MatchedFill}

theorem TakenFromOther.signedVolume (h : f.TakenFromOther) :
    f.signedVolume = (PnLTracker.fillSign f true).toInt * f.volume.toInt := by
  obtain ⟨ht, hm⟩ := h
  unfold MatchedFill.signedVolume contestantBuys contestantSells PnLTracker.fillSign
  cases hb : f.takerIsBuy
  · simp only [ht, hm, decide_true, decide_false, Bool.not_false, Bool.and_false, Bool.or_false,
      Bool.and_true, Bool.false_eq_true, if_false, if_true]
    show 0 - f.volume.toInt = -1 * f.volume.toInt
    omega
  · simp only [ht, hm, decide_true, decide_false, Bool.and_true, Bool.not_true, Bool.and_false,
      Bool.or_false, Bool.false_eq_true, if_false, if_true]
    show f.volume.toInt - 0 = 1 * f.volume.toInt
    omega

theorem AmongOthers.signedVolume (h : f.AmongOthers) : f.signedVolume = 0 := by
  simp [MatchedFill.signedVolume, contestantBuys, contestantSells, h.1, h.2]

end MatchedFill

/-- The contestant's net position after some fills. -/
def netVolume (fs : List MatchedFill) : Int := (fs.map MatchedFill.signedVolume).sum

/-- What the contestant has paid for it. -/
def netAmount (fs : List MatchedFill) : Int :=
  (fs.map fun f => f.signedVolume * f.priceFp.toInt).sum

/-- Some fill of the contestant leaves the position over the limit; `net` is the
position before. -/
def breached (limit : Int64) : Int → List MatchedFill → Bool
  | _, [] => false
  | net, f :: fs =>
      ((f.takerParticipant = contestant ∨ f.makerParticipant = contestant) ∧
        limit < abs64 (Int64.ofInt (net + f.signedVolume))) ||
        breached limit (net + f.signedVolume) fs

def penalties (limit : Int64) : Int → List BookHistory → Nat
  | _, [] => 0
  | net, h :: hs =>
      (if breached limit net (BookHistory.fills h) then 1 else 0) +
        penalties limit (net + netVolume (BookHistory.fills h)) hs

/-- Starting cash, less what was paid, less the penalties. -/
def owedCash (limit : Int64) (hs : List BookHistory) : Int :=
  startingCash.toInt - netAmount (BookHistory.fills hs.flatten) -
    limitPenalty * penalties limit 0 hs

/-- The tracker is right: its fields hold what is owed, exactly so if they can. -/
structure Balanced (limit : Int64) (hs : List BookHistory) (pnl : PnLTracker) : Prop where
  position : pnl.position = Int64.ofInt (netVolume (BookHistory.fills hs.flatten))
  cash : pnl.cashFp = wrap128 (owedCash limit hs)
  position_exact : Fits (netVolume (BookHistory.fills hs.flatten)) →
    pnl.position.toInt = netVolume (BookHistory.fills hs.flatten)
  cash_exact : -2 ^ 127 ≤ owedCash limit hs → owedCash limit hs < 2 ^ 127 →
    pnl.cashFp = owedCash limit hs

theorem balanced_of {limit : Int64} {hs : List BookHistory} {pnl : PnLTracker}
    (hpos : pnl.position = Int64.ofInt (netVolume (BookHistory.fills hs.flatten)))
    (hcash : pnl.cashFp = wrap128 (owedCash limit hs)) : Balanced limit hs pnl := by
  refine ⟨hpos, hcash, fun hfit => ?_, fun hlo hhi => ?_⟩
  · rw [hpos]
    exact toInt_ofInt_of_fits hfit
  · rw [hcash, wrap128]
    exact Int.bmod_eq_of_le (by omega) (by omega)

/-! ## The sums -/

theorem netVolume_append (fs fs' : List MatchedFill) :
    netVolume (fs ++ fs') = netVolume fs + netVolume fs' := by
  simp [netVolume]

theorem netAmount_append (fs fs' : List MatchedFill) :
    netAmount (fs ++ fs') = netAmount fs + netAmount fs' := by
  simp [netAmount]

theorem net_amongOthers {fs : List MatchedFill} (h : ∀ f ∈ fs, f.AmongOthers) :
    netVolume fs = 0 ∧ netAmount fs = 0 := by
  induction fs with
  | nil => exact ⟨rfl, rfl⟩
  | cons f fs ih =>
      obtain ⟨hf, hfs⟩ := List.forall_mem_cons.mp h
      obtain ⟨hvol, hamt⟩ := ih hfs
      have hzero := hf.signedVolume
      constructor
      · show f.signedVolume + netVolume fs = 0
        rw [hzero, hvol]
        rfl
      · show f.signedVolume * f.priceFp.toInt + netAmount fs = 0
        rw [hzero, hamt, Int.zero_mul]
        rfl

theorem breached_amongOthers {limit : Int64} {fs fs' : List MatchedFill}
    (h : ∀ f ∈ fs, f.AmongOthers) (net : Int) :
    breached limit net (fs ++ fs') = breached limit net fs' := by
  induction fs with
  | nil => rfl
  | cons f fs ih =>
      obtain ⟨hf, hfs⟩ := List.forall_mem_cons.mp h
      have hnot : ¬ (f.takerParticipant = contestant ∨ f.makerParticipant = contestant) :=
        not_or.mpr hf
      rw [List.cons_append, breached, hf.signedVolume, Int.add_zero, ih hfs]
      simp [hnot]

theorem penalties_append {limit : Int64} : ∀ (hs hs' : List BookHistory) (net : Int),
    penalties limit net (hs ++ hs') = penalties limit net hs +
      penalties limit (net + netVolume (BookHistory.fills hs.flatten)) hs'
  | [], hs', net => by
      show penalties limit net hs' = 0 + penalties limit (net + 0) hs'
      rw [Int.add_zero, Nat.zero_add]
  | h :: hs, hs', net => by
      rw [List.cons_append, penalties, penalties, penalties_append hs, List.flatten_cons,
        BookHistory.fills_append, netVolume_append, Int.add_assoc, Nat.add_assoc]

/-! ## Step 7 -/

theorem wrap128_sub (x y : Int) : wrap128 (wrap128 x - y) = wrap128 (x - y) :=
  Int.bmod_sub_bmod

namespace PnLTracker

variable {t : PnLTracker} {f : MatchedFill} {net cash : Int}

theorem applyFill_moves (isTaker : Bool) (hpos : t.position = Int64.ofInt net)
    (hcash : t.cashFp = wrap128 cash) {moved : Int}
    (hmoved : moved = (fillSign f isTaker).toInt * f.volume.toInt) :
    (t.applyFill f isTaker).position = Int64.ofInt (net + moved) ∧
    (t.applyFill f isTaker).positionLimit = t.positionLimit ∧
    if t.positionLimit < abs64 (Int64.ofInt (net + moved)) ∧ t.penaltyChargedThisTick = false then
      (t.applyFill f isTaker).cashFp = wrap128 (cash - moved * f.priceFp.toInt - limitPenalty) ∧
        (t.applyFill f isTaker).penaltyChargedThisTick = true
    else
      (t.applyFill f isTaker).cashFp = wrap128 (cash - moved * f.priceFp.toInt) ∧
        (t.applyFill f isTaker).penaltyChargedThisTick = t.penaltyChargedThisTick := by
  have hnext : t.position + fillSign f isTaker * f.volume = Int64.ofInt (net + moved) := by
    rw [hpos, hmoved, Int64.ofInt_add, Int64.ofInt_mul, Int64.ofInt_toInt, Int64.ofInt_toInt]
  have hpaid : wrap128 (t.cashFp - (fillSign f isTaker).toInt * f.volume.toInt * f.priceFp.toInt) =
      wrap128 (cash - moved * f.priceFp.toInt) := by
    rw [hcash, wrap128_sub, hmoved]
  unfold applyFill
  simp only [hnext, hpaid]
  split
  · exact ⟨rfl, rfl, wrap128_sub _ _, rfl⟩
  · exact ⟨rfl, rfl, rfl, rfl⟩

end PnLTracker

namespace Master

theorem applyFills_cons (t : PnLTracker) {f : MatchedFill} (hf : f.TakenFromOther)
    (fs : List MatchedFill) : applyFills t (f :: fs) = applyFills (t.applyFill f true) fs := by
  unfold applyFills
  rw [List.foldl_cons]
  simp [hf.1]

/-- Step 7, if the contestant has taken every fill from somebody else. -/
theorem applyFills_owed : ∀ {fs : List MatchedFill} {t : PnLTracker} {net cash : Int},
    (∀ f ∈ fs, f.TakenFromOther) → t.position = Int64.ofInt net → t.cashFp = wrap128 cash →
    (applyFills t fs).position = Int64.ofInt (net + netVolume fs) ∧
    (applyFills t fs).positionLimit = t.positionLimit ∧
    (applyFills t fs).cashFp = wrap128 (cash - netAmount fs -
      if t.penaltyChargedThisTick = false ∧ breached t.positionLimit net fs = true
        then limitPenalty else 0)
  | [], t, net, cash, _, hpos, hcash => by
      refine ⟨?_, rfl, ?_⟩
      · show t.position = Int64.ofInt (net + 0)
        rw [Int.add_zero, hpos]
      · show t.cashFp = wrap128 (cash - 0 - if _ ∧ false = true then _ else _)
        simp [hcash]
  | f :: fs, t, net, cash, h, hpos, hcash => by
      obtain ⟨hf, hfs⟩ := List.forall_mem_cons.mp h
      obtain ⟨hpos₁, hlimit₁, hrest⟩ := PnLTracker.applyFill_moves true hpos hcash hf.signedVolume
      have hover : breached t.positionLimit net (f :: fs) =
          (decide (t.positionLimit < abs64 (Int64.ofInt (net + f.signedVolume))) ||
            breached t.positionLimit (net + f.signedVolume) fs) := by
        rw [breached]
        simp [hf.1]
      have hvol : net + netVolume (f :: fs) = net + f.signedVolume + netVolume fs := by
        show net + (f.signedVolume + netVolume fs) = _
        omega
      have hamt : netAmount (f :: fs) = f.signedVolume * f.priceFp.toInt + netAmount fs := rfl
      rw [applyFills_cons t hf, hover, hvol, hamt]
      split at hrest
      · -- the penalty of the tick falls on this fill
        rename_i hbreach
        obtain ⟨hcash₁, hflag₁⟩ := hrest
        obtain ⟨hpos', hlimit', hcash'⟩ := applyFills_owed hfs hpos₁ hcash₁
        refine ⟨hpos', hlimit'.trans hlimit₁, ?_⟩
        have hdue : (decide (t.positionLimit < abs64 (Int64.ofInt (net + f.signedVolume))) ||
            breached t.positionLimit (net + f.signedVolume) fs) = true := by
          rw [decide_eq_true hbreach.1, Bool.true_or]
        rw [hcash', hflag₁, if_neg (by simp), if_pos ⟨hbreach.2, hdue⟩]
        refine congrArg wrap128 ?_
        omega
      · rename_i hno
        obtain ⟨hcash₁, hflag₁⟩ := hrest
        obtain ⟨hpos', hlimit', hcash'⟩ := applyFills_owed hfs hpos₁ hcash₁
        refine ⟨hpos', hlimit'.trans hlimit₁, ?_⟩
        rw [hcash', hflag₁, hlimit₁]
        have hsame : (t.penaltyChargedThisTick = false ∧
            breached t.positionLimit (net + f.signedVolume) fs = true) ↔
            (t.penaltyChargedThisTick = false ∧
              (decide (t.positionLimit < abs64 (Int64.ofInt (net + f.signedVolume))) ||
                breached t.positionLimit (net + f.signedVolume) fs) = true) := by
          rw [Bool.or_eq_true, decide_eq_true_eq]
          constructor
          · exact fun hb => ⟨hb.1, Or.inr hb.2⟩
          · rintro ⟨hflag, hb | hb⟩
            · exact absurd ⟨hb, hflag⟩ hno
            · exact ⟨hflag, hb⟩
        rw [if_congr hsame rfl rfl]
        refine congrArg wrap128 ?_
        omega

end Master

/-! ## One call -/

/-- A market order meets no resting order of the contestant. -/
def BookOp.SparesContestant (B : Book) : BookOp → Prop
  | .marketOrder isBuy volume _ =>
      ∀ o ∈ Book.reached volume (Book.priority (B.side !isBuy)), o.participant ≠ contestant
  | _ => True

instance : ∀ (B : Book) (op : BookOp), Decidable (op.SparesContestant B)
  | _, .addLimit .. => inferInstanceAs (Decidable True)
  | _, .cancel _ => inferInstanceAs (Decidable True)
  | _, .marketOrder .. => inferInstanceAs (Decidable (∀ o ∈ _, _))

/-- The call comes back, and it spares the contestant's orders. -/
def PersistentLOB.SparesContestant (lob : PersistentLOB) (op : BookOp) : Prop :=
  lob.Survives op ∧ op.SparesContestant lob.view

instance (lob : PersistentLOB) (op : BookOp) : Decidable (lob.SparesContestant op) :=
  inferInstanceAs (Decidable (_ ∧ _))

/-- The fills of a call name its sender as the taker, and nobody's order but other
people's. -/
def FillsFair (op : BookOp) (r : Reply) : Prop :=
  ∀ f ∈ r.matched, f.makerParticipant ≠ contestant ∧
    ∀ who, op.By who → who f.takerParticipant

theorem Refines.fillsFair {lob : PersistentLOB} (href : ∃ B, Refines lob B) {op : BookOp}
    (hop : lob.SparesContestant op) :
    ∃ r lob', lob.apply op = .ok (r, lob') ∧ (∃ B, Refines lob' B) ∧ FillsFair op r := by
  obtain ⟨B, href⟩ := href
  obtain ⟨hsurvives, hspares⟩ := hop
  rw [href.view_eq] at hspares
  obtain ⟨lob', hcall, href'⟩ := href.survives hsurvives
  refine ⟨_, lob', hcall, ⟨_, href'⟩, ?_⟩
  cases op with
  | addLimit isBid p v who => exact fun f hf => nomatch hf
  | cancel id => exact fun f hf => nomatch hf
  | marketOrder isBuy v taker =>
      intro f hf
      have hf : f ∈ (B.marketOrder isBuy v taker).1 := hf
      refine ⟨?_, fun who hwho => (B.fills_taker isBuy v taker f hf).1 ▸ hwho⟩
      have hmaker := List.mem_map_of_mem (f := fun f : MatchedFill =>
        (f.makerOrderId, f.makerParticipant)) hf
      rw [Book.fills_makers] at hmaker
      obtain ⟨o, ho, heq⟩ := List.mem_map.mp hmaker
      rw [← (Prod.mk.inj heq).2]
      exact hspares o ho

/-! ## One tick -/

section Ticks

variable {cfg : SimConfig} {input : TickInput} {s s' : SimState} {h : BookHistory}

theorem tick_fair (href : ∃ B, Refines s.1 B)
    (hadm : TickAdmitted cfg PersistentLOB.SparesContestant s input)
    (hstep : SimState.step cfg s input = .ok (h, s')) :
    (∃ B, Refines s'.1 B) ∧ ∀ c ∈ h, FillsFair c.1 c.2 := by
  have htick := SimState.step_eq_ok.mp hstep
  obtain ⟨href', hfair⟩ := runFrom_steps (fun lob => ∃ B, Refines lob B) FillsFair
    (fun lob op r lob' href hop hcall => by
      obtain ⟨r', lob₁, hcall', href', hfair⟩ := Refines.fillsFair href hop
      rw [hcall] at hcall'
      cases hcall'
      exact ⟨href', hfair⟩)
    _ _ href (Prog.AdmittedIn.replay hadm htick) (Prog.run_replay htick)
  rw [List.forall₂_map_left_iff, List.forall₂_map_right_iff, List.forall₂_same] at hfair
  exact ⟨href', hfair⟩

theorem mem_fills {f : MatchedFill} : f ∈ BookHistory.fills h ↔ ∃ c ∈ h, f ∈ c.2.matched :=
  List.mem_flatMap

theorem tick_balanced {hs : List BookHistory} (href : ∃ B, Refines s.1 B)
    (hlimit : s.2.pnl.positionLimit = cfg.positionLimit)
    (hbal : Balanced cfg.positionLimit hs s.2.pnl)
    (hadm : TickAdmitted cfg PersistentLOB.SparesContestant s input)
    (hstep : SimState.step cfg s input = .ok (h, s')) :
    s'.2.pnl.positionLimit = cfg.positionLimit ∧
      Balanced cfg.positionLimit (hs ++ [h]) s'.2.pnl := by
  obtain ⟨-, hfair⟩ := tick_fair href hadm hstep
  obtain ⟨bots, h₁, lob₁, h₂, allFills, hbots, hwords, rfl, hpnl⟩ :=
    Master.tick_eq_ok (SimState.step_eq_ok.mp hstep)
  -- the bots trade among others, the contestant takes from others
  have hothers : ∀ f ∈ BookHistory.fills h₁, f.AmongOthers := by
    intro f hf
    obtain ⟨c, hc, hf⟩ := mem_fills.mp hf
    obtain ⟨hmaker, htaker⟩ := hfair c (List.mem_append_left _ hc) f hf
    exact ⟨htaker _ ((BotFleet.step_by ..).history hbots c hc), hmaker⟩
  have htaken : ∀ f ∈ allFills, f.TakenFromOther := by
    rw [processOrders_fills hwords]
    intro f hf
    obtain ⟨c, hc, hf⟩ := mem_fills.mp hf
    obtain ⟨hmaker, htaker⟩ := hfair c (List.mem_append_right _ hc) f hf
    exact ⟨htaker _ ((processOrders_by _).history hwords c hc), hmaker⟩
  obtain ⟨hpos', hlimit', hcash'⟩ := Master.applyFills_owed (t := s.2.pnl.resetTickState) htaken
    hbal.position hbal.cash
  rw [← hpnl] at hpos' hlimit' hcash'
  obtain ⟨hvol₁, hamt₁⟩ := net_amongOthers hothers
  have hfills : BookHistory.fills (hs ++ [h₁ ++ h₂]).flatten =
      BookHistory.fills hs.flatten ++ (BookHistory.fills h₁ ++ allFills) := by
    rw [processOrders_fills hwords, ← BookHistory.fills_append, ← BookHistory.fills_append]
    simp
  have hpen : penalties cfg.positionLimit 0 (hs ++ [h₁ ++ h₂]) =
      penalties cfg.positionLimit 0 hs + if breached cfg.positionLimit
        (netVolume (BookHistory.fills hs.flatten)) allFills then 1 else 0 := by
    rw [penalties_append, penalties, penalties, BookHistory.fills_append,
      breached_amongOthers hothers, ← processOrders_fills hwords, Int.zero_add, Nat.add_zero]
  refine ⟨hlimit'.trans hlimit, balanced_of ?_ ?_⟩
  · rw [hpos', hfills, netVolume_append, netVolume_append, hvol₁, Int.zero_add]
  · rw [hcash']
    refine congrArg wrap128 ?_
    simp only [PnLTracker.resetTickState, hlimit, true_and]
    rw [owedCash, owedCash, hfills, hpen, netAmount_append, netAmount_append, hamt₁]
    split
    · rw [Int.natCast_add, Int.mul_add]
      omega
    · rw [Int.natCast_add, Int.mul_add]
      omega

end Ticks

/-! ## Runs -/

theorem ticks_balanced {cfg : SimConfig} : ∀ {inputs : List TickInput} {s s' : SimState}
    {hs hs' : List BookHistory}, (∃ B, Refines s.1 B) →
    s.2.pnl.positionLimit = cfg.positionLimit → Balanced cfg.positionLimit hs s.2.pnl →
    AdmittedFrom (SimState.step cfg) (TickAdmitted cfg PersistentLOB.SparesContestant) s inputs →
    runFrom (SimState.step cfg) s inputs = .ok (hs', s') →
    Balanced cfg.positionLimit (hs ++ hs') s'.2.pnl
  | [], _, _, hs, _, _, _, hbal, _, hrun => by
      cases hrun
      rwa [List.append_nil]
  | input :: inputs, s, s', hs, hs', href, hlimit, hbal, ⟨hadm, hrest⟩, hrun => by
      obtain ⟨⟨h, s₁⟩, hstep, hrun⟩ := bind_eq_ok.mp hrun
      obtain ⟨⟨hs₁, s₂⟩, hticks, hrun⟩ := bind_eq_ok.mp hrun
      cases hrun
      simp only [hstep] at hrest
      obtain ⟨hlimit₁, hbal₁⟩ := tick_balanced href hlimit hbal hadm hstep
      have := ticks_balanced (tick_fair href hadm hstep).1 hlimit₁ hbal₁ hrest hticks
      rwa [List.append_assoc] at this

theorem seedBook_fills {h : BookHistory} {lob : PersistentLOB}
    (hseed : seedBook.run PersistentLOB.apply PersistentLOB.init = .ok ((), h, lob)) :
    BookHistory.fills h = [] := by
  have hfills : (seedBook.run PersistentLOB.apply PersistentLOB.init).map
      (fun r => BookHistory.fills r.2.1) = .ok [] := by decide +kernel
  rw [hseed] at hfills
  exact Except.ok.inj hfills

theorem balanced_seed {limit : Int64} {h : BookHistory} (hnone : BookHistory.fills h = []) :
    Balanced limit [h] (PnLTracker.create limit) := by
  have hflat : BookHistory.fills [h].flatten = [] := by simpa using hnone
  have howed : owedCash limit [h] = startingCash.toInt := by
    rw [owedCash, hflat, penalties, hnone]
    rfl
  refine balanced_of ?_ ?_
  · rw [hflat]
    rfl
  · rw [howed]
    rfl

/-- The tracker is right after every tick of every run in which no market
order, of a bot or of the contestant, meets a resting order of the contestant. -/
theorem tracker_balanced {cfg : SimConfig} {inputs : List TickInput}
    (hadm : RunAdmitted cfg PersistentLOB.SparesContestant inputs) :
    ∀ pre, pre <+: inputs → ∃ hs s, runSimulation cfg pre = .ok (hs, s) ∧
      Balanced cfg.positionLimit hs s.2.pnl := by
  rintro pre hpre
  have hadm := hadm.of_initial hpre
  have hdefined : ∀ lob op, (∃ B, Refines lob B) → PersistentLOB.SparesContestant lob op →
      ∃ r lob', lob.apply op = .ok (r, lob') ∧ ∃ B, Refines lob' B := by
    intro lob op href hop
    obtain ⟨r, lob', hcall, href', -⟩ := Refines.fillsFair href hop
    exact ⟨r, lob', hcall, href'⟩
  obtain ⟨hs, s, hrun, -⟩ := hadm.defined _ ⟨_, init_refines⟩ hdefined
  refine ⟨hs, s, hrun, ?_⟩
  obtain ⟨h, lob, hs', hseed, hticks, rfl⟩ := runSimulation_eq_ok.mp hrun
  obtain ⟨hadm₀, hrest⟩ := hadm
  obtain ⟨_, _, _, hseed', href⟩ := Prog.run_defined _ hdefined ⟨_, init_refines⟩ hadm₀
  rw [hseed] at hseed'
  cases hseed'
  simp only [hseed] at hrest
  exact ticks_balanced href rfl (balanced_seed (seedBook_fills hseed)) hrest hticks

/-- Two ticks with every bot at work; the contestant buys ten and sells four. -/
theorem tracker_balanced_round_trip :
    ∃ hs s, runSimulation ⟨BotConfig.default, 1000, fun _ _ => 0⟩
        [⟨.gbm 100050000 450000 false, .answer 1 fun _ => ⟨3, 0, 10, 0⟩⟩,
          ⟨.gbm 100050000 450000 false, .answer 1 fun _ => ⟨4, 0, 4, 0⟩⟩] = .ok (hs, s) ∧
      Balanced 1000 hs s.2.pnl := by
  have hadm : RunAdmitted ⟨BotConfig.default, 1000, fun _ _ => 0⟩ PersistentLOB.SparesContestant
      [⟨.gbm 100050000 450000 false, .answer 1 fun _ => ⟨3, 0, 10, 0⟩⟩,
        ⟨.gbm 100050000 450000 false, .answer 1 fun _ => ⟨4, 0, 4, 0⟩⟩] := by
    decide +kernel
  exact tracker_balanced hadm _ (List.prefix_refl _)

/-- What is owed and what the tracker says, at the end of a run. -/
def positions (inputs : List TickInput) : Except Fault (Int × Int64) :=
  (runSimulation ⟨BotConfig.default, 1000, fun _ _ => 0⟩ inputs).map
    fun r => (netVolume (BookHistory.fills r.1.flatten), r.2.2.pnl.position)

theorem not_balanced {inputs : List TickInput} {net : Int} {position : Int64}
    (h : positions inputs = .ok (net, position)) (hne : position ≠ Int64.ofInt net) :
    ∃ hs s, runSimulation ⟨BotConfig.default, 1000, fun _ _ => 0⟩ inputs = .ok (hs, s) ∧
      ¬ Balanced 1000 hs s.2.pnl := by
  obtain ⟨⟨hs, s⟩, hrun, heq⟩ := map_eq_ok h
  obtain ⟨hnet, hpos⟩ := Prod.mk.inj heq
  refine ⟨hs, s, hrun, fun hbal => hne ?_⟩
  rw [← hnet, ← hpos]
  exact hbal.position

/-- Fills that the tracker gets wrong. The contestant's bid of five at 100.09 is
in the book when the fair value falls, the sniper sells into it and the tracker is
not told; and when the contestant sells into its own bid, it is told of a sale. -/
theorem tracker_misses_fill :
    (∃ hs s, runSimulation ⟨BotConfig.default, 1000, fun _ _ => 0⟩
        [⟨.gbm 100050000 450000 false, .answer 1 fun _ => ⟨1, 100090000, 5, 0⟩⟩,
          ⟨.gbm 100000000 450000 false, .timeout⟩] = .ok (hs, s) ∧
      ¬ Balanced 1000 hs s.2.pnl) ∧
    ∃ hs s, runSimulation ⟨BotConfig.default, 1000, fun _ _ => 0⟩
        [⟨.gbm 100050000 450000 false, .answer 2 fun i =>
          if i.val = 0 then ⟨1, 100090000, 5, 0⟩ else ⟨4, 0, 5, 0⟩⟩] = .ok (hs, s) ∧
      ¬ Balanced 1000 hs s.2.pnl := by
  constructor
  · have hsniped : positions [⟨.gbm 100050000 450000 false, .answer 1 fun _ => ⟨1, 100090000, 5, 0⟩⟩,
        ⟨.gbm 100000000 450000 false, .timeout⟩] = .ok (5, 0) := by decide +kernel
    exact not_balanced hsniped (by decide)
  · have hself : positions [⟨.gbm 100050000 450000 false, .answer 2 fun i =>
        if i.val = 0 then ⟨1, 100090000, 5, 0⟩ else ⟨4, 0, 5, 0⟩⟩] = .ok (0, -5) := by
      decide +kernel
    exact not_balanced hself (by decide)

end VidhiArena.GameMaster
