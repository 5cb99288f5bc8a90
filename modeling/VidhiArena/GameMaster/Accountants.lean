import VidhiArena.GameMaster.ShadowLOB
import VidhiArena.GameMaster.Volumes

/-!
# The two accountants

`PnLTracker` and `ShadowLOB` both keep the contestant's position and cash. They
take the side of a fill from two different formulas, one multiplies in 128 bits
and the other in 64, and only one charges the position limit. This module says
exactly when they agree.
-/

namespace VidhiArena.GameMaster

open VidhiArena.Foundation

/-! ## The account of the shadow -/

namespace ShadowLOB

/-- `+1` when the shadow takes the contestant for the buyer. -/
def fillSign (f : MatchedFill) : Int64 :=
  if (f.takerIsBuy && f.takerParticipant = contestant) ||
    (!f.takerIsBuy && f.makerParticipant = contestant) then 1 else -1

/-- The account: nothing but `trackContestant` writes it. -/
def account (S : ShadowLOB) : Int64 × Int := (S.position, S.cashFp)

@[simp] theorem account_report (S : ShadowLOB) (v : Violation) :
    (S.report v).account = S.account := by
  unfold report addViolation account
  split <;> rfl

@[simp] theorem account_setSide (S : ShadowLOB) (b : Bool) (m : List (Int64 × ShadowLevel)) :
    (S.setSide b m).account = S.account := by
  cases b <;> rfl

theorem account_removeFromLevel (S : ShadowLOB) (id : UInt64) (so : ShadowOrder) :
    (S.removeFromLevel id so).account = S.account := by
  unfold removeFromLevel
  split
  · rfl
  · simp only
    split <;> rw [account_setSide]

theorem account_closeOrder (S : ShadowLOB) (id : UInt64) (so : ShadowOrder) :
    (S.closeOrder id so).account = S.account := account_removeFromLevel S id so

theorem account_checkPrice (S : ShadowLOB) (f : MatchedFill) (id : UInt64) (tick : Int64) :
    (S.checkPrice f id tick).account = S.account := by
  unfold checkPrice
  split
  · rw [account_report]
  · rfl

theorem account_matchMaker (S : ShadowLOB) (f : MatchedFill) (id : UInt64) (tick : Int64) :
    (S.matchMaker f id tick).account = S.account := by
  have hvol : ∀ (S : ShadowLOB) (so : ShadowOrder),
      (S.checkVolume so f id tick).account = S.account := by
    intro S so
    unfold checkVolume
    split
    · rw [account_report]
    · split
      · rw [account_report]
      · rfl
  have hprio : ∀ (S : ShadowLOB) (so : ShadowOrder),
      (S.checkPriority so id tick).account = S.account := by
    intro S so
    unfold checkPriority
    split
    · rfl
    · rw [account_report]
  have happly : ∀ (S : ShadowLOB) (so : ShadowOrder),
      (S.applyFill so f id).account = S.account := by
    intro S so
    simp only [applyFill]
    split
    · rw [account_closeOrder]
    · rfl
  unfold matchMaker
  simp only
  split
  · rw [happly, hprio, hvol]
    rfl
  · rw [account_report]
    rfl

/-- A fill of the contestant moves the account by the 64-bit product. -/
theorem account_onFill (S : ShadowLOB) {f : MatchedFill} (id : UInt64) (tick : Int64)
    (hf : f.takerParticipant = contestant ∨ f.makerParticipant = contestant) :
    (S.onFill f id tick).account = (S.position + fillSign f * f.volume,
      wrap128 (S.cashFp - (fillSign f * f.volume * f.priceFp).toInt)) := by
  have hbefore : ((S.checkPrice f id tick).matchMaker f id tick).account = S.account := by
    rw [account_matchMaker, account_checkPrice]
  have hpos := congrArg Prod.fst hbefore
  have hcash := congrArg Prod.snd hbefore
  simp only [account] at hpos hcash
  unfold onFill trackContestant
  rw [if_pos hf]
  simp only [account, hpos, hcash]
  rfl

end ShadowLOB

/-! ## Both accounts over a stream of fills -/

inductive AccountEvent where
  | tickStart
  | fill (f : MatchedFill)

structure Accounts where
  pnl : PnLTracker
  shadow : ShadowLOB

namespace Accounts

def init (limit : Int64) : Accounts := ⟨PnLTracker.create limit, ShadowLOB.init⟩

/-- One event, as `main.cpp` feeds it to the tracker and as the watchdog would
feed it to the shadow. -/
def step (s : Accounts) : AccountEvent → Accounts
  | .tickStart => { s with pnl := s.pnl.resetTickState }
  | .fill f =>
      ⟨s.pnl.applyFill f (f.takerParticipant = contestant), s.shadow.onFill f f.makerOrderId 0⟩

def run (limit : Int64) (events : List AccountEvent) : Accounts :=
  events.foldl step (init limit)

/-- Equal positions and equal cash, as integers. -/
def Agree (s : Accounts) : Prop :=
  s.shadow.position = s.pnl.position ∧ s.shadow.cashFp = s.pnl.cashFp

end Accounts

/-- The contestant is on one side of the fill at least. -/
def AccountEvent.Concerns : AccountEvent → Prop
  | .tickStart => True
  | .fill f => f.takerParticipant = contestant ∨ f.makerParticipant = contestant

/-- Both formulas give the fill the same signed volume and the 64-bit product is
the exact one. -/
def MatchedFill.SameAmounts (f : MatchedFill) : Prop :=
  PnLTracker.fillSign f (f.takerParticipant = contestant) * f.volume =
      ShadowLOB.fillSign f * f.volume ∧
    (PnLTracker.fillSign f (f.takerParticipant = contestant)).toInt * f.volume.toInt *
        f.priceFp.toInt =
      (ShadowLOB.fillSign f * f.volume * f.priceFp).toInt

instance (f : MatchedFill) : Decidable f.SameAmounts := inferInstanceAs (Decidable (_ ∧ _))

/-! ## One fill -/

theorem bmod64_emod (x : Int) : x.bmod (2 ^ 64) % 2 ^ 64 = x % 2 ^ 64 := Int.bmod_emod

theorem wrap128_emod (x : Int) : wrap128 x % 2 ^ 128 = x % 2 ^ 128 := Int.bmod_emod

/-- Two amounts that move the cash equally are equal, if they are no further
apart than an `__int128` can tell. -/
theorem eq_of_wrap128 {c a b : Int} (h : wrap128 (c - a) = wrap128 (c - b))
    (hlo : -2 ^ 127 < a - b) (hhi : a - b < 2 ^ 127) : a = b := by
  have hmod := congrArg (· % 2 ^ 128) h
  simp only [wrap128_emod] at hmod
  omega

theorem natAbs_toInt_le (x : Int64) : x.toInt.natAbs ≤ 2 ^ 63 := by
  have h₁ := x.le_toInt
  have h₂ := x.toInt_lt
  omega

namespace MatchedFill

variable (f : MatchedFill)

/-- The amount that the tracker takes off the cash. -/
def exactAmount : Int :=
  (PnLTracker.fillSign f (f.takerParticipant = contestant)).toInt * f.volume.toInt *
    f.priceFp.toInt

theorem natAbs_exactAmount_le : f.exactAmount.natAbs ≤ 2 ^ 126 := by
  have hsign : (PnLTracker.fillSign f (f.takerParticipant = contestant)).toInt.natAbs = 1 := by
    have h : ∀ b : Bool, (if b then (1 : Int64) else -1).toInt.natAbs = 1 := by decide
    exact h _
  rw [exactAmount, Int.natAbs_mul, Int.natAbs_mul, hsign, Nat.one_mul]
  calc f.volume.toInt.natAbs * f.priceFp.toInt.natAbs
      ≤ 2 ^ 63 * 2 ^ 63 := Nat.mul_le_mul (natAbs_toInt_le _) (natAbs_toInt_le _)
    _ = 2 ^ 126 := by decide

/-- With the signed volumes equal, the two amounts differ by a multiple of `2^64`. -/
theorem amounts_emod
    (h : PnLTracker.fillSign f (f.takerParticipant = contestant) * f.volume =
      ShadowLOB.fillSign f * f.volume) :
    (ShadowLOB.fillSign f * f.volume * f.priceFp).toInt % 2 ^ 64 =
      f.exactAmount % 2 ^ 64 := by
  rw [← h, Int64.toInt_mul, Int64.toInt_mul, bmod64_emod, Int.mul_emod, bmod64_emod,
    ← Int.mul_emod]
  rfl

/-- A sale of the contestant to itself. -/
def SelfSale : Prop :=
  f.takerParticipant = contestant ∧ f.makerParticipant = contestant ∧ f.takerIsBuy = false

variable {f}

theorem fillSign_eq (hf : f.takerParticipant = contestant ∨ f.makerParticipant = contestant)
    (hself : ¬ f.SelfSale) :
    PnLTracker.fillSign f (f.takerParticipant = contestant) = ShadowLOB.fillSign f := by
  unfold SelfSale at hself
  unfold PnLTracker.fillSign ShadowLOB.fillSign
  by_cases ht : f.takerParticipant = contestant <;>
    by_cases hm : f.makerParticipant = contestant <;>
    cases hb : f.takerIsBuy <;> simp_all

/-- For a fill of positive volume: both accountants book it alike unless it is a
self-sale or its amount does not fit in 64 bits. -/
theorem sameAmounts_iff (hf : f.takerParticipant = contestant ∨ f.makerParticipant = contestant)
    (hv : 0 < f.volume) : f.SameAmounts ↔ ¬ f.SelfSale ∧ Fits f.exactAmount := by
  constructor
  · rintro ⟨hsigned, hamount⟩
    constructor
    · rintro ⟨ht, hm, hb⟩
      have htracker : PnLTracker.fillSign f (f.takerParticipant = contestant) = -1 := by
        simp [PnLTracker.fillSign, ht, hb]
      have hshadow : ShadowLOB.fillSign f = 1 := by simp [ShadowLOB.fillSign, hm, hb]
      rw [htracker, hshadow] at hsigned
      have hint := congrArg Int64.toInt hsigned
      rw [Int64.lt_iff_toInt_lt, Int64.toInt_zero] at hv
      have hlt := f.volume.toInt_lt
      rw [Int64.toInt_mul, Int64.toInt_mul, show (-1 : Int64).toInt = -1 from rfl,
        show (1 : Int64).toInt = 1 from rfl, bmod_of_fits ⟨by omega, by omega⟩,
        bmod_of_fits ⟨by omega, by omega⟩] at hint
      omega
    · rw [exactAmount, hamount]
      exact fits_toInt _
  · rintro ⟨hself, hfits⟩
    have hsign := fillSign_eq hf hself
    refine ⟨by rw [hsign], ?_⟩
    rw [← hsign, Int64.toInt_mul, Int64.toInt_mul, Int.bmod_mul_bmod]
    exact (bmod_of_fits hfits).symm

end MatchedFill

namespace Accounts

variable {s : Accounts} {f : MatchedFill}

/-- The position of the tracker after the fill. -/
def nextPosition (s : Accounts) (f : MatchedFill) : Int64 :=
  s.pnl.position + PnLTracker.fillSign f (f.takerParticipant = contestant) * f.volume

theorem step_fill_pnl (hflag : s.pnl.penaltyChargedThisTick = false) :
    (s.step (.fill f)).pnl =
      if s.pnl.positionLimit < abs64 (s.nextPosition f) then
        { s.pnl with
          position := s.nextPosition f
          cashFp := wrap128 (wrap128 (s.pnl.cashFp - f.exactAmount) - limitPenalty)
          penaltyChargedThisTick := true }
      else
        { s.pnl with
          position := s.nextPosition f
          cashFp := wrap128 (s.pnl.cashFp - f.exactAmount) } := by
  simp only [step, PnLTracker.applyFill, hflag, and_true]
  rfl

/-- One fill keeps the accounts equal exactly when it moves both by the same
amounts and does not break the position limit. -/
theorem agree_step_iff (hagree : s.Agree) (hflag : s.pnl.penaltyChargedThisTick = false)
    (hf : (AccountEvent.fill f).Concerns) :
    (s.step (.fill f)).Agree ↔
      f.SameAmounts ∧ ¬ s.pnl.positionLimit < abs64 (s.nextPosition f) := by
  obtain ⟨hpos, hcash⟩ := hagree
  have hshadow := ShadowLOB.account_onFill s.shadow f.makerOrderId 0 hf
  have hspos := congrArg Prod.fst hshadow
  have hscash := congrArg Prod.snd hshadow
  simp only [ShadowLOB.account] at hspos hscash
  have hbound := f.natAbs_exactAmount_le
  have hwide := natAbs_toInt_le (ShadowLOB.fillSign f * f.volume * f.priceFp)
  have hpnl := step_fill_pnl (f := f) hflag
  unfold Agree
  rw [show (s.step (.fill f)).shadow = s.shadow.onFill f f.makerOrderId 0 from rfl, hspos, hscash,
    hpnl, hpos, hcash]
  constructor
  · rintro ⟨hp, hc⟩
    have hsigned : PnLTracker.fillSign f (f.takerParticipant = contestant) * f.volume =
        ShadowLOB.fillSign f * f.volume := by
      split at hp <;> simp only [nextPosition] at hp <;> grind
    have hmod := f.amounts_emod hsigned
    split at hc
    · -- a penalty is no multiple of `2^64`, so nothing can hide it
      exfalso
      have h128 := congrArg (· % 2 ^ 128) hc
      simp only [wrap128_emod, limitPenalty] at h128
      have hinner := wrap128_emod (s.pnl.cashFp - f.exactAmount)
      omega
    · rename_i hlimit
      refine ⟨⟨hsigned, ?_⟩, hlimit⟩
      exact eq_of_wrap128 hc.symm (by unfold MatchedFill.exactAmount at *; omega)
        (by unfold MatchedFill.exactAmount at *; omega)
  · rintro ⟨⟨hsigned, hamount⟩, hlimit⟩
    rw [if_neg hlimit]
    refine ⟨?_, ?_⟩
    · rw [← hsigned]
      rfl
    · show _ = wrap128 (s.pnl.cashFp - f.exactAmount)
      rw [MatchedFill.exactAmount, hamount]

/-! ## Streams -/

/-- The contestant's net position, in 64 bits, as the tracker signs the fills. -/
def netPosition : List AccountEvent → Int64
  | [] => 0
  | .tickStart :: es => netPosition es
  | .fill f :: es =>
      PnLTracker.fillSign f (f.takerParticipant = contestant) * f.volume + netPosition es

theorem netPosition_append : ∀ es es' : List AccountEvent,
    netPosition (es ++ es') = netPosition es + netPosition es'
  | [], es' => by
      rw [List.nil_append, netPosition]
      grind
  | .tickStart :: es, es' => netPosition_append es es'
  | .fill f :: es, es' => by
      rw [List.cons_append, netPosition, netPosition, netPosition_append es es']
      grind

variable (limit : Int64)

theorem run_snoc (es : List AccountEvent) (e : AccountEvent) :
    run limit (es ++ [e]) = (run limit es).step e := by
  rw [run, List.foldl_append]
  rfl

theorem run_position (es : List AccountEvent) :
    (run limit es).pnl.position = netPosition es ∧
      (run limit es).pnl.positionLimit = limit := by
  induction es using List.reverseRecOn with
  | nil => exact ⟨rfl, rfl⟩
  | append_singleton es e ih =>
      obtain ⟨hpos, hlim⟩ := ih
      rw [run_snoc, netPosition_append]
      cases e with
      | tickStart =>
          refine ⟨?_, hlim⟩
          rw [show netPosition [.tickStart] = 0 from rfl]
          simp only [step, PnLTracker.resetTickState, hpos]
          grind
      | fill f =>
          simp only [step, PnLTracker.applyFill]
          have hlast : netPosition [.fill f] =
              PnLTracker.fillSign f (f.takerParticipant = contestant) * f.volume + 0 := rfl
          rw [hlast]
          split
          · exact ⟨by simp only [hpos]; grind, hlim⟩
          · exact ⟨by simp only [hpos]; grind, hlim⟩

theorem run_nextPosition (es : List AccountEvent) (f : MatchedFill) :
    (run limit es).nextPosition f = netPosition (es ++ [.fill f]) := by
  rw [nextPosition, (run_position limit es).1, netPosition_append]
  have hlast : netPosition [.fill f] =
      PnLTracker.fillSign f (f.takerParticipant = contestant) * f.volume + 0 := rfl
  rw [hlast]
  grind

/-- Every fill leaves the net position inside the limit. -/
def WithinLimit (events : List AccountEvent) : Prop :=
  ∀ pre f, pre ++ [.fill f] <+: events → ¬ limit < abs64 (netPosition (pre ++ [.fill f]))

theorem run_flag {events : List AccountEvent} (h : WithinLimit limit events) :
    (run limit events).pnl.penaltyChargedThisTick = false := by
  induction events using List.reverseRecOn with
  | nil => rfl
  | append_singleton es e ih =>
      have hes : WithinLimit limit es :=
        fun pre f hpre => h pre f (hpre.trans (List.prefix_append _ _))
      rw [run_snoc]
      cases e with
      | tickStart => rfl
      | fill f =>
          have hno := h es f (List.prefix_refl _)
          rw [step_fill_pnl (ih hes), (run_position limit es).2, run_nextPosition, if_neg hno]
          exact ih hes

/-- When the accountants agree. For every stream of fills of the contestant,
split into ticks in any way: the accounts are equal after each of its events
exactly when each fill has the same amounts in both and the net position never
leaves the limit. -/
theorem accounts_agree_iff (events : List AccountEvent) (hc : ∀ e ∈ events, e.Concerns) :
    (∀ pre, pre <+: events → (run limit pre).Agree) ↔
      (∀ f, .fill f ∈ events → f.SameAmounts) ∧ WithinLimit limit events := by
  induction events using List.reverseRecOn with
  | nil =>
      constructor
      · intro _
        refine ⟨fun f hf => absurd hf List.not_mem_nil, fun pre f hpre => ?_⟩
        have := hpre.length_le
        simp at this
      · rintro - pre hpre
        rw [List.prefix_nil.mp hpre]
        exact ⟨rfl, rfl⟩
  | append_singleton es e ih =>
      have ih := ih fun e' he' => hc e' (List.mem_append_left _ he')
      have he := hc e (List.mem_append_right _ List.mem_cons_self)
      constructor
      · intro hall
        have hes : ∀ pre, pre <+: es → (run limit pre).Agree :=
          fun pre hpre => hall pre (hpre.trans (List.prefix_append _ _))
        obtain ⟨hsame, hwithin⟩ := ih.mp hes
        have hlast := hall (es ++ [e]) (List.prefix_refl _)
        have hbefore := hes es (List.prefix_refl _)
        rw [run_snoc] at hlast
        constructor
        · intro f hf
          rcases List.mem_append.mp hf with hf | hf
          · exact hsame f hf
          · obtain rfl := List.mem_singleton.mp hf
            exact ((agree_step_iff hbefore (run_flag limit hwithin) he).mp hlast).1
        · intro pre f hpre
          rcases List.prefix_concat_iff.mp hpre with heq | hpre
          · obtain ⟨rfl, hcons⟩ := List.append_inj' heq rfl
            cases hcons
            have := ((agree_step_iff hbefore (run_flag limit hwithin) he).mp hlast).2
            rwa [(run_position limit pre).2, run_nextPosition] at this
          · exact hwithin pre f hpre
      · rintro ⟨hsame, hwithin⟩ pre hpre
        have hwes : WithinLimit limit es :=
          fun pre f hpre => hwithin pre f (hpre.trans (List.prefix_append _ _))
        have hes := ih.mpr ⟨fun f hf => hsame f (List.mem_append_left _ hf), hwes⟩
        rcases List.prefix_concat_iff.mp hpre with rfl | hpre
        · have hbefore := hes es (List.prefix_refl _)
          rw [run_snoc]
          cases e with
          | tickStart => exact hbefore
          | fill f =>
              refine (agree_step_iff hbefore (run_flag limit hwes) he).mpr ⟨?_, ?_⟩
              · exact hsame f (List.mem_append_right _ List.mem_cons_self)
              · rw [(run_position limit es).2, run_nextPosition]
                exact hwithin es f (List.prefix_refl _)
        · exact hes pre hpre

instance (s : Accounts) : Decidable s.Agree := inferInstanceAs (Decidable (_ ∧ _))

/-- A fill of the contestant's market order. -/
def takerFill (isBuy : Bool) (maker : ParticipantID) (priceFp volume : Int64) : MatchedFill :=
  ⟨priceFp, volume, contestant, maker, 1, isBuy, true, maker = contestant⟩

theorem accounts_agree_one_buy :
    (∀ e ∈ [AccountEvent.tickStart, .fill (takerFill true botMM 100 5)], e.Concerns) ∧
      ∀ pre, pre <+: [AccountEvent.tickStart, .fill (takerFill true botMM 100 5)] →
        (run 1000 pre).Agree := by
  have hc : ∀ e ∈ [AccountEvent.tickStart, .fill (takerFill true botMM 100 5)],
      e.Concerns := by
    intro e he
    rcases List.mem_cons.mp he with rfl | he
    · trivial
    · rw [List.mem_singleton.mp he]
      exact Or.inl rfl
  refine ⟨hc, (accounts_agree_iff 1000 _ hc).mpr ⟨?_, ?_⟩⟩
  · intro f hf
    simp only [List.mem_cons, reduceCtorEq, AccountEvent.fill.injEq, List.not_mem_nil, or_false,
      false_or] at hf
    subst hf
    decide
  · intro pre f hpre
    rcases pre with _ | ⟨a, _ | ⟨b, pre⟩⟩
    · obtain ⟨_, heq⟩ := hpre
      simp at heq
    · obtain ⟨_, heq⟩ := hpre
      simp only [List.cons_append, List.nil_append, List.cons.injEq,
        AccountEvent.fill.injEq] at heq
      obtain ⟨rfl, rfl, _⟩ := heq
      decide
    · have := hpre.length_le
      simp at this

/-- The accountants part company in each of the three ways: on a fill that
breaks the position limit, on a sale to oneself, and on an amount of more than
64 bits. -/
theorem accounts_disagree :
    ¬ (run 1000 [.tickStart, .fill (takerFill true botMM 100 1001)]).Agree ∧
      ¬ (run 1000 [.tickStart, .fill (takerFill false contestant 100 5)]).Agree ∧
      ¬ (run 1000 [.tickStart, .fill (takerFill true botMM Int64.maxValue 2)]).Agree := by
  decide +kernel

end Accounts

end VidhiArena.GameMaster
