import VidhiArena.GameMaster.Settlement

/-!
# The contestant's account over whole runs

A run of the tracker is a list of ticks, each a list of contestant fills in the
order in which `apply_fill` is told of them. The account is stated over exact
integers: the sum of the signed volumes, and the starting cash less what was paid
and less one penalty for every tick in which some fill leaves the position over
the limit.

The machine's sums wrap, so they agree with the exact ones modulo their width, at
every step. `Held` says that the exact values are values of the machine.
-/

namespace VidhiArena.GameMaster

/-- A fill of the contestant and the role that `apply_fill` is told. -/
structure ContestantFill where
  fill : MatchedFill
  isTaker : Bool
deriving DecidableEq

namespace ContestantFill

/-! ## The account over exact integers -/

/-- A taker buys when the taker does, a maker when the taker sells. -/
def bought (c : ContestantFill) : Bool :=
  if c.isTaker then c.fill.takerIsBuy else !c.fill.takerIsBuy

def sign (c : ContestantFill) : Int := if c.bought then 1 else -1

/-- `s * v`. -/
def moved (c : ContestantFill) : Int := c.sign * c.fill.volume.toInt

def net (cs : List ContestantFill) : Int := (cs.map moved).sum

/-- The sum of `s * v * p`. -/
def paid (cs : List ContestantFill) : Int := (cs.map fun c => c.moved * c.fill.priceFp.toInt).sum

/-- Some fill of a tick leaves the position over the limit; `before` is the
position at the start of the tick. -/
def Breached (limit before : Int) (tick : List ContestantFill) : Prop :=
  ∃ n < tick.length, limit < (before + net (tick.take (n + 1))).natAbs

instance (limit before : Int) (tick : List ContestantFill) : Decidable (Breached limit before tick) :=
  inferInstanceAs (Decidable (∃ n < _, _))

/-- The number of ticks with a breach. -/
def breaches (limit : Int) : Int → List (List ContestantFill) → Nat
  | _, [] => 0
  | before, tick :: ticks =>
      (if Breached limit before tick then 1 else 0) + breaches limit (before + net tick) ticks

def owed (limit : Int) (ticks : List (List ContestantFill)) : Int :=
  startingCash.toInt - paid ticks.flatten - limitPenalty * breaches limit 0 ticks

@[simp] theorem net_nil : net [] = 0 := rfl

theorem net_append (cs cs' : List ContestantFill) : net (cs ++ cs') = net cs + net cs' := by
  simp [net]

theorem net_snoc (cs : List ContestantFill) (c : ContestantFill) :
    net (cs ++ [c]) = net cs + c.moved := by
  simp [net]

theorem paid_append (cs cs' : List ContestantFill) : paid (cs ++ cs') = paid cs + paid cs' := by
  simp [paid]

theorem paid_snoc (cs : List ContestantFill) (c : ContestantFill) :
    paid (cs ++ [c]) = paid cs + c.moved * c.fill.priceFp.toInt := by
  simp [paid]

theorem not_breached_nil (limit before : Int) : ¬ Breached limit before [] :=
  fun ⟨_, hn, _⟩ => absurd hn (Nat.not_lt_zero _)

/-- A further fill breaches if an earlier one did or if it does. -/
theorem breached_snoc {limit before : Int} {tick : List ContestantFill} {c : ContestantFill} :
    Breached limit before (tick ++ [c]) ↔
      Breached limit before tick ∨ limit < (before + net (tick ++ [c])).natAbs := by
  constructor
  · rintro ⟨n, hn, hover⟩
    rcases Nat.lt_or_ge n tick.length with hlt | hge
    · rw [List.take_append_of_le_length hlt] at hover
      exact Or.inl ⟨n, hlt, hover⟩
    · rw [List.take_of_length_le (by simp; omega)] at hover
      exact Or.inr hover
  · rintro (⟨n, hn, hover⟩ | hover)
    · refine ⟨n, by simp; omega, ?_⟩
      rwa [List.take_append_of_le_length hn]
    · refine ⟨tick.length, by simp, ?_⟩
      rwa [List.take_of_length_le (by simp)]

theorem breaches_snoc {limit : Int} : ∀ (ticks : List (List ContestantFill))
    (tick : List ContestantFill) (before : Int), breaches limit before (ticks ++ [tick]) =
      breaches limit before ticks +
        if Breached limit (before + net ticks.flatten) tick then 1 else 0
  | [], tick, before => by
      show _ + 0 = 0 + _
      rw [List.flatten_nil, net_nil, Int.add_zero, Nat.add_zero, Nat.zero_add]
  | first :: ticks, tick, before => by
      rw [List.cons_append, breaches, breaches_snoc ticks, breaches, List.flatten_cons, net_append,
        Int.add_assoc, Nat.add_assoc]

end ContestantFill

open ContestantFill

/-! ## The tracker -/

namespace PnLTracker

/-- One tick: the flag is reset and the fills are applied. -/
def applyTick (t : PnLTracker) (tick : List ContestantFill) : PnLTracker :=
  tick.foldl (fun t c => t.applyFill c.fill c.isTaker) t.resetTickState

def ofTicks (limit : Int64) (ticks : List (List ContestantFill)) : PnLTracker :=
  ticks.foldl applyTick (create limit)

theorem applyTick_snoc (t : PnLTracker) (tick : List ContestantFill) (c : ContestantFill) :
    t.applyTick (tick ++ [c]) = (t.applyTick tick).applyFill c.fill c.isTaker := by
  unfold applyTick
  rw [List.foldl_append]
  rfl

theorem ofTicks_snoc (limit : Int64) (ticks : List (List ContestantFill))
    (tick : List ContestantFill) :
    ofTicks limit (ticks ++ [tick]) = (ofTicks limit ticks).applyTick tick := by
  unfold ofTicks
  rw [List.foldl_append]
  rfl

theorem toInt_fillSign (c : ContestantFill) : (fillSign c.fill c.isTaker).toInt = c.sign := by
  show (if c.bought then (1 : Int64) else -1).toInt = if c.bought then 1 else -1
  split <;> rfl

/-- The tracker's fields are the exact values, as far as they have room. -/
structure Tracks (t : PnLTracker) (limit : Int64) (position cash : Int) : Prop where
  limit : t.positionLimit = limit
  position : t.position = Int64.ofInt position
  cash : t.cashFp = wrap128 cash

theorem lt_abs64 {limit : Int64} {x : Int} (hx : x.natAbs < 2 ^ 63) :
    limit < abs64 (Int64.ofInt x) ↔ limit.toInt < x.natAbs := by
  have hexact : (Int64.ofInt x).toInt = x := toInt_ofInt_of_fits ⟨by omega, by omega⟩
  have hsign : Int64.ofInt x < 0 ↔ x < 0 := by
    rw [Int64.lt_iff_toInt_lt, hexact, Int64.toInt_zero]
  rw [Int64.lt_iff_toInt_lt, abs64]
  by_cases hneg : x < 0
  · rw [if_pos (hsign.mpr hneg), Int64.toInt_neg, hexact, bmod_of_fits ⟨by omega, by omega⟩]
    omega
  · rw [if_neg (mt hsign.mp hneg), hexact]
    omega

/-- One tick: every fill moves the position and the cash, and the first one that
leaves the position over the limit costs the penalty. -/
theorem Tracks.applyTick {t : PnLTracker} {limit : Int64} {position cash : Int}
    (h : t.Tracks limit position cash) {tick : List ContestantFill}
    (hroom : ∀ n ≤ tick.length, (position + net (tick.take n)).natAbs < 2 ^ 63) :
    (t.applyTick tick).Tracks limit (position + net tick) (cash - paid tick -
        if Breached limit.toInt position tick then limitPenalty else 0) ∧
      ((t.applyTick tick).penaltyChargedThisTick = true ↔ Breached limit.toInt position tick) := by
  induction tick using List.reverseRecOn with
  | nil =>
      refine ⟨⟨h.limit, ?_, ?_⟩, ?_⟩
      · rw [net_nil, Int.add_zero]
        exact h.position
      · rw [if_neg (not_breached_nil _ _)]
        show t.cashFp = wrap128 (cash - 0 - 0)
        rw [Int.sub_zero, Int.sub_zero]
        exact h.cash
      · exact iff_of_false Bool.false_ne_true (not_breached_nil _ _)
  | append_singleton tick c ih =>
      have hlast := hroom (tick ++ [c]).length le_rfl
      rw [List.take_length, net_snoc, ← Int.add_assoc] at hlast
      obtain ⟨⟨hlimit, hpos, hcash⟩, hflag⟩ := ih fun n hn => by
        have hn' := hroom n (by simp; omega)
        rwa [List.take_append_of_le_length hn] at hn'
      have hmoved : c.moved = (fillSign c.fill c.isTaker).toInt * c.fill.volume.toInt := by
        rw [toInt_fillSign]
        rfl
      obtain ⟨hpos', hlimit', hrest⟩ := applyFill_moves (f := c.fill) c.isTaker hpos hcash hmoved
      have hover : (t.applyTick tick).positionLimit <
          abs64 (Int64.ofInt (position + net tick + c.moved)) ↔
            limit.toInt < (position + net tick + c.moved).natAbs := by
        rw [hlimit]
        exact lt_abs64 hlast
      have hbreach : Breached limit.toInt position (tick ++ [c]) ↔ Breached limit.toInt position tick ∨
          limit.toInt < (position + net tick + c.moved).natAbs := by
        rw [breached_snoc, net_snoc, Int.add_assoc]
      rw [applyTick_snoc, net_snoc, paid_snoc, ← Int.add_assoc]
      have hdue : (t.applyTick tick).positionLimit <
            abs64 (Int64.ofInt (position + net tick + c.moved)) ∧
          (t.applyTick tick).penaltyChargedThisTick = false ↔
          limit.toInt < (position + net tick + c.moved).natAbs ∧
            ¬ Breached limit.toInt position tick :=
        and_congr hover (by rw [← Bool.not_eq_true, hflag])
      simp only [hdue] at hrest
      by_cases hbefore : Breached limit.toInt position tick
      · -- the tick has paid its penalty
        rw [if_neg fun hno => hno.2 hbefore] at hrest
        rw [if_pos (hbreach.mpr (Or.inl hbefore))]
        rw [if_pos hbefore] at hcash hrest
        refine ⟨⟨hlimit'.trans hlimit, hpos', ?_⟩, ?_⟩
        · rw [hrest.1]
          congr 1
          omega
        · rw [hrest.2, hflag]
          exact iff_of_true hbefore (hbreach.mpr (Or.inl hbefore))
      · rw [if_neg hbefore, Int.sub_zero] at hrest
        split at hrest
        · -- the penalty of the tick falls on this fill
          rename_i hnow
          have hfirst := hbreach.mpr (Or.inr hnow.1)
          rw [if_pos hfirst]
          refine ⟨⟨hlimit'.trans hlimit, hpos', ?_⟩, iff_of_true hrest.2 hfirst⟩
          rw [hrest.1]
          congr 1
          omega
        · rename_i hnow
          have hnone : ¬ Breached limit.toInt position (tick ++ [c]) := fun hb =>
            (hbreach.mp hb).elim hbefore fun hlater => hnow ⟨hlater, hbefore⟩
          rw [if_neg hnone, Int.sub_zero]
          refine ⟨⟨hlimit'.trans hlimit, hpos', ?_⟩, ?_⟩
          · rw [hrest.1]
            congr 1
            omega
          · rw [hrest.2, hflag]
            exact iff_of_false hbefore hnone

/-! ## A run -/

/-- Every position on the way, and the cash in the end, is a value of the machine;
the smallest position has no absolute value. -/
structure Held (limit : Int64) (ticks : List (List ContestantFill)) : Prop where
  positions : ∀ n ≤ ticks.flatten.length, (net (ticks.flatten.take n)).natAbs < 2 ^ 63
  cash : -2 ^ 127 ≤ owed limit.toInt ticks ∧ owed limit.toInt ticks < 2 ^ 127

/-- The tracker follows the account through any run whose positions have room. -/
theorem tracks_ofTicks {limit : Int64} {ticks : List (List ContestantFill)}
    (hroom : ∀ n ≤ ticks.flatten.length, (net (ticks.flatten.take n)).natAbs < 2 ^ 63) :
    (ofTicks limit ticks).Tracks limit (net ticks.flatten) (owed limit.toInt ticks) := by
  induction ticks using List.reverseRecOn with
  | nil => exact ⟨rfl, rfl, rfl⟩
  | append_singleton ticks tick ih =>
      rw [List.flatten_append, List.flatten_singleton] at hroom ⊢
      have hbefore := ih fun n hn => by
        have hn' := hroom n (by rw [List.length_append]; omega)
        rwa [List.take_append_of_le_length hn] at hn'
      have hduring : ∀ n ≤ tick.length, (net ticks.flatten + net (tick.take n)).natAbs < 2 ^ 63 := by
        intro n hn
        have hn' := hroom (ticks.flatten.length + n) (by rw [List.length_append]; omega)
        rwa [List.take_length_add_append, net_append] at hn'
      rw [ofTicks_snoc, net_append]
      have hafter := (hbefore.applyTick hduring).1
      have howed : owed limit.toInt (ticks ++ [tick]) = owed limit.toInt ticks - paid tick -
          if Breached limit.toInt (net ticks.flatten) tick then limitPenalty else 0 := by
        unfold owed
        rw [List.flatten_append, List.flatten_singleton, paid_append, breaches_snoc, Int.zero_add,
          Int.natCast_add, Int.mul_add]
        split <;> omega
      rw [howed]
      exact hafter

theorem toInt_cashFpSafe (t : PnLTracker) :
    t.cashFpSafe.toInt = max (-2 ^ 63) (min (2 ^ 63 - 1) t.cashFp) := by
  have hmax : Int64.maxValue.toInt = 2 ^ 63 - 1 := rfl
  have hmin : Int64.minValue.toInt = -2 ^ 63 := rfl
  unfold cashFpSafe
  rw [hmax, hmin]
  split
  · rw [hmax]
    omega
  · split
    · rw [hmin]
      omega
    · rw [toInt_ofInt_of_fits ⟨by omega, by omega⟩]
      omega

/-- The account of a run, whatever the limit and however its fills are spread
over the ticks. -/
theorem account_right (limit : Int64) (ticks : List (List ContestantFill))
    (hheld : Held limit ticks) :
    (ofTicks limit ticks).position.toInt = net ticks.flatten ∧
      (ofTicks limit ticks).cashFp = owed limit.toInt ticks ∧
      (ofTicks limit ticks).cashFpSafe.toInt =
        max (-2 ^ 63) (min (2 ^ 63 - 1) (owed limit.toInt ticks)) := by
  obtain ⟨-, hpos, hcash⟩ := tracks_ofTicks hheld.positions
  have hexact : wrap128 (owed limit.toInt ticks) = owed limit.toInt ticks := by
    obtain ⟨hlo, hhi⟩ := hheld.cash
    exact Int.bmod_eq_of_le (by omega) (by omega)
  rw [hexact] at hcash
  refine ⟨?_, hcash, ?_⟩
  · have hlast := hheld.positions _ le_rfl
    rw [List.take_length] at hlast
    rw [hpos]
    exact toInt_ofInt_of_fits ⟨by omega, by omega⟩
  · rw [toInt_cashFpSafe, hcash]

/-- One tick that ends over a limit of 100 and one that comes back to it. -/
theorem account_right_back_at_limit :
    let buy : MatchedFill := ⟨100000000, 150, contestant, botMM, 7, true, true, false⟩
    let sell : MatchedFill := ⟨101000000, 50, botSNIPER, contestant, 9, true, false, true⟩
    let ticks : List (List ContestantFill) := [[⟨buy, true⟩], [⟨sell, false⟩], []]
    (ofTicks 100 ticks).position.toInt = net ticks.flatten ∧
      (ofTicks 100 ticks).cashFp = owed (100 : Int64).toInt ticks ∧
      (ofTicks 100 ticks).cashFpSafe.toInt =
        max (-2 ^ 63) (min (2 ^ 63 - 1) (owed (100 : Int64).toInt ticks)) := by
  intro buy sell ticks
  exact account_right 100 ticks ⟨by decide, by decide⟩

end PnLTracker

/-! ## Step 7 -/

/-- What step 7 passes to `apply_fill`. -/
def contestantFills (fs : List MatchedFill) : List ContestantFill :=
  (fs.filter fun f => f.takerParticipant = contestant ∨ f.makerParticipant = contestant).map
    fun f => ⟨f, f.takerParticipant = contestant⟩

theorem Master.applyFills_eq (t : PnLTracker) (fs : List MatchedFill) :
    applyFills t.resetTickState fs = t.applyTick (contestantFills fs) := by
  unfold applyFills PnLTracker.applyTick contestantFills
  generalize t.resetTickState = t
  induction fs generalizing t with
  | nil => rfl
  | cons f fs ih =>
      rw [List.foldl_cons, ih]
      by_cases hf : f.takerParticipant = contestant ∨ f.makerParticipant = contestant
      · rw [List.filter_cons_of_pos (by simpa using hf), List.map_cons, List.foldl_cons,
          if_pos (by simpa using hf)]
      · rw [List.filter_cons_of_neg (by simpa using hf), if_neg (by simpa using hf)]

end VidhiArena.GameMaster
