import Mathlib.Algebra.Order.Group.Abs
import Mathlib.Tactic.Ring
import VidhiArena.Forge.LocalGM

/-!
# The position limit of the Python Game Master

An order is held back when the position has reached the limit already. How much the order
then takes is not looked at, so a single order may carry the position past the limit, as
far as the book is deep. `withinLimit_iff` says which runs stay within it: in those, every
order that takes shares takes no more than there is room for.

The bots are any calls with volumes of one share or more, which is what `max(1, ...)` makes
of every volume of theirs.
-/

namespace VidhiArena.Forge.LocalGM

open Foundation OrderedMap

/-! ## Runs -/

/-- A call of a bot. -/
inductive BotCall where
  | addOrder (side : Side) (price volume : Int)
  | marketOrder (side : Side) (volume : Int)
  deriving DecidableEq

namespace BotCall

def volume : BotCall → Int
  | addOrder _ _ volume => volume
  | marketOrder _ volume => volume

def apply (lob : SimpleLOB) : BotCall → SimpleLOB
  | addOrder side price volume => lob.addOrder side price volume
  | marketOrder side volume => (lob.marketOrder side volume).2

end BotCall

/-- What `main` keeps between the steps of a tick. -/
structure GM where
  desk : Desk
  snap : Snapshot

def GM.new : GM := ⟨.new, SimpleLOB.new.snapshot⟩

inductive Move where
  | bot (call : BotCall)
  /-- the snapshot for the contestant, and `fill_count = 0` -/
  | refresh
  | order (o : ContestantOrder)
  deriving DecidableEq

namespace Move

/-- The move is made with a positive volume. -/
def Positive : Move → Prop
  | bot call => 0 < call.volume
  | refresh => True
  | order o => 0 < o.volume

instance : ∀ m, Decidable (Positive m)
  | bot _ => inferInstanceAs (Decidable (_ < _))
  | refresh => inferInstanceAs (Decidable True)
  | order _ => inferInstanceAs (Decidable (_ < _))

end Move

def GM.step (g : GM) : Move → GM
  | .bot call => { g with desk := { g.desk with lob := call.apply g.desk.lob } }
  | .refresh => { desk := { g.desk with fillCount := 0 }, snap := g.desk.lob.snapshot }
  | .order o => { g with desk := (g.desk.process g.snap o).2 }

structure Tick where
  calls : List BotCall
  orders : List ContestantOrder
  deriving DecidableEq

def Tick.moves (t : Tick) : List Move :=
  t.calls.map .bot ++ .refresh :: t.orders.map .order

/-- The seeding of the book, and the ticks. -/
def moves (seed : List BotCall) (ticks : List Tick) : List Move :=
  seed.map .bot ++ ticks.flatMap Tick.moves

/-- After every move of the run the position is within the limit. -/
def WithinLimit (seed : List BotCall) (ticks : List Tick) : Prop :=
  ∀ pre, pre <+: moves seed ticks → |(pre.foldl GM.step GM.new).desk.position| ≤ POSITION_LIMIT

/-! ## The condition -/

/-- `1` for a purchase, `-1` for a sale. -/
def Side.sign : Side → Int
  | buy => 1
  | sell => -1

/-- How far the position is from the limit on the side of an order. -/
def Desk.room (d : Desk) (side : Side) : Int := POSITION_LIMIT - side.sign * d.position

/-- The condition on a move: an order that is neither held back nor rests finds no more
shares than there is room for. -/
def Fits (g : GM) : Move → Prop
  | .bot _ => True
  | .refresh => True
  | .order o => g.desk.HeldBack o.side ∨ ¬ o.Marketable g.snap ∨
      min o.volume (stock (g.desk.lob.levels o.side)) ≤ g.desk.room o.side

instance (g : GM) : ∀ m, Decidable (Fits g m)
  | .bot _ => inferInstanceAs (Decidable True)
  | .refresh => inferInstanceAs (Decidable True)
  | .order _ => inferInstanceAs (Decidable (_ ∨ _))

/-! ## Levels are positive -/

/-- Every level of the side has shares. -/
def PriceMap.Positive (book : PriceMap) : Prop := ∀ p ∈ keys book.entries, 0 < book.volume p

def SimpleLOB.Positive (lob : SimpleLOB) : Prop := ∀ side, (lob.book side).Positive

theorem PriceMap.Positive.volume_nonneg {book : PriceMap} (h : book.Positive) (p : Int) :
    0 ≤ book.volume p := by
  by_cases hp : p ∈ keys book.entries
  · exact (h p hp).le
  · rw [PriceMap.volume, find_eq_none.mpr hp]
    exact le_rfl

theorem PriceMap.Positive.set {book : PriceMap} (h : book.Positive) (p : Int) {volume : Int}
    (hvolume : 0 < volume) : (book.set p volume).Positive := by
  intro q hq
  rw [PriceMap.volume_set]
  split
  · exact hvolume
  · rename_i hne
    refine h q ?_
    unfold PriceMap.set at hq
    rw [keys_modify, keys_push] at hq
    split at hq
    · exact hq
    · rcases List.mem_append.mp hq with hq | hq
      · exact hq
      · exact absurd (List.mem_singleton.mp hq).symm hne

theorem PriceMap.Positive.delete {book : PriceMap} (h : book.Positive) (p : Int) :
    (book.delete p).Positive := by
  intro q hq
  unfold PriceMap.delete at hq
  rw [keys_erase, List.mem_filter, decide_eq_true_eq] at hq
  rw [PriceMap.volume_delete, if_neg (Ne.symm hq.2)]
  exact h q hq.1

namespace SimpleLOB

variable {lob : SimpleLOB}

theorem positive_new : SimpleLOB.new.Positive := by
  intro side p hp
  cases side <;> exact absurd hp List.not_mem_nil

theorem Positive.of_book {lob' : SimpleLOB} (h : lob.Positive) (side : Side)
    (hside : (lob'.book side).Positive) (hother : lob'.book side.other = lob.book side.other) :
    lob'.Positive := by
  intro s
  by_cases hs : s = side
  · exact hs ▸ hside
  · obtain rfl := Side.eq_other hs
    rw [hother]
    exact h side.other

theorem Positive.addOrder (h : lob.Positive) (side : Side) (price : Int) {volume : Int}
    (hvolume : 0 < volume) : (lob.addOrder side price volume).Positive := by
  refine h.of_book side ?_ (by cases side <;> rfl)
  rw [SimpleLOB.addOrder, book_setBook]
  exact (h side).set price (add_pos_of_nonneg_of_pos ((h side).volume_nonneg price) hvolume)

theorem Positive.fillLevel (h : lob.Positive) (side : Side) (p filled : Int) :
    (lob.fillLevel side p filled).Positive := by
  refine h.of_book side ?_ (by cases side <;> rfl)
  rw [book_fillLevel]
  split
  · exact (h side).delete p
  · rename_i havail
    exact (h side).set p (not_le.mp havail)

theorem Positive.takeLevels (side : Side) : ∀ (prices : List Int) (remaining : Int)
    {lob : SimpleLOB}, lob.Positive → (takeLevels side prices remaining lob).2.Positive
  | [], _, _, h => h
  | p :: prices, remaining, lob, h => by
      rw [SimpleLOB.takeLevels]
      split
      · exact h
      · exact Positive.takeLevels side prices _ (h.fillLevel _ _ _)

theorem Positive.marketOrder (h : lob.Positive) (side : Side) (volume : Int) :
    (lob.marketOrder side volume).2.Positive := Positive.takeLevels side _ _ h

theorem Positive.apply (h : lob.Positive) {call : BotCall} (hvolume : 0 < call.volume) :
    (call.apply lob).Positive := by
  cases call with
  | addOrder side price volume => exact h.addOrder side price hvolume
  | marketOrder side volume => exact h.marketOrder side volume

theorem Positive.taken (h : lob.Positive) (side : Side) {volume : Int} (hvolume : 0 ≤ volume) :
    ((lob.marketOrder side volume).1.map Fill.volume).sum =
      min volume (stock (lob.levels side)) := by
  rw [marketOrder_fills, List.map_map, ← sweep_total ?_ hvolume]
  · rfl
  · intro x hx
    obtain ⟨p, -, rfl⟩ := List.mem_map.mp hx
    exact (h side.other).volume_nonneg p

end SimpleLOB

/-! ## The position -/

theorem foldl_account (side : Side) : ∀ (fills : List Fill) (d : Desk),
    (fills.foldl (Desk.account side) d).position =
        d.position + side.sign * (fills.map Fill.volume).sum ∧
      (fills.foldl (Desk.account side) d).lob = d.lob
  | [], d => by simp
  | f :: fills, d => by
      obtain ⟨hposition, hlob⟩ := foldl_account side fills (Desk.account side d f)
      rw [List.foldl_cons, hposition, hlob, List.map_cons, List.sum_cons]
      cases side with
      | buy =>
          refine ⟨?_, rfl⟩
          simp only [Desk.account, Side.sign]
          ring
      | sell =>
          refine ⟨?_, rfl⟩
          simp only [Desk.account, Side.sign]
          ring

/-- What the run keeps. -/
structure Sound (g : GM) : Prop where
  positive : g.desk.lob.Positive
  within : |g.desk.position| ≤ POSITION_LIMIT

theorem abs_add_sign_le {position taken : Int} (hwithin : |position| ≤ POSITION_LIMIT)
    (htaken : 0 ≤ taken) (side : Side) :
    |position + side.sign * taken| ≤ POSITION_LIMIT ↔
      taken ≤ POSITION_LIMIT - side.sign * position := by
  rw [abs_le] at hwithin ⊢
  cases side with
  | buy => simp only [Side.sign]; omega
  | sell => simp only [Side.sign]; omega

theorem process_held {d : Desk} {o : ContestantOrder} (h : d.HeldBack o.side) (snap : Snapshot) :
    (d.process snap o).2 = d := by
  unfold Desk.process
  rw [if_pos h]

theorem process_marketable {snap : Snapshot} {d : Desk} {o : ContestantOrder}
    (hheld : ¬ d.HeldBack o.side) (hmarketable : o.Marketable snap) (hpositive : d.lob.Positive)
    (hvolume : 0 < o.volume) :
    (d.process snap o).2.position =
        d.position + o.side.sign * min o.volume (stock (d.lob.levels o.side)) ∧
      (d.process snap o).2.lob = (d.lob.marketOrder o.side o.volume).2 := by
  unfold Desk.process
  rw [if_neg hheld, if_pos hmarketable, ← hpositive.taken o.side hvolume.le]
  exact foldl_account o.side _ _

theorem process_resting {snap : Snapshot} {d : Desk} {o : ContestantOrder}
    (hheld : ¬ d.HeldBack o.side) (hmarketable : ¬ o.Marketable snap) :
    ∃ price, (d.process snap o).2 = { d with lob := d.lob.addOrder o.side price o.volume } := by
  unfold Desk.process
  rw [if_neg hheld, if_neg hmarketable]
  cases o with
  | market side volume => exact absurd trivial hmarketable
  | limit side price volume => exact ⟨price, rfl⟩

/-- The step lemma: where the position was within the limit, it stays so if and only if the
move fits. -/
theorem step_within {g : GM} (h : Sound g) {m : Move} (hm : m.Positive) :
    (g.step m).desk.lob.Positive ∧
      (|(g.step m).desk.position| ≤ POSITION_LIMIT ↔ Fits g m) := by
  cases m with
  | bot call => exact ⟨h.positive.apply hm, iff_of_true h.within trivial⟩
  | refresh => exact ⟨h.positive, iff_of_true h.within trivial⟩
  | order o =>
      rw [GM.step, Fits]
      by_cases hheld : g.desk.HeldBack o.side
      · rw [process_held hheld]
        exact ⟨h.positive, iff_of_true h.within (Or.inl hheld)⟩
      · rw [or_iff_right hheld]
        by_cases hmarketable : o.Marketable g.snap
        · obtain ⟨hposition, hlob⟩ := process_marketable hheld hmarketable h.positive hm
          rw [hposition, hlob, or_iff_right (not_not.mpr hmarketable)]
          refine ⟨h.positive.marketOrder _ _, abs_add_sign_le h.within (le_min hm.le ?_) _⟩
          refine List.sum_nonneg fun n hn => ?_
          obtain ⟨x, hx, rfl⟩ := List.mem_map.mp hn
          obtain ⟨p, -, rfl⟩ := List.mem_map.mp hx
          exact (h.positive _).volume_nonneg p
        · obtain ⟨price, hdesk⟩ := process_resting hheld hmarketable
          rw [hdesk]
          exact ⟨h.positive.addOrder _ _ hm, iff_of_true h.within (Or.inl hmarketable)⟩

theorem withinLimit_iff {seed : List BotCall} {ticks : List Tick}
    (hpositive : ∀ m ∈ moves seed ticks, m.Positive) :
    WithinLimit seed ticks ↔ Along GM.step Fits GM.new (moves seed ticks) := by
  have hwithin : ∀ g, Sound g → |g.desk.position| ≤ POSITION_LIMIT := fun _ h => h.within
  have hkeep : ∀ g m, Sound g → m.Positive → Fits g m → Sound (g.step m) := by
    intro g m h hm hfits
    obtain ⟨hpos, hiff⟩ := step_within h hm
    exact ⟨hpos, hiff.mpr hfits⟩
  have hfits : ∀ g m, Sound g → m.Positive →
      |(g.step m).desk.position| ≤ POSITION_LIMIT → Fits g m :=
    fun g m h hm => (step_within h hm).2.mp
  exact foldl_obs_iff_along hwithin hkeep hfits _ ⟨SimpleLOB.positive_new, by decide⟩
    (along_of_forall hpositive)

end VidhiArena.Forge.LocalGM
