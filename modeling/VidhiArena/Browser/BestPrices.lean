import VidhiArena.Browser.Matching
import VidhiArena.Foundation.Faulting

/-!
# The cached best prices

`_bestBid` and `_bestAsk` replace a scan of all keys. `addOrder` moves them with a
better price, a deletion of the best level scans again, and a side found empty by
`_rebuildBest` gets a sentinel next to `BASE_PRICE`. The sentinel is not the price of
an order, and `addOrder` compares with it: the first order of an empty side is the
best one only if it is not behind the cached value.
-/

namespace VidhiArena.Browser

open Foundation Foundation.OrderedMap

/-! ## The best of some keys -/

namespace Side

variable {side : Side} {ks : List Int} {key best a b c : Int}

theorem before_irrefl : ¬ side.before a a := by
  cases side <;> exact lt_irrefl a

theorem before_trans (hab : side.before a b) (hbc : side.before b c) : side.before a c := by
  cases side with
  | buy => exact Int.lt_trans hbc hab
  | sell => exact Int.lt_trans hab hbc

theorem not_before_trans (hab : ¬ side.before a b) (hbc : ¬ side.before b c) :
    ¬ side.before a c := by
  cases side with
  | buy => exact Int.not_lt.mpr (Int.le_trans (Int.not_lt.mp hab) (Int.not_lt.mp hbc))
  | sell => exact Int.not_lt.mpr (Int.le_trans (Int.not_lt.mp hbc) (Int.not_lt.mp hab))

theorem eq_of_not_before (hab : ¬ side.before a b) (hba : ¬ side.before b a) : a = b := by
  cases side with
  | buy => exact Int.le_antisymm (Int.not_lt.mp hab) (Int.not_lt.mp hba)
  | sell => exact Int.le_antisymm (Int.not_lt.mp hba) (Int.not_lt.mp hab)

/-- The result of a full scan: a key that no key is better than. -/
structure IsBest (side : Side) (ks : List Int) (best : Int) : Prop where
  mem : best ∈ ks
  unbeaten : ∀ k ∈ ks, ¬ side.before k best

theorem IsBest.unique (h : side.IsBest ks a) (h' : side.IsBest ks b) : a = b :=
  eq_of_not_before (h'.unbeaten a h.mem) (h.unbeaten b h'.mem)

theorem isBest_singleton : side.IsBest [key] best ↔ best = key := by
  constructor
  · exact fun h => List.mem_singleton.mp h.mem
  · rintro rfl
    exact ⟨List.mem_singleton_self _, fun k hk => List.mem_singleton.mp hk ▸ before_irrefl⟩

theorem bestOf_isBest (hne : ks ≠ []) :
    ∃ best, side.bestOf ks = some best ∧ side.IsBest ks best := by
  obtain ⟨key, keys, rfl⟩ := List.exists_cons_of_ne_nil hne
  refine ⟨_, rfl, ?_⟩
  clear hne
  induction keys generalizing key with
  | nil => exact isBest_singleton.mpr rfl
  | cons x keys ih =>
      rw [List.foldl_cons]
      by_cases hx : side.before x key
      · rw [if_pos hx]
        obtain ⟨hmem, hunbeaten⟩ := ih x
        refine ⟨List.mem_cons_of_mem _ hmem, List.forall_mem_cons.mpr ⟨?_, hunbeaten⟩⟩
        exact fun hkey => hunbeaten x List.mem_cons_self (before_trans hx hkey)
      · rw [if_neg hx]
        obtain ⟨hmem, hunbeaten⟩ := ih key
        obtain ⟨hkey, hkeys⟩ := List.forall_mem_cons.mp hunbeaten
        refine ⟨?_, List.forall_mem_cons.mpr ⟨hkey, List.forall_mem_cons.mpr ⟨?_, hkeys⟩⟩⟩
        · rcases List.mem_cons.mp hmem with heq | hmem
          · rw [heq]
            exact List.mem_cons_self
          · exact List.mem_cons_of_mem _ (List.mem_cons_of_mem _ hmem)
        · exact not_before_trans hx hkey

theorem IsBest.push (h : side.IsBest ks best) (key : Int) :
    side.IsBest (if key ∈ ks then ks else ks ++ [key])
      (if side.before key best then key else best) := by
  by_cases hmem : key ∈ ks
  · rw [if_pos hmem, if_neg (h.unbeaten key hmem)]
    exact h
  · rw [if_neg hmem]
    split
    · rename_i hbefore
      refine ⟨List.mem_append_right _ (List.mem_singleton_self _), fun k hk hk' => ?_⟩
      rcases List.mem_append.mp hk with hk | hk
      · exact h.unbeaten k hk (before_trans hk' hbefore)
      · exact before_irrefl (List.mem_singleton.mp hk ▸ hk')
    · rename_i hbehind
      refine ⟨List.mem_append_left _ h.mem, fun k hk => ?_⟩
      rcases List.mem_append.mp hk with hk | hk
      · exact h.unbeaten k hk
      · exact List.mem_singleton.mp hk ▸ hbehind

/-- Without a key that is not the best one, the best one is still there. -/
theorem IsBest.filter (h : side.IsBest ks best) (hne : best ≠ key) :
    side.IsBest (ks.filter (· ≠ key)) best :=
  ⟨List.mem_filter.mpr ⟨h.mem, decide_eq_true hne⟩,
    fun k hk => h.unbeaten k (List.mem_of_mem_filter hk)⟩

end Side

namespace PersistentLOB

variable {ρ : Type} {base : Int} {lob : PersistentLOB ρ}

/-! ## Exactness -/

/-- The O(1) answers agree with the full scan. -/
structure BestExact (base : Int) (lob : PersistentLOB ρ) : Prop where
  bid : lob.bids ≠ [] → ∃ best, lob.bestBid base = some best ∧
    best ∈ keys lob.bids ∧ ∀ k ∈ keys lob.bids, k ≤ best
  ask : lob.asks ≠ [] → ∃ best, lob.bestAsk base = some best ∧
    best ∈ keys lob.asks ∧ ∀ k ∈ keys lob.asks, best ≤ k

def cached (lob : PersistentLOB ρ) : Side → Option Int
  | .buy => lob._bestBid
  | .sell => lob._bestAsk

/-- What `_rebuildBest` gives an empty side. -/
def sentinel (base : Int) : Side → Int
  | .buy => base - 1
  | .sell => base + 1

/-- The cached value of one side is the best key, if there is one. -/
def CacheExact (lob : PersistentLOB ρ) (side : Side) : Prop :=
  lob.book side ≠ [] → ∃ best, lob.cached side = some best ∧
    side.IsBest (keys (lob.book side)) best

theorem bestExact_iff : lob.BestExact base ↔ ∀ side, lob.CacheExact side := by
  have hbid : lob.bids ≠ [] → lob.bestBid base = lob._bestBid := fun h =>
    if_neg (mt List.isEmpty_iff.mp h)
  have hask : lob.asks ≠ [] → lob.bestAsk base = lob._bestAsk := fun h =>
    if_neg (mt List.isEmpty_iff.mp h)
  constructor
  · intro h side hne
    cases side with
    | buy =>
        obtain ⟨best, hbest, hmem, hle⟩ := h.bid hne
        exact ⟨best, (hbid hne).symm.trans hbest, hmem, fun k hk => Int.not_lt.mpr (hle k hk)⟩
    | sell =>
        obtain ⟨best, hbest, hmem, hle⟩ := h.ask hne
        exact ⟨best, (hask hne).symm.trans hbest, hmem, fun k hk => Int.not_lt.mpr (hle k hk)⟩
  · intro h
    constructor
    · intro hne
      obtain ⟨best, hbest, hmem, hunbeaten⟩ := h .buy hne
      exact ⟨best, (hbid hne).trans hbest, hmem, fun k hk => Int.not_lt.mp (hunbeaten k hk)⟩
    · intro hne
      obtain ⟨best, hbest, hmem, hunbeaten⟩ := h .sell hne
      exact ⟨best, (hask hne).trans hbest, hmem, fun k hk => Int.not_lt.mp (hunbeaten k hk)⟩

/-- The condition on a call: an order added to an empty side is not priced behind the
cached value. -/
def InFront (lob : PersistentLOB ρ) : BookCall ρ → Prop
  | .addOrder side key _ _ => lob.book side = [] →
      ∀ best ∈ lob.cached side, ¬ side.before best key
  | .cancelOrder .. => True
  | .marketOrder .. => True

@[simp] theorem cached_setBook (lob : PersistentLOB ρ) (side s : Side) (book : Levels ρ) :
    (lob.setBook side book).cached s = lob.cached s := by
  cases side <;> cases s <;> rfl

@[simp] theorem cached_recordTrades (fills : List (Fill ρ)) (lob : PersistentLOB ρ) (s : Side) :
    (recordTrades fills lob).cached s = lob.cached s := by
  unfold recordTrades
  split
  · rfl
  · cases s <;> rfl

theorem cached_addOrder (lob : PersistentLOB ρ) (side : Side) (key volume : Int)
    (participantId : ρ) : (lob.addOrder side key volume participantId).2.cached side =
      if side.improves key (lob.cached side) then some key else lob.cached side := by
  cases side <;> rfl

theorem cached_addOrder_other (lob : PersistentLOB ρ) {side s : Side} (h : s ≠ side)
    (key volume : Int) (participantId : ρ) :
    (lob.addOrder side key volume participantId).2.cached s = lob.cached s := by
  cases side <;> cases s <;> first | rfl | exact absurd rfl h

theorem isBest_iff (side : Side) (key : Int) :
    lob.isBest side key ↔ lob.cached side = some key := by
  cases side <;> exact Iff.rfl

/-! ## What `cancelOrder` and `marketOrder` do to a book -/

/-- `P` survives the four things that the two operations are made of. -/
structure Keeps (base : Int) (P : PersistentLOB ρ → Prop) : Prop where
  rebuild : ∀ lob, P (_rebuildBest base lob)
  erase : ∀ lob side key, P lob → ¬ lob.isBest side key →
    P (lob.setBook side (erase (lob.book side) key))
  write : ∀ lob side key (level : Level ρ), P lob →
    P (lob.setBook side (modify (lob.book side) key fun _ => level))
  trades : ∀ lob fills, P lob → P (recordTrades fills lob)

namespace Keeps

variable {P : PersistentLOB ρ → Prop}

theorem cancelOrder (hP : Keeps base P) (h : P lob) (side : Side) (key : Int) (orderId : Nat) :
    P (cancelOrder base lob side key orderId).2 := by
  rcases cancelOrder_cases base lob side key orderId with
    ⟨heq, -⟩ | ⟨level, order, -, -, ⟨-, heq⟩ | ⟨-, heq⟩⟩
  · rw [heq]
    exact h
  · rw [heq]
    by_cases hbest : lob.isBest side key
    · simp only [if_pos hbest]
      exact hP.rebuild _
    · simp only [if_neg hbest]
      exact hP.erase lob side key h hbest
  · rw [heq]
    exact hP.write lob side key _ h

theorem takeLevels (hP : Keeps base P) (side : Side) (participantId : ρ) :
    ∀ (prices : List Int) (remaining : Int) {lob : PersistentLOB ρ}, P lob →
      P (takeLevels base side participantId prices remaining lob).2 := by
  intro prices
  induction prices with
  | nil => exact fun _ _ h => h
  | cons price prices ih =>
      intro remaining lob h
      unfold PersistentLOB.takeLevels
      split
      · cases find (lob.book side.other) price with
        | none => exact h
        | some level =>
            refine ih _ ?_
            split
            · exact hP.rebuild _
            · exact hP.write lob side.other price _ h
      · exact h

theorem marketOrder (hP : Keeps base P) (h : P lob) (side : Side) (volume : Int)
    (participantId : ρ) : P (marketOrder base lob side volume participantId).2 :=
  hP.trades _ _ (hP.takeLevels side participantId (lob.sortedPrices side) volume h)

end Keeps

/-! ## Rebuilding -/

theorem cached_rebuild (base : Int) (lob : PersistentLOB ρ) (side : Side) :
    (_rebuildBest base lob).cached side =
      if lob.book side = [] then some (sentinel base side)
      else side.bestOf (keys (lob.book side)) := by
  simp only [← List.isEmpty_iff]
  cases side <;> rfl

theorem rebuild_cached (base : Int) (lob : PersistentLOB ρ) (side : Side) :
    (_rebuildBest base lob).CacheExact side := by
  unfold CacheExact
  rw [book_rebuildBest, cached_rebuild]
  intro hne
  rw [if_neg hne]
  exact Side.bestOf_isBest (mt keys_eq_nil.mp hne)

theorem CacheExact.congr {lob' : PersistentLOB ρ} {side : Side} (h : lob.CacheExact side)
    (hkeys : keys (lob'.book side) = keys (lob.book side))
    (hcached : lob'.cached side = lob.cached side) : lob'.CacheExact side := by
  intro hne
  rw [hcached, hkeys]
  exact h fun hnil => hne (keys_eq_nil.mp (hkeys.trans (keys_eq_nil.mpr hnil)))

/-! ## Adding -/

theorem keys_addOrder (lob : PersistentLOB ρ) (side : Side) (key volume : Int)
    (participantId : ρ) : keys ((lob.addOrder side key volume participantId).2.book side) =
      if key ∈ keys (lob.book side) then keys (lob.book side)
      else keys (lob.book side) ++ [key] := by
  rw [addOrder_book, keys_modify, keys_push]

theorem addOrder_ne_nil (lob : PersistentLOB ρ) (side : Side) (key volume : Int)
    (participantId : ρ) : (lob.addOrder side key volume participantId).2.book side ≠ [] := by
  intro h
  have := (keys_addOrder lob side key volume participantId).symm.trans (keys_eq_nil.mpr h)
  split at this
  · rename_i hmem
    rw [this] at hmem
    cases hmem
  · exact List.append_ne_nil_of_right_ne_nil _ (List.cons_ne_nil _ _) this

/-- The first key of an empty side is cached if and only if the cached value is not
better. -/
theorem first_key_iff {side : Side} {key : Int} {value : Option Int} :
    (∃ best, (if side.improves key value then some key else value) = some best ∧
      side.IsBest [key] best) ↔ ∀ best ∈ value, ¬ side.before best key := by
  simp only [Side.isBest_singleton, exists_eq_right]
  cases value with
  | none => exact iff_of_true (if_pos trivial) fun best hbest => by cases hbest
  | some old =>
      simp only [Option.mem_some_iff, forall_eq']
      by_cases hbefore : side.improves key (some old)
      · rw [if_pos hbefore]
        exact iff_of_true rfl fun hbehind => Side.before_irrefl (Side.before_trans hbefore hbehind)
      · rw [if_neg hbefore]
        constructor
        · intro heq
          rw [Option.some.inj heq]
          exact Side.before_irrefl
        · exact fun hbehind => congrArg some (Side.eq_of_not_before hbehind hbefore)

/-- An order keeps the caches exact if and only if it is in front. -/
theorem addOrder_cached_iff (h : ∀ side, lob.CacheExact side) (side : Side) (key volume : Int)
    (participantId : ρ) :
    (∀ s, (lob.addOrder side key volume participantId).2.CacheExact s) ↔
      lob.InFront (.addOrder side key volume participantId) := by
  have hkeys := keys_addOrder lob side key volume participantId
  have hcached := cached_addOrder lob side key volume participantId
  constructor
  · intro hall hnil
    have hbest := hall side (addOrder_ne_nil lob side key volume participantId)
    rw [hkeys, hcached, hnil] at hbest
    exact first_key_iff.mp hbest
  · intro hfront s
    by_cases hs : s = side
    · subst hs
      intro _
      rw [hkeys, hcached]
      by_cases hnil : lob.book s = []
      · rw [hnil]
        exact first_key_iff.mpr (hfront hnil)
      · obtain ⟨best, hbest, hold⟩ := h s hnil
        refine ⟨_, ?_, hold.push key⟩
        rw [hbest]
        change (if s.before key best then some key else some best) = _
        split <;> rfl
    · refine (h s).congr ?_ (cached_addOrder_other lob hs key volume participantId)
      rw [addOrder_book_other lob hs]

/-! ## Cancelling and matching -/

theorem cached_erase (h : ∀ side, lob.CacheExact side) {side : Side} {key : Int}
    (hnot : ¬ lob.isBest side key) :
    ∀ s, (lob.setBook side (erase (lob.book side) key)).CacheExact s := by
  intro s
  by_cases hs : s = side
  · subst hs
    unfold CacheExact
    rw [book_setBook, cached_setBook, keys_erase]
    intro hleft
    obtain ⟨best, hbest, hold⟩ := h s fun hnil => hleft (by rw [hnil]; rfl)
    refine ⟨best, hbest, hold.filter fun heq => hnot ?_⟩
    rw [isBest_iff, hbest, heq]
  · refine (h s).congr ?_ (cached_setBook lob side s _)
    rw [book_setBook_other lob hs]

theorem keys_book_modify (lob : PersistentLOB ρ) (side : Side) (key : Int)
    (f : Level ρ → Level ρ) (s : Side) :
    keys ((lob.setBook side (modify (lob.book side) key f)).book s) = keys (lob.book s) := by
  by_cases hs : s = side
  · rw [hs, book_setBook, keys_modify]
  · rw [book_setBook_other lob hs]

theorem keeps_cached : Keeps base fun lob : PersistentLOB ρ => ∀ side, lob.CacheExact side where
  rebuild := rebuild_cached base
  erase := fun _ _ _ h hnot => cached_erase h hnot
  write := fun lob side key _ h s =>
    (h s).congr (keys_book_modify lob side key _ s) (cached_setBook lob side s _)
  trades := fun lob fills h s =>
    (h s).congr (congrArg keys (book_recordTrades fills lob s)) (cached_recordTrades fills lob s)

/-! ## Runs -/

/-- One call: only an order added behind the cached value of an empty side breaks the
caches. -/
theorem apply_exact_iff (h : lob.BestExact base) (call : BookCall ρ) :
    (apply base lob call).2.BestExact base ↔ lob.InFront call := by
  have hc := bestExact_iff.mp h
  rw [bestExact_iff]
  cases call with
  | addOrder side key volume participantId =>
      exact addOrder_cached_iff hc side key volume participantId
  | cancelOrder side key orderId =>
      exact iff_of_true (keeps_cached.cancelOrder hc side key orderId) trivial
  | marketOrder side volume participantId =>
      exact iff_of_true (keeps_cached.marketOrder hc side volume participantId) trivial

def run (base : Int) (calls : List (BookCall ρ)) : PersistentLOB ρ :=
  calls.foldl (fun lob call => (apply base lob call).2) (new base)

/-- The cached best prices are exact in every state of a run if and only if no order of
the run is added to an empty side behind its cached value. -/
theorem best_exact_iff (base : Int) (calls : List (BookCall ρ)) :
    (∀ pre, pre <+: calls → (run base pre).BestExact base) ↔
      Along (fun lob call => (apply base lob call).2) InFront (new base) calls := by
  have hstep : ∀ (lob : PersistentLOB ρ) (call : BookCall ρ), lob.BestExact base →
      ((apply base lob call).2.BestExact base ↔ lob.InFront call) :=
    fun _ call h => apply_exact_iff h call
  exact foldl_inv_iff hstep calls ⟨fun h => absurd rfl h, fun h => absurd rfl h⟩

/-- The sentinel outlives the empty side: a bid five ticks below `BASE_PRICE` is
cancelled and added again, and the best bid is a tick below `BASE_PRICE`, where nobody
bids. -/
theorem sentinel_quoted :
    let lob : PersistentLOB String := run 150000 [.addOrder .buy 149995 10 "CONTESTANT",
      .cancelOrder .buy 149995 1, .addOrder .buy 149995 10 "CONTESTANT"]
    keys lob.bids = [149995] ∧ lob.bestBid 150000 = some 149999 := by
  decide

/-! ## What an empty side has cached -/

/-- The cached value of a side is infinite, the sentinel or the price of a level. -/
def Known (base : Int) (lob : PersistentLOB ρ) (side : Side) : Prop :=
  lob.cached side = none ∨ lob.cached side = some (sentinel base side) ∨
    ∃ k ∈ keys (lob.book side), lob.cached side = some k

theorem known_rebuild (base : Int) (lob : PersistentLOB ρ) (side : Side) :
    (_rebuildBest base lob).Known base side := by
  by_cases hnil : lob.book side = []
  · exact Or.inr (Or.inl ((cached_rebuild base lob side).trans (if_pos hnil)))
  · obtain ⟨best, hbest, hmem, -⟩ := rebuild_cached base lob side
      (by rw [book_rebuildBest]; exact hnil)
    exact Or.inr (Or.inr ⟨best, hmem, hbest⟩)

/-- The cached value is as before, and the cached level has not gone. -/
theorem Known.congr {lob' : PersistentLOB ρ} {side : Side} (h : lob.Known base side)
    (hcached : lob'.cached side = lob.cached side)
    (hkeys : ∀ k ∈ keys (lob.book side), lob.cached side = some k → k ∈ keys (lob'.book side)) :
    lob'.Known base side := by
  unfold Known
  rw [hcached]
  rcases h with hinf | hsent | ⟨k, hk, hbest⟩
  · exact Or.inl hinf
  · exact Or.inr (Or.inl hsent)
  · exact Or.inr (Or.inr ⟨k, hkeys k hk hbest, hbest⟩)

theorem known_erase (h : ∀ side, lob.Known base side) {side : Side} {key : Int}
    (hnot : ¬ lob.isBest side key) :
    ∀ s, (lob.setBook side (erase (lob.book side) key)).Known base s := by
  intro s
  refine (h s).congr (cached_setBook lob side s _) fun k hk hbest => ?_
  by_cases hs : s = side
  · subst hs
    have hne : k ≠ key := fun heq => hnot (by rw [isBest_iff, hbest, heq])
    rw [book_setBook, keys_erase]
    exact List.mem_filter.mpr ⟨hk, decide_eq_true hne⟩
  · rw [book_setBook_other lob hs]
    exact hk

theorem addOrder_known (h : ∀ side, lob.Known base side) (side : Side) (key volume : Int)
    (participantId : ρ) :
    ∀ s, (lob.addOrder side key volume participantId).2.Known base s := by
  intro s
  by_cases hs : s = side
  · subst hs
    have hkeys := keys_addOrder lob s key volume participantId
    by_cases himp : s.improves key (lob.cached s)
    · refine Or.inr (Or.inr ⟨key, ?_, (cached_addOrder lob s key volume participantId).trans
        (if_pos himp)⟩)
      rw [hkeys]
      split
      · assumption
      · exact List.mem_append_right _ (List.mem_singleton_self _)
    · refine (h s).congr ((cached_addOrder lob s key volume participantId).trans (if_neg himp))
        fun k hk _ => ?_
      rw [hkeys]
      split
      · exact hk
      · exact List.mem_append_left _ hk
  · refine (h s).congr (cached_addOrder_other lob hs key volume participantId) fun k hk _ => ?_
    rw [addOrder_book_other lob hs]
    exact hk

theorem keeps_known : Keeps base fun lob : PersistentLOB ρ => ∀ side, lob.Known base side where
  rebuild := known_rebuild base
  erase := fun _ _ _ h hnot => known_erase h hnot
  write := fun lob side key _ h s => (h s).congr (cached_setBook lob side s _) fun k hk _ => by
    rw [keys_book_modify]
    exact hk
  trades := fun lob fills h s => (h s).congr (cached_recordTrades fills lob s) fun k hk _ => by
    rw [book_recordTrades]
    exact hk

theorem apply_known (h : ∀ side, lob.Known base side) (call : BookCall ρ) :
    ∀ s, (apply base lob call).2.Known base s := by
  cases call with
  | addOrder side key volume participantId => exact addOrder_known h side key volume participantId
  | cancelOrder side key orderId => exact keeps_known.cancelOrder h side key orderId
  | marketOrder side volume participantId =>
      exact keeps_known.marketOrder h side volume participantId

/-- In every run the cached value of an empty side is the infinity of the constructor
or the sentinel. -/
theorem empty_side_cached (base : Int) (calls : List (BookCall ρ)) (side : Side)
    (hempty : (run base calls).book side = []) :
    (run base calls).cached side = none ∨
      (run base calls).cached side = some (sentinel base side) := by
  have hknown : ∀ (calls : List (BookCall ρ)) {lob : PersistentLOB ρ}, (∀ s, lob.Known base s) →
      ∀ s, (calls.foldl (fun lob call => (apply base lob call).2) lob).Known base s := by
    intro calls
    induction calls with
    | nil => exact fun h => h
    | cons call calls ih => exact fun h => ih (apply_known h call)
  have hnew : ∀ s, (new base : PersistentLOB ρ).Known base s :=
    fun s => by cases s <;> exact Or.inl rfl
  have hrun : (run base calls).Known base side := hknown calls hnew side
  rcases hrun with hinf | hsent | ⟨k, hk, -⟩
  · exact Or.inl hinf
  · exact Or.inr hsent
  · rw [hempty] at hk
    cases hk

end PersistentLOB

end VidhiArena.Browser
