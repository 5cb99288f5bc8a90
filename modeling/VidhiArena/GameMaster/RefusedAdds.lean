import VidhiArena.GameMaster.Refinement

/-!
# Refused orders

`add_limit` answers `NULL_ORDER_ID` when the level table of the side is full or
when the pool is exhausted. The first failure is noticed before anything is
written. The second is noticed after `get_or_create`, and a price that had no
level keeps the empty one: it counts as a best price and in the depth until a
market order walks over it.
-/

namespace VidhiArena.GameMaster

open VidhiArena.Foundation

namespace PersistentLOB

variable {lob lob' : PersistentLOB} {isBid : Bool} {priceFp volume : Int64}
  {participant : ParticipantID}

/-- The book as others see it is the same: both sides, every quote and depth,
the free slots, the order map and the next id. -/
structure SameBook (lob lob' : PersistentLOB) : Prop where
  sides : ∀ b, lob'.side b = lob.side b
  bestBid : lob'.bestBid = lob.bestBid
  bestAsk : lob'.bestAsk = lob.bestAsk
  snapshot : ∀ sm, lob'.fillSnapshot sm = lob.fillSnapshot sm
  free : lob'.pool.freeStack = lob.pool.freeStack
  map : lob'.orderMap = lob.orderMap
  next : lob'.nextOrderId = lob.nextOrderId

theorem SameBook.refl (lob : PersistentLOB) : SameBook lob lob :=
  ⟨fun _ => rfl, rfl, rfl, fun _ => rfl, rfl, rfl, rfl⟩

/-- What a refused order can meet: a table without room for its price, or a pool
without a slot although the price has its level. -/
def RefusesCleanly (lob : PersistentLOB) (isBid : Bool) (priceFp : Int64) : Prop :=
  (lob.side isBid).find priceFp = none ∧ maxPriceLevels ≤ (lob.side isBid).levels.length ∨
    (lob.side isBid).find priceFp ≠ none ∧ lob.pool.freeStack = []

@[simp] theorem setSide_side (lob : PersistentLOB) (b : Bool) : lob.setSide b (lob.side b) = lob := by
  cases b <;> rfl

/-- What an add that answers zero has done: nothing, with the table full;
opened the level and asked the pool; or run over the end of the ids. -/
theorem addLimit_null_cases (h : lob.addLimit isBid priceFp volume participant =
    .ok (nullOrderId, lob')) :
    ((lob.side isBid).find priceFp = none ∧
        maxPriceLevels ≤ (lob.side isBid).levels.length ∧ lob' = lob) ∨
      (∃ k side, (lob.side isBid).getOrCreate priceFp = some (k, side) ∧
        lob.pool.alloc.1 = nullIdx ∧
        lob' = { lob.setSide isBid side with pool := lob.pool.alloc.2 }) ∨
      (lob.side isBid).getOrCreate priceFp ≠ none ∧ lob.pool.alloc.1 ≠ nullIdx ∧
        lob'.nextOrderId = lob.nextOrderId + 1 := by
  unfold addLimit at h
  cases hcreate : (lob.side isBid).getOrCreate priceFp with
  | none =>
      simp only [hcreate] at h
      cases h
      refine Or.inl ?_
      unfold LOBSide.getOrCreate at hcreate
      split at hcreate
      · cases hcreate
      · rename_i hfind
        unfold LOBSide.insert at hcreate
        split at hcreate
        · rename_i hfull
          exact ⟨hfind, hfull, rfl⟩
        · cases hcreate
  | some c =>
      obtain ⟨k, side⟩ := c
      simp only [hcreate] at h
      refine Or.inr ?_
      split at h
      · rename_i hnull
        cases h
        exact Or.inl ⟨k, side, rfl, hnull, rfl⟩
      · rename_i hidx
        obtain ⟨pool, -, h⟩ := bind_eq_ok.mp h
        obtain ⟨⟨pool', lv⟩, -, h⟩ := bind_eq_ok.mp h
        simp only [pure_ok, Except.ok.injEq, Prod.mk.injEq] at h
        obtain ⟨-, rfl⟩ := h
        exact Or.inr ⟨nofun, hidx, rfl⟩

theorem alloc_eq_null (hfree : lob.pool.freeStack = []) : lob.pool.alloc = (nullIdx, lob.pool) := by
  unfold OrderPool.alloc
  rw [hfree]

/-- A pool that has been asked is the same only if it had nothing to give. -/
theorem free_of_alloc_same (h : lob.pool.alloc.2.freeStack = lob.pool.freeStack) :
    lob.pool.freeStack = [] := by
  unfold OrderPool.alloc at h
  split at h
  · assumption
  · rename_i idx rest hfree
    rw [hfree] at h
    exact absurd (congrArg List.length h) (by simp)

/-- A refused order leaves the book as it was exactly when the refusal was
clean. -/
theorem refused_add_unchanged_iff {lob lob' : PersistentLOB} {isBid : Bool}
    {priceFp volume : Int64} {participant : ParticipantID}
    (h : lob.addLimit isBid priceFp volume participant = .ok (nullOrderId, lob')) :
    SameBook lob lob' ↔ lob.RefusesCleanly isBid priceFp := by
  rcases addLimit_null_cases h with ⟨hfind, hfull, rfl⟩ | ⟨k, side, hcreate, hnull, rfl⟩ |
    ⟨hcreate, hidx, hnext⟩
  · exact ⟨fun _ => Or.inl ⟨hfind, hfull⟩, fun _ => SameBook.refl lob'⟩
  · unfold LOBSide.getOrCreate at hcreate
    split at hcreate
    · -- the price has its level
      rename_i hfind
      obtain ⟨rfl, rfl⟩ := Prod.mk.inj (Option.some.inj hcreate)
      refine ⟨fun hsame => Or.inr ⟨by rw [hfind]; exact nofun, ?_⟩, ?_⟩
      · exact free_of_alloc_same hsame.free
      · rintro (⟨hnone, -⟩ | ⟨-, hfree⟩)
        · rw [hfind] at hnone
          cases hnone
        · rw [alloc_eq_null hfree, setSide_side]
          exact SameBook.refl lob
    · -- the level is new and stays
      rename_i hfind
      unfold LOBSide.insert at hcreate
      split at hcreate
      · cases hcreate
      · rename_i hroom
        obtain ⟨-, rfl⟩ := Prod.mk.inj (Option.some.inj hcreate)
        refine ⟨fun hsame => ?_, ?_⟩
        · have hside := congrArg (fun s => s.levels.length) (hsame.sides isBid)
          have hins : (lob.side isBid).levels.findIdx (fun lv =>
              LOBSide.before (lob.side isBid).descending priceFp lv.priceFp) ≤
              (lob.side isBid).levels.length := List.findIdx_le_length
          cases isBid
          · simp [PersistentLOB.side, PersistentLOB.setSide, List.length_insertIdx] at hside hins
          · simp [PersistentLOB.side, PersistentLOB.setSide, List.length_insertIdx] at hside hins
        · rintro (⟨-, hfull⟩ | ⟨hsome, -⟩)
          · exact absurd hfull hroom
          · exact absurd hfind hsome
  · -- the id counter stood at zero
    refine ⟨fun hsame => ?_, fun hclean => ?_⟩
    · have := hnext.symm.trans hsame.next
      exact absurd this (by grind)
    · rcases hclean with ⟨hfind, hfull⟩ | ⟨-, hfree⟩
      · refine absurd ?_ hcreate
        unfold LOBSide.getOrCreate
        rw [hfind]
        exact if_pos hfull
      · rw [alloc_eq_null hfree] at hidx
        exact absurd rfl hidx

end PersistentLOB

theorem Rep.find_eq_none_iff {lob : PersistentLOB} {L : Layout} (h : Rep lob L) {b : Bool}
    {p : Int64} : (lob.side b).find p = none ↔ Book.hasLevel ((L.view lob).side b) p = false := by
  rw [← Bool.not_eq_true, Layout.hasLevel_view]
  constructor
  · rintro hnone ⟨g, hg, rfl⟩
    obtain ⟨_, _, _, hfind, _⟩ := h.find_level hg
    rw [hfind] at hnone
    cases hnone
  · intro hnone
    exact h.find_absent fun g hg hp => hnone ⟨g, hg, hp⟩

/-- In a reachable book: the table is full, or the price has a level and the
pool is full. -/
theorem Refines.refusesCleanly_iff {lob : PersistentLOB} {B : Book} (h : Refines lob B) {b : Bool}
    {p : Int64} : lob.RefusesCleanly b p ↔
      B.TableFull b p ∨ Book.hasLevel (B.side b) p = true ∧ B.PoolFull := by
  obtain ⟨L, hrep, rfl⟩ := h
  have hlen : (lob.side b).levels.length = ((L.view lob).side b).length := by
    rw [hrep.mem_side_levels, Layout.view_side, List.length_map, List.length_map]
  rw [PersistentLOB.RefusesCleanly, Book.TableFull, hrep.poolFull_iff, hlen, Ne,
    hrep.find_eq_none_iff, Bool.not_eq_false]

/-! ## A pool in one queue -/

def crowdBid : BookOp := .addLimit true 100000000 1 contestant

/-- The first `n` orders of a run, one unit each. -/
def crowd (n : Nat) : List RestingOrder :=
  (List.range n).map fun i => ⟨UInt64.ofNat (i + 1), 1, contestant⟩

theorem crowd_succ (n : Nat) :
    crowd (n + 1) = crowd n ++ [⟨UInt64.ofNat (n + 1), 1, contestant⟩] := by
  rw [crowd, List.range_succ, List.map_append]
  rfl

def crowdedBook (n : Nat) : Book := ⟨[⟨100000000, crowd n⟩], [], UInt64.ofNat (n + 1), 0, 0⟩

theorem crowdedBook_orders (n : Nat) : (crowdedBook n).orders.length = n := by
  simp [crowdedBook, Book.orders, Book.priority, crowd]

theorem crowdedBook_add {n : Nat} (hn : n < orderPoolSize) :
    ((crowdedBook n).applyBounded crowdBid).2 = crowdedBook (n + 1) := by
  have htable : ¬ (crowdedBook n).TableFull true 100000000 := by
    rintro ⟨hnew, -⟩
    simp [crowdedBook, Book.hasLevel, Book.side] at hnew
  have hpool : ¬ (crowdedBook n).PoolFull := by
    rw [Book.PoolFull, crowdedBook_orders]
    exact not_le.mpr hn
  simp only [crowdBid, Book.applyBounded, Book.addLimitBounded, if_neg htable, if_neg hpool,
    Book.addLimit]
  simp [crowdedBook, Book.side, Book.setSide, Book.openLevel, Book.hasLevel, Book.enqueue,
    crowd_succ]

theorem run_crowd : ∀ n : Nat, n + 1 ≤ orderPoolSize →
    (Book.runBounded (List.replicate (n + 1) crowdBid)).2 = crowdedBook (n + 1)
  | 0, _ => by decide
  | n + 1, hn => by
      rw [List.replicate_succ', Book.runBounded, traceFrom_append]
      show ((Book.runBounded (List.replicate (n + 1) crowdBid)).2.applyBounded crowdBid).2 = _
      rw [run_crowd n (Nat.le_of_succ_le hn)]
      exact crowdedBook_add hn

theorem reach_crowd : ∃ rs lob,
    PersistentLOB.run (List.replicate orderPoolSize crowdBid) = .ok (rs, lob) ∧
      Refines lob (crowdedBook orderPoolSize) := by
  have hadds : BookOp.adds (List.replicate orderPoolSize crowdBid) ≤ orderPoolSize := by
    refine le_trans List.countP_le_length ?_
    rw [List.length_replicate]
  obtain ⟨lob, hrun, href⟩ := run_defined (List.replicate orderPoolSize crowdBid)
    (lt_of_le_of_lt hadds (by decide)) (by
      intro op hop
      rw [(List.mem_replicate.mp hop).2]
      exact nofun)
  rw [show orderPoolSize = 16383 + 1 from rfl, run_crowd 16383 (le_refl _)] at href
  exact ⟨_, lob, hrun, href⟩

theorem Refines.refused {lob : PersistentLOB} (h : Refines lob (crowdedBook orderPoolSize))
    (priceFp : Int64) : ∃ lob', lob.addLimit true priceFp 1 contestant = .ok (nullOrderId, lob') ∧
      Refines lob' ((crowdedBook orderPoolSize).setSide true
        (Book.openLevel true priceFp (crowdedBook orderPoolSize).bids)) := by
  have htable : ¬ (crowdedBook orderPoolSize).TableFull true priceFp := by
    rintro ⟨-, hfull⟩
    exact absurd hfull (by decide)
  have hpool : (crowdedBook orderPoolSize).PoolFull := by
    rw [Book.PoolFull, crowdedBook_orders]
  have hreply : (crowdedBook orderPoolSize).applyBounded (.addLimit true priceFp 1 contestant) =
      (.orderId nullOrderId, (crowdedBook orderPoolSize).setSide true
        (Book.openLevel true priceFp (crowdedBook orderPoolSize).bids)) := by
    simp only [Book.applyBounded, Book.addLimitBounded, if_neg htable, if_pos hpool]
    rfl
  have hproper : BookOp.Proper (crowdedBook orderPoolSize) (.addLimit true priceFp 1 contestant) := by
    show UInt64.ofNat (orderPoolSize + 1) ≠ emptyKey
    decide
  obtain ⟨lob', hcall, href⟩ := h.apply hproper
  rw [hreply] at hcall href
  refine ⟨lob', ?_, href⟩
  obtain ⟨⟨id, lob₁⟩, hadd, hcall⟩ := bind_eq_ok.mp hcall
  cases hcall
  exact hadd

/-- One bid more at the price of the others. -/
theorem refused_add_unchanged_crowd :
    ∃ rs lob lob', PersistentLOB.run (List.replicate orderPoolSize crowdBid) = .ok (rs, lob) ∧
      lob.addLimit true 100000000 1 contestant = .ok (nullOrderId, lob') ∧
      PersistentLOB.SameBook lob lob' := by
  obtain ⟨rs, lob, hrun, href⟩ := reach_crowd
  obtain ⟨lob', hadd, -⟩ := href.refused 100000000
  refine ⟨rs, lob, lob', hrun, hadd, (PersistentLOB.refused_add_unchanged_iff hadd).mpr ?_⟩
  refine href.refusesCleanly_iff.mpr (Or.inr ⟨rfl, ?_⟩)
  rw [Book.PoolFull, crowdedBook_orders]

/-- A refused bid becomes the best bid: the pool is full, the price is new, and
its empty level stays. -/
theorem refused_add_quotes :
    ∃ rs lob lob', PersistentLOB.run (List.replicate orderPoolSize crowdBid) = .ok (rs, lob) ∧
      lob.addLimit true 200000000 1 contestant = .ok (nullOrderId, lob') ∧
      lob.bestBid = 100000000 ∧ lob'.bestBid = 200000000 ∧ ¬ PersistentLOB.SameBook lob lob' := by
  obtain ⟨rs, lob, hrun, href⟩ := reach_crowd
  obtain ⟨lob', hadd, href'⟩ := href.refused 200000000
  have hbid : lob.bestBid = 100000000 := href.quotes.bestBid
  have hbid' : lob'.bestBid = 200000000 := href'.quotes.bestBid.trans (by rfl)
  refine ⟨rs, lob, lob', hrun, hadd, hbid, hbid', fun hsame => ?_⟩
  have := hsame.bestBid
  rw [hbid, hbid'] at this
  exact absurd this (by decide)

end VidhiArena.GameMaster
