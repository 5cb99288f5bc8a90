import VidhiArena.GameMaster.Conservation

/-!
# The order map is exact

`order_map` is open addressing with lazy deletion. Read off the memory alone, it
has to name the orders that rest, each with its slot, price and side, and an
insertion has to find a slot that no live entry uses. All of that is in the
layout invariant; here it is stated without the layout.

An id names one order as long as ids last. Behind the marker the counter starts
again, and an order that has rested all the while shares its id.
-/

namespace VidhiArena.GameMaster

open VidhiArena.Foundation

namespace PersistentLOB

/-- The order in slot `i` rests on side `b` at price `p`. -/
def RestsAt (lob : PersistentLOB) (b : Bool) (p : Int64) (i : UInt32) : Prop :=
  ∃ lv ∈ (lob.side b).levels, lv.priceFp = p ∧ i ∈ lob.queue lv

/-- An exact map. -/
structure MapExact (lob : PersistentLOB) : Prop where
  /-- an id is found exactly when an order with it rests -/
  found : ∀ id, id ≠ deletedKey → id ≠ emptyKey →
    ((mapFind lob.orderMap id).isSome ↔
      ∃ b p i, lob.RestsAt b p i ∧ (lob.pool.nodes i).orderId = id)
  /-- and the entry is the one of that order -/
  entry : ∀ id e, id ≠ deletedKey → id ≠ emptyKey → mapFind lob.orderMap id = some e →
    ∀ b p i, lob.RestsAt b p i → (lob.pool.nodes i).orderId = id → e = ⟨id, i, p, b⟩
  /-- an insertion stores its entry where no live one is -/
  stored : ∀ id i p b, ∃ s, s.toNat < mapSize ∧
    ¬ Probing.Live MapEntry.key emptyKey deletedKey (lob.orderMap s) ∧
    mapInsert lob.orderMap id i p b = Function.update lob.orderMap s ⟨id, i, p, b⟩

theorem mem_queue_head {lob : PersistentLOB} {lv : PriceLevel} (h : lv.head ≠ nullIdx) :
    lv.head ∈ lob.queue lv := by
  unfold queue
  rw [show orderPoolSize = 16383 + 1 from rfl, walk, if_neg h]
  exact List.mem_cons_self

end PersistentLOB

open PersistentLOB

namespace Rep

variable {lob : PersistentLOB} {L : Layout}

theorem restsAt_iff (h : Rep lob L) {b : Bool} {p : Int64} {i : UInt32} :
    lob.RestsAt b p i ↔ Layout.Queued (L.side b) i p := by
  unfold RestsAt Layout.Queued
  rw [h.mem_side_levels]
  constructor
  · rintro ⟨lv, hlv, hp, hi⟩
    obtain ⟨g, hg, rfl⟩ := List.mem_map.mp hlv
    rw [h.queue_eq hg] at hi
    exact ⟨g, hg, hi, hp⟩
  · rintro ⟨g, hg, hi, hp⟩
    refine ⟨g.level, List.mem_map_of_mem hg, hp, ?_⟩
    rwa [h.queue_eq hg]

theorem find_resting (h : Rep lob L) {b : Bool} {p : Int64} {i : UInt32}
    (hrests : lob.RestsAt b p i) :
    mapFind lob.orderMap (lob.pool.nodes i).orderId = some ⟨(lob.pool.nodes i).orderId, i, p, b⟩ :=
  mapFind_mem (e := ⟨(lob.pool.nodes i).orderId, i, p, b⟩) h.map ⟨h.restsAt_iff.mp hrests, rfl⟩

theorem mapExact (h : Rep lob L) : lob.MapExact := by
  refine ⟨fun id hdel hempty => ⟨fun hsome => ?_, ?_⟩, ?_, fun id i p b => ?_⟩
  · by_contra hnone
    have habsent : ∀ e ∈ L.entries lob.pool.nodes, e.key ≠ id := by
      rintro e ⟨hqueued, hkey⟩ rfl
      exact hnone ⟨e.isBid, e.priceFp, e.val, h.restsAt_iff.mpr hqueued, hkey.symm⟩
    rw [mapFind_not_mem h.map habsent hempty hdel] at hsome
    cases hsome
  · rintro ⟨b, p, i, hrests, rfl⟩
    rw [h.find_resting hrests]
    rfl
  · rintro id e - - hfind b p i hrests rfl
    rw [h.find_resting hrests] at hfind
    exact (Option.some.inj hfind).symm
  · obtain ⟨s, hs⟩ := h.vacancy id
    obtain ⟨j, -, rfl, hvacant, -⟩ := Probing.scan_eq_some.mp hs
    refine ⟨mapSlot id (0 + j), mapSlot_lt id _, fun hlive => ?_, by rw [mapInsert, hs]⟩
    rcases Bool.or_eq_true_iff.mp hvacant with hkey | hkey
    · exact hlive.1 (of_decide_eq_true hkey)
    · exact hlive.2 (of_decide_eq_true hkey)

end Rep

/-! ## Runs -/

theorem run_refines {ops : List BookOp} {rs : List Reply} {lob : PersistentLOB}
    (hids : AdmittedFrom PersistentLOB.apply IdsLast PersistentLOB.init ops)
    (hrun : PersistentLOB.run ops = .ok (rs, lob)) : ∃ B, Refines lob B := by
  refine (runFrom_steps (fun lob => ∃ B, Refines lob B) (fun _ _ => True) ?_ ops _
    ⟨_, init_refines⟩ hids hrun).1
  rintro lob op r lob' ⟨B, href⟩ hop hcall
  exact ⟨⟨_, (href.apply_of_ok (href.idsLast hop) hcall).2⟩, trivial⟩

/-- The order map is exact in every state that a run reaches while ids last. -/
theorem order_map_exact {ops : List BookOp} {rs : List Reply} {lob : PersistentLOB}
    (hids : AdmittedFrom PersistentLOB.apply IdsLast PersistentLOB.init ops)
    (hrun : PersistentLOB.run ops = .ok (rs, lob)) : lob.MapExact := by
  obtain ⟨B, L, hrep, -⟩ := run_refines hids hrun
  exact hrep.mapExact

/-- An order is filled in part and another one cancelled. -/
theorem order_map_exact_cancelled :
    let ops := [BookOp.addLimit false 100 5 botMM, .addLimit true 99 4 botMM,
      .marketOrder true 2 contestant, .cancel 2]
    ∃ rs lob, PersistentLOB.run ops = .ok (rs, lob) ∧ lob.MapExact := by
  intro ops
  obtain ⟨lob, hrun, -⟩ := run_defined ops (by decide) (by decide)
  exact ⟨_, lob, hrun, order_map_exact (init_refines.idsLast_run (by decide)) hrun⟩

/-! ## When the ids run out -/

theorem not_mapExact_of_twins {lob : PersistentLOB} {b b' : Bool} {p p' : Int64} {i j : UInt32}
    {id : UInt64} (hdel : id ≠ deletedKey) (hempty : id ≠ emptyKey) (hi : lob.RestsAt b p i)
    (hj : lob.RestsAt b' p' j) (hidi : (lob.pool.nodes i).orderId = id)
    (hidj : (lob.pool.nodes j).orderId = id) (hne : p ≠ p') : ¬ lob.MapExact := by
  intro h
  obtain ⟨e, hfind⟩ := Option.isSome_iff_exists.mp
    ((h.found id hdel hempty).mpr ⟨b, p, i, hi, hidi⟩)
  have hfirst := h.entry id e hdel hempty hfind b p i hi hidi
  have hsecond := h.entry id e hdel hempty hfind b' p' j hj hidj
  rw [hfirst] at hsecond
  exact hne (MapEntry.mk.inj hsecond).2.2.1

def restBehind : List BookOp :=
  [.addLimit false 1 1 botMM, .addLimit false 2 1 botMM, .addLimit false 3 1 botMM]

/-- On an empty side the counter goes over the marker, and over zero. -/
theorem run_restBehind {lob : PersistentLOB} (hasks : lob.asks = ⟨[], false⟩) {i j k : UInt32}
    {rest : List UInt32} (hfree : lob.pool.freeStack = i :: j :: k :: rest)
    (hi : i.toNat < orderPoolSize) (hj : j.toNat < orderPoolSize) (hk : k.toNat < orderPoolSize) :
    ∃ rs lob', runFrom PersistentLOB.apply lob restBehind = .ok (rs, lob') ∧
      lob'.bids = lob.bids ∧ (⟨3, 0 + 1, k, k, 0 + 1⟩ : PriceLevel) ∈ lob'.asks.levels ∧
      lob'.pool.nodes = Function.update (Function.update (Function.update lob.pool.nodes i
        ⟨lob.nextOrderId, 1, botMM, nullIdx⟩) j ⟨lob.nextOrderId + 1, 1, botMM, nullIdx⟩) k
        ⟨lob.nextOrderId + 1 + 1, 1, botMM, nullIdx⟩ := by
  have hopen₁ : LOBSide.getOrCreate ⟨[], false⟩ 1 =
      some (0, ⟨[⟨1, 0, nullIdx, nullIdx, 0⟩], false⟩) := rfl
  have hne : (1 : Int64) ≠ 2 ∧ (1 : Int64) ≠ 3 ∧ (2 : Int64) ≠ 3 := by decide
  have hbefore : LOBSide.before false 1 2 = true ∧ LOBSide.before false 1 3 = true ∧
      LOBSide.before false 2 3 = true := by decide
  have hafter : LOBSide.before false 2 1 = false ∧ LOBSide.before false 3 1 = false ∧
      LOBSide.before false 3 2 = false := by decide
  have hopen₂ : LOBSide.getOrCreate ⟨[⟨1, 0 + 1, i, i, 0 + 1⟩], false⟩ 2 =
      some (1, ⟨[⟨1, 0 + 1, i, i, 0 + 1⟩, ⟨2, 0, nullIdx, nullIdx, 0⟩], false⟩) := by
    simp [LOBSide.getOrCreate, LOBSide.find, LOBSide.findLoop, LOBSide.insert, maxPriceLevels,
      hne, hbefore, hafter]
  have hopen₃ : LOBSide.getOrCreate ⟨[⟨1, 0 + 1, i, i, 0 + 1⟩, ⟨2, 0 + 1, j, j, 0 + 1⟩], false⟩ 3 =
      some (2, ⟨[⟨1, 0 + 1, i, i, 0 + 1⟩, ⟨2, 0 + 1, j, j, 0 + 1⟩,
        ⟨3, 0, nullIdx, nullIdx, 0⟩], false⟩) := by
    simp [LOBSide.getOrCreate, LOBSide.find, LOBSide.findLoop, LOBSide.insert, maxPriceLevels,
      hne, hbefore, hafter, List.findIdx_cons]
  have hside : lob.side false = ⟨[], false⟩ := hasks
  obtain ⟨lob₁, hcall₁, hnext₁, hpool₁, hasks₁, hbids₁⟩ :=
    PersistentLOB.addLimit_opened 1 botMM (hside.symm ▸ hopen₁) rfl hfree hi
  have hside₁ : lob₁.side false = ⟨[⟨1, 0 + 1, i, i, 0 + 1⟩], false⟩ := hasks₁
  obtain ⟨lob₂, hcall₂, hnext₂, hpool₂, hasks₂, hbids₂⟩ :=
    PersistentLOB.addLimit_opened 1 botMM (hside₁.symm ▸ hopen₂) rfl (congrArg _ hpool₁) hj
  have hside₂ : lob₂.side false =
    ⟨[⟨1, 0 + 1, i, i, 0 + 1⟩, ⟨2, 0 + 1, j, j, 0 + 1⟩], false⟩ := hasks₂
  obtain ⟨lob₃, hcall₃, -, hpool₃, hasks₃, hbids₃⟩ :=
    PersistentLOB.addLimit_opened 1 botMM (hside₂.symm ▸ hopen₃) rfl (congrArg _ hpool₂) hk
  have hbids : lob₃.side true = lob.side true := (hbids₃.trans hbids₂).trans hbids₁
  refine ⟨[.orderId lob.nextOrderId, .orderId lob₁.nextOrderId, .orderId lob₂.nextOrderId], lob₃,
    ?_, hbids, ?_, ?_⟩
  · simp only [restBehind, runFrom, hcall₁, hcall₂, hcall₃, ok_bind, pure_ok]
  · show _ ∈ (lob₃.side false).levels
    rw [hasks₃]
    exact List.mem_cons_of_mem _ (List.mem_cons_of_mem _ List.mem_cons_self)
  · rw [hpool₃, hpool₂, hpool₁, hnext₂, hnext₁]

/-- The bid that rests all the while. -/
def firstBid : List BookLevel := [⟨1, [⟨1, 1, botMM⟩]⟩]

/-- The cycles of the asks leave the bid alone and use up the ids. -/
theorem run_cycles_behind {n : Nat} (hn : n < 2 ^ 64 - 2) :
    ∃ rs lob last fills, PersistentLOB.run
        (.addLimit true 1 1 botMM :: (List.replicate n restAndTake).flatten) = .ok (rs, lob) ∧
      Refines lob ⟨firstBid, [], 2 + UInt64.ofNat n, last, fills⟩ := by
  have hroom : (Book.priority firstBid).length < orderPoolSize := by decide
  obtain ⟨hadm, last, fills, hend⟩ := cycles_restAndTake hroom 1 n 2 0 0
  have hfirst : (Book.apply Book.empty (.addLimit true 1 1 botMM)).2 = ⟨firstBid, [], 2, 0, 0⟩ := by
    decide
  have hall : Admitted Book.apply Book.Uncapped Book.empty
      (.addLimit true 1 1 botMM :: (List.replicate n restAndTake).flatten) := by
    refine ⟨by decide, ?_⟩
    rw [hfirst]
    exact hadm
  obtain ⟨lob, hrun, href⟩ := run_defined
    (.addLimit true 1 1 botMM :: (List.replicate n restAndTake).flatten)
    (by rw [BookOp.adds_cons, adds_cycles]; exact Nat.add_lt_of_lt_sub' hn)
    (List.forall_mem_cons.mpr ⟨by decide, proper_cycles⟩)
  refine ⟨_, lob, last, fills, hrun, ?_⟩
  have hsame : (Book.runBounded
      (.addLimit true 1 1 botMM :: (List.replicate n restAndTake).flatten)).2 =
        ⟨firstBid, [], 2 + UInt64.ofNat n, last, fills⟩ := by
    show (traceFrom Book.applyBounded _ _).2 = _
    rw [Book.run_unbounded hall]
    show (traceFrom Book.apply (Book.apply Book.empty (.addLimit true 1 1 botMM)).2
      (List.replicate n restAndTake).flatten).2 = _
    rw [hfirst]
    exact hend
  rwa [hsame] at href

/-- An id that comes back: the first bid rests while `2^64 - 3` offers come and go;
then the counter stands at the marker, and two offers later at one. -/
theorem map_misses_twin :
    ∃ rs lob, PersistentLOB.run ((.addLimit true 1 1 botMM ::
        (List.replicate (2 ^ 64 - 3) restAndTake).flatten) ++ restBehind) = .ok (rs, lob) ∧
      ¬ lob.MapExact := by
  obtain ⟨rs, lob, last, fills, hrun, L, hrep, hview⟩ :=
    run_cycles_behind (n := 2 ^ 64 - 3) (by decide)
  have hnext : lob.nextOrderId = emptyKey := by
    have hcounter : lob.nextOrderId = 2 + UInt64.ofNat (2 ^ 64 - 3) :=
      congrArg Book.nextOrderId hview
    rw [hcounter]
    decide
  have hasks : L.asks = [] := List.map_eq_nil_iff.mp (congrArg Book.asks hview)
  obtain ⟨g, hbids, hg⟩ : ∃ g, L.bids = [g] ∧ g.view lob.pool.nodes = ⟨1, [⟨1, 1, botMM⟩]⟩ := by
    have hbids := congrArg Book.bids hview
    obtain ⟨g, hL, hg⟩ := List.map_eq_singleton_iff.mp hbids
    exact ⟨g, hL, hg⟩
  obtain ⟨hprice, hqueue⟩ := BookLevel.mk.inj hg
  obtain ⟨i₀, hchain, hi₀⟩ := List.map_eq_singleton_iff.mp hqueue
  have hmem : g ∈ L.side true := by
    show g ∈ L.bids
    rw [hbids]
    exact List.mem_cons_self
  obtain ⟨hhead, hnull, -⟩ := hchain ▸ (hrep.ok true g hmem).path
  have hindices : L.indices = [i₀] := by
    rw [Layout.indices, hbids, hasks]
    simp [hchain]
  obtain ⟨i, j, k, rest, hfree, hi, hj, hk⟩ :=
    hrep.free_three (by rw [hindices, List.length_singleton]; decide)
  have hfresh : ∀ x ∈ [i, j, k], i₀ ≠ x ∧ x ≠ nullIdx := by
    intro x hx
    have hnodup := hrep.nodup
    rw [hindices, hfree] at hnodup
    refine ⟨?_, ?_⟩
    · rintro rfl
      refine (List.nodup_append.mp hnodup).2.2 i₀ ?_ i₀ List.mem_cons_self rfl
      exact List.mem_append_left rest hx
    · rintro rfl
      have hlt : ∀ x ∈ [i, j, k], x.toNat < orderPoolSize := by simp [hi, hj, hk]
      exact absurd (hlt _ hx) (by decide)
  obtain ⟨rs', lob', hrest, hkeep, hlevel, hnodes⟩ := run_restBehind (by
    show lob.side false = _
    rw [hrep.sides false]
    show (⟨L.asks.map GLevel.level, false⟩ : LOBSide) = _
    rw [hasks]
    rfl) hfree hi hj hk
  have hone : lob.nextOrderId + 1 + 1 = 1 := by
    rw [hnext]
    decide
  refine ⟨_, lob', runFrom_trans hrun hrest, ?_⟩
  have hold : lob'.RestsAt true 1 i₀ := by
    refine ⟨g.level, ?_, hprice, ?_⟩
    · show g.level ∈ lob'.bids.levels
      rw [hkeep, show lob.bids = _ from hrep.sides true]
      exact List.mem_map_of_mem hmem
    · rw [← hhead]
      exact mem_queue_head (hhead ▸ hnull)
  have hnew : lob'.RestsAt false 3 k :=
    ⟨_, hlevel, rfl, mem_queue_head (hfresh k (by simp)).2⟩
  have hidOld : (lob'.pool.nodes i₀).orderId = 1 := by
    rw [hnodes, Function.update_of_ne (hfresh k (by simp)).1,
      Function.update_of_ne (hfresh j (by simp)).1, Function.update_of_ne (hfresh i (by simp)).1]
    exact congrArg RestingOrder.orderId hi₀
  have hidNew : (lob'.pool.nodes k).orderId = 1 := by
    rw [hnodes, Function.update_self]
    exact hone
  exact not_mapExact_of_twins (by decide) (by decide) hold hnew hidOld hidNew (by decide)

end VidhiArena.GameMaster
