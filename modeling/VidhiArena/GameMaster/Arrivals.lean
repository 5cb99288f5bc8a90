import VidhiArena.GameMaster.Renaming

/-!
# Every run, however long

`Refines` follows the book while the ids last. `Traced` follows it through every run:
the memory is one that is properly laid out under other names, and the order in which
the calls have filled the slots (`arrivals`) is the order on every queue. Cancels may
go wrong once ids repeat; a market order cannot, since it asks for no id
(`Traced.marketOrder`).
-/

namespace VidhiArena.GameMaster

open VidhiArena.Foundation

variable {f : UInt64 → UInt64}

/-! ## The naive book under other names -/

namespace Book

theorem named_matchQueue (isBuy : Bool) (taker : ParticipantID) (p : Int64) :
    ∀ (r : Int64) (q : List RestingOrder),
      matchQueue isBuy taker p r (q.map (RestingOrder.named f)) =
        ((matchQueue isBuy taker p r q).1.map (MatchedFill.named f),
          (matchQueue isBuy taker p r q).2.1,
          (matchQueue isBuy taker p r q).2.2.map (RestingOrder.named f))
  | _, [] => rfl
  | r, o :: q => by
      have hvol : (o.named f).volume = o.volume := rfl
      rw [List.map_cons, matchQueue, matchQueue]
      simp only [hvol]
      by_cases hr : 0 < r
      · rw [if_pos hr, if_pos hr]
        by_cases hfull : o.volume - min r o.volume = 0
        · rw [if_pos hfull, if_pos hfull, named_matchQueue isBuy taker p (r - min r o.volume) q]
          rfl
        · rw [if_neg hfull, if_neg hfull]
          rfl
      · rw [if_neg hr, if_neg hr]
        rfl

theorem named_matchLevels (isBuy : Bool) (taker : ParticipantID) :
    ∀ (r : Int64) (ls : List BookLevel),
      matchLevels isBuy taker r (ls.map (BookLevel.named f)) =
        ((matchLevels isBuy taker r ls).1.map (MatchedFill.named f),
          (matchLevels isBuy taker r ls).2.map (BookLevel.named f))
  | _, [] => rfl
  | r, lv :: ls => by
      rw [List.map_cons, matchLevels, matchLevels]
      by_cases hr : 0 < r
      · rw [if_pos hr, if_pos hr]
        have hqueue := named_matchQueue (f := f) isBuy taker lv.priceFp r lv.queue
        simp only [BookLevel.named, hqueue]
        by_cases hq : (matchQueue isBuy taker lv.priceFp r lv.queue).2.2 = []
        · rw [if_pos (by rw [hq]; rfl), if_pos hq]
          have ih := named_matchLevels isBuy taker
            (matchQueue isBuy taker lv.priceFp r lv.queue).2.1 ls
          rw [ih, List.map_append]
        · rw [if_neg (by rwa [List.map_eq_nil_iff]), if_neg hq]
          rfl
      · rw [if_neg hr, if_neg hr]
        rfl

theorem named_side (B : Book) (n : UInt64) (b : Bool) :
    (B.named f n).side b = (B.side b).map (BookLevel.named f) := by cases b <;> rfl

theorem named_marketOrder (B : Book) (n : UInt64) (isBuy : Bool) (v : Int64)
    (taker : ParticipantID) :
    (B.named f n).marketOrder isBuy v taker =
      ((B.marketOrder isBuy v taker).1.map (MatchedFill.named f),
        (B.marketOrder isBuy v taker).2.named f n) := by
  have hlast : ∀ (last : Int64) (fs : List MatchedFill),
      lastPrice last (fs.map (MatchedFill.named f)) = lastPrice last fs := by
    intro last fs
    rw [lastPrice, lastPrice, List.getLast?_map, Option.map_map]
    rfl
  rw [marketOrder_eq, marketOrder_eq, named_side, named_matchLevels]
  refine Prod.ext rfl ?_
  simp only [hlast, List.length_map]
  cases isBuy <;> rfl

end Book

namespace PersistentLOB

theorem walk_congr {nodes nodes' : UInt32 → LimitOrder} (h : ∀ i, (nodes' i).next = (nodes i).next) :
    ∀ (n : Nat) (i : UInt32), walk nodes' n i = walk nodes n i
  | 0, _ => rfl
  | n + 1, i => by rw [walk, walk, h, walk_congr h n]

theorem named_queue (lob : PersistentLOB) (m : UInt32 → MapEntry) (n : UInt64) (lv : PriceLevel) :
    (lob.named f m n).queue lv = lob.queue lv := by
  have hnext : ∀ i, ((lob.named f m n).pool.nodes i).next = (lob.pool.nodes i).next := fun _ => rfl
  rw [queue, queue, walk_congr hnext]

theorem named_view (lob : PersistentLOB) (m : UInt32 → MapEntry) (n : UInt64) :
    (lob.named f m n).view = lob.view.named f n := by
  have hlevel : ∀ lv, (lob.named f m n).viewLevel lv = (lob.viewLevel lv).named f := by
    intro lv
    simp only [viewLevel, BookLevel.named, named_queue, List.map_map]
    rfl
  simp only [view, Book.named, List.map_map, Book.mk.injEq]
  refine ⟨?_, ?_, rfl, rfl, rfl⟩
  · exact List.map_congr_left fun lv _ => hlevel lv
  · exact List.map_congr_left fun lv _ => hlevel lv

end PersistentLOB

/-! ## When the slots were filled -/

/-- The arrivals after call number `n`: a call that takes a slot takes the top of the free
stack. -/
def stamp (lob lob' : PersistentLOB) (n : Nat) (arrival : UInt32 → Nat) : UInt32 → Nat :=
  if lob'.pool.freeStack.length < lob.pool.freeStack.length then
    Function.update arrival lob.pool.alloc.1 n
  else arrival

def arrivalsFrom (lob : PersistentLOB) (n : Nat) (arrival : UInt32 → Nat) :
    List BookOp → UInt32 → Nat
  | [] => arrival
  | op :: ops =>
      match lob.apply op with
      | .ok (_, lob') => arrivalsFrom lob' (n + 1) (stamp lob lob' n arrival) ops
      | .error _ => arrival

/-- The number of the call of the run `ops` that has put its order into each slot. -/
def arrivals (ops : List BookOp) : UInt32 → Nat :=
  arrivalsFrom PersistentLOB.init 0 (fun _ => 0) ops

/-- The memory is a proper one under other names, and its ids are in the order of arrival. -/
def Traced (lob : PersistentLOB) (n : Nat) (arrival : UInt32 → Nat) : Prop :=
  ∃ base L f m k, Rep base L ∧ lob = base.named f m k ∧ (∀ i ∈ L.indices, arrival i < n) ∧
    ∀ i ∈ L.indices, ∀ j ∈ L.indices,
      (base.pool.nodes i).orderId < (base.pool.nodes j).orderId → arrival i < arrival j

theorem Traced.init (arrival : UInt32 → Nat) : Traced PersistentLOB.init 0 arrival := by
  obtain ⟨L, hrep, -⟩ := init_refines
  have hnone : ∀ i, i ∉ L.indices := by
    intro i hi
    obtain ⟨hlt, hfree⟩ := hrep.mem_indices_iff.mp hi
    exact hfree ((OrderPool.mem_freeIndices le_rfl).mpr hlt)
  exact ⟨PersistentLOB.init, L, id, PersistentLOB.init.orderMap, 1, hrep, rfl,
    fun i hi => absurd hi (hnone i), fun i hi => absurd hi (hnone i)⟩

/-! ## One call -/

section Calls

variable {base base' lob lob' : PersistentLOB} {L L' : Layout} {m m' : UInt32 → MapEntry}
  {k k' : UInt64} {n : Nat} {arrival : UInt32 → Nat}

theorem Traced.of_frees (h : Rep base L) (hfrees : base.Frees base') (h' : Rep base' L')
    (hclock : ∀ i ∈ L.indices, arrival i < n)
    (horder : ∀ i ∈ L.indices, ∀ j ∈ L.indices,
      (base.pool.nodes i).orderId < (base.pool.nodes j).orderId → arrival i < arrival j) :
    Traced (base'.named f m' k') (n + 1)
      (stamp (base.named f m k) (base'.named f m' k') n arrival) := by
  obtain ⟨hfree, hids⟩ := hfrees
  have hstamp : stamp (base.named f m k) (base'.named f m' k') n arrival = arrival :=
    if_neg (not_lt.mpr hfree.length_le)
  have hold : ∀ i ∈ L'.indices, i ∈ L.indices := by
    intro i hi
    obtain ⟨hlt, hnot⟩ := h'.mem_indices_iff.mp hi
    exact h.mem_indices_iff.mpr ⟨hlt, fun hmem => hnot (hfree.subset hmem)⟩
  rw [hstamp]
  refine ⟨base', L', f, m', k', h', rfl, fun i hi => ?_, fun i hi j hj hlt => ?_⟩
  · exact Nat.lt_succ_of_lt (hclock i (hold i hi))
  · rw [hids, hids] at hlt
    exact horder i (hold i hi) j (hold j hj) hlt

/-- The names by which fresh ids stand for the old ones, and the next id for `next`. -/
theorem exists_names (h : Rep base L) (f : UInt64 → UInt64) (next : UInt64) :
    ∃ f' : UInt64 → UInt64, f' (.ofNat (orderPoolSize + 1)) = next ∧
      ∀ i, f' (L.freshId base.pool.nodes i) = f (base.pool.nodes i).orderId := by
  let back := Function.invFun (L.freshId base.pool.nodes)
  refine ⟨fun x => if x = .ofNat (orderPoolSize + 1) then next
    else f (base.pool.nodes (back x)).orderId, if_pos rfl, fun i => ?_⟩
  have hne : L.freshId base.pool.nodes i ≠ .ofNat (orderPoolSize + 1) := by
    intro heq
    have hnat : (L.freshId base.pool.nodes i).toNat = orderPoolSize + 1 := by
      rw [heq]
      rfl
    by_cases hi : i ∈ L.indices
    · have := (h.freshId_le hi).2
      omega
    · have := Layout.toNat_freshId_free base.pool.nodes hi
      omega
  have hback : back (L.freshId base.pool.nodes i) = i :=
    Function.leftInverse_invFun h.freshId_injective i
  simp only [if_neg hne, hback]

theorem named_withIds {f' : UInt64 → UInt64} {ids : UInt32 → UInt64} (next : UInt64)
    (hnames : ∀ i, f' (ids i) = f (base.pool.nodes i).orderId) :
    (base.withIds ids m' next).named f' m k = base.named f m k := by
  have hnodes : ((base.withIds ids m' next).named f' m k).pool = (base.named f m k).pool := by
    refine congrArg₂ OrderPool.mk ?_ rfl
    ext i : 1
    simp only [PersistentLOB.withIds, LimitOrder.named, hnames]
  simp only [PersistentLOB.named] at hnodes ⊢
  rw [hnodes]
  rfl

theorem Traced.addLimit {isBid : Bool} {priceFp volume : Int64} {participant : ParticipantID}
    {id : UInt64} (h : Rep base L) (hclock : ∀ i ∈ L.indices, arrival i < n)
    (horder : ∀ i ∈ L.indices, ∀ j ∈ L.indices,
      (base.pool.nodes i).orderId < (base.pool.nodes j).orderId → arrival i < arrival j)
    (hadd : (base.named f m k).addLimit isBid priceFp volume participant = .ok (id, lob')) :
    Traced lob' (n + 1) (stamp (base.named f m k) lob' n arrival) := by
  -- the same memory with room for an id
  obtain ⟨m₁, hrep⟩ := h.renumber
  obtain ⟨f', hnext, hnames⟩ := exists_names h f k
  set fresh := base.withIds (L.freshId base.pool.nodes) m₁ (.ofNat (orderPoolSize + 1)) with hfresh
  have hsame : fresh.named f' m (f' fresh.nextOrderId) = base.named f m k := by
    rw [show f' fresh.nextOrderId = k from hnext]
    exact named_withIds _ hnames
  obtain ⟨next, L', hcall, hrep', -⟩ := hrep.addLimit
    (show UInt64.ofNat (orderPoolSize + 1) ≠ emptyKey by decide) isBid priceFp volume participant
  obtain ⟨id', m', k', hnamed⟩ := PersistentLOB.named_addLimit hcall m
  rw [hsame, hadd] at hnamed
  cases hnamed
  have hnull : nullIdx ∉ fresh.pool.freeStack := fun hmem =>
    Rep.ne_null_of_lt (hrep.lt_of_mem (List.mem_append_left _ hmem)) rfl
  have hfreshOrder : ∀ i ∈ L.indices, ∀ j ∈ L.indices,
      (fresh.pool.nodes i).orderId < (fresh.pool.nodes j).orderId → arrival i < arrival j :=
    fun i hi j hj hlt => horder i hi j hj ((h.freshId_lt_iff hi hj).mp hlt)
  rcases PersistentLOB.addLimit_takes hnull hcall with ⟨hfree, hids⟩ | ⟨x, hfree, hx, hids⟩
  · -- refused
    rw [← hsame]
    exact Traced.of_frees hrep ⟨by rw [hfree], hids⟩ hrep' hclock hfreshOrder
  · -- the order is in slot `x`
    have hstamp : stamp (base.named f m k) (next.named f' m' k') n arrival =
        Function.update arrival x n := by
      have hfree' : (base.named f m k).pool.freeStack = x :: next.pool.freeStack := hfree
      have halloc : (base.named f m k).pool.alloc.1 = x := by
        rw [OrderPool.alloc, hfree']
      rw [stamp, hfree', halloc]
      exact if_pos (Nat.lt_succ_self _)
    have hold : ∀ i ∈ L'.indices, i ≠ x → i ∈ L.indices := by
      intro i hi hne
      obtain ⟨hlt, hnot⟩ := hrep'.mem_indices_iff.mp hi
      refine hrep.mem_indices_iff.mpr ⟨hlt, ?_⟩
      rw [hfree]
      exact fun hmem => (List.mem_cons.mp hmem).elim hne hnot
    rw [hstamp]
    refine ⟨next, L', f', m', k', hrep', rfl, fun i hi => ?_, fun i hi j hj hlt => ?_⟩
    · by_cases hix : i = x
      · rw [hix, Function.update_self]
        exact Nat.lt_succ_self n
      · rw [Function.update_of_ne hix]
        exact Nat.lt_succ_of_lt (hclock i (hold i hi hix))
    · by_cases hix : i = x
      · -- no id is behind the newest one
        exfalso
        rw [hix] at hlt
        by_cases hjx : j = x
        · rw [hjx] at hlt
          exact UInt64.lt_irrefl _ hlt
        · rw [hx, hids j hjx, UInt64.lt_iff_toNat_lt] at hlt
          have hle := (h.freshId_le (hold j hj hjx)).2
          have hlast : fresh.nextOrderId.toNat = orderPoolSize + 1 := rfl
          have hj : (fresh.pool.nodes j).orderId = L.freshId base.pool.nodes j := rfl
          rw [hlast, hj] at hlt
          omega
      · rw [Function.update_of_ne hix]
        by_cases hjx : j = x
        · rw [hjx, Function.update_self]
          exact hclock i (hold i hi hix)
        · rw [Function.update_of_ne hjx]
          rw [hids i hix, hids j hjx] at hlt
          exact hfreshOrder i (hold i hi hix) j (hold j hj hjx) hlt

end Calls

theorem Traced.apply {lob lob' : PersistentLOB} {n : Nat} {arrival : UInt32 → Nat} {op : BookOp}
    {r : Reply} (h : Traced lob n arrival) (hcall : lob.apply op = .ok (r, lob')) :
    Traced lob' (n + 1) (stamp lob lob' n arrival) := by
  obtain ⟨base, L, f, m, k, hrep, rfl, hclock, horder⟩ := h
  cases op with
  | addLimit isBid priceFp volume participant =>
      obtain ⟨⟨id, lob₁⟩, hadd, hret⟩ := bind_eq_ok.mp hcall
      cases hret
      exact Traced.addLimit hrep hclock horder hadd
  | cancel orderId =>
      obtain ⟨⟨ok, lob₁⟩, hcancel, hret⟩ := bind_eq_ok.mp hcall
      cases hret
      rcases hrep.named_cancel hcancel with rfl | ⟨base', L', m', hrep', hfrees, rfl⟩
      · exact Traced.of_frees hrep (PersistentLOB.Frees.refl base) hrep hclock horder
      · exact Traced.of_frees hrep hfrees hrep' hclock horder
  | marketOrder isBuy volume taker =>
      obtain ⟨⟨fs, lob₁⟩, hmarket, hret⟩ := bind_eq_ok.mp hcall
      cases hret
      obtain ⟨base', L', hbase, hrep', -⟩ := hrep.marketOrder isBuy volume taker
      obtain ⟨m', hnamed⟩ := PersistentLOB.named_matchLoop hbase m k
      rw [show (base.named f m k).marketOrder isBuy volume taker =
        .ok (_, base'.named f m' k) from hnamed] at hmarket
      cases hmarket
      exact Traced.of_frees hrep (PersistentLOB.matchLoop_frees hbase) hrep' hclock horder

theorem Traced.run : ∀ {ops : List BookOp} {lob lob' : PersistentLOB} {n : Nat}
    {arrival : UInt32 → Nat} {rs : List Reply}, Traced lob n arrival →
    runFrom PersistentLOB.apply lob ops = .ok (rs, lob') →
    Traced lob' (n + ops.length) (arrivalsFrom lob n arrival ops)
  | [], _, _, _, _, _, h, hrun => by
      cases hrun
      exact h
  | op :: ops, lob, lob', n, arrival, rs, h, hrun => by
      obtain ⟨⟨r, lob₁⟩, hcall, hrun⟩ := bind_eq_ok.mp hrun
      obtain ⟨⟨rs₁, lob₂⟩, hrest, hret⟩ := bind_eq_ok.mp hrun
      cases hret
      have hnext := Traced.run (h.apply hcall) hrest
      rw [arrivalsFrom, hcall, List.length_cons, Nat.add_comm ops.length 1, ← Nat.add_assoc]
      exact hnext

theorem traced_of_run {ops : List BookOp} {rs : List Reply} {lob : PersistentLOB}
    (hrun : PersistentLOB.run ops = .ok (rs, lob)) : Traced lob ops.length (arrivals ops) := by
  have h := (Traced.init fun _ => 0).run hrun
  rwa [Nat.zero_add] at h

/-! ## What every run keeps -/

/-- The orders of one side in the order of the memory: best level first, and a queue from its
head on. Each with its price and its slot. -/
def PersistentLOB.offers (lob : PersistentLOB) (b : Bool) : List (Int64 × UInt32) :=
  (lob.side b).levels.flatMap fun lv => (lob.queue lv).map fun i => (lv.priceFp, i)

/-- A better price, or the same price and an earlier arrival. -/
def InTurn (b : Bool) (arrival : UInt32 → Nat) (x y : Int64 × UInt32) : Prop :=
  LOBSide.before b x.1 y.1 = true ∨ x.1 = y.1 ∧ arrival x.2 < arrival y.2

namespace Traced

variable {lob : PersistentLOB} {n : Nat} {arrival : UInt32 → Nat}

theorem marketOrder (h : Traced lob n arrival) (isBuy : Bool) (v : Int64)
    (taker : ParticipantID) :
    ∃ lob', lob.marketOrder isBuy v taker =
        .ok ((lob.view.marketOrder isBuy v taker).1, lob') ∧
      lob'.view = (lob.view.marketOrder isBuy v taker).2 := by
  obtain ⟨base, L, f, m, k, hrep, rfl, -, -⟩ := h
  obtain ⟨base', L', hbase, hrep', hview'⟩ := hrep.marketOrder isBuy v taker
  obtain ⟨m', hnamed⟩ := PersistentLOB.named_matchLoop (f := f) hbase m k
  rw [← hrep.view_eq] at hnamed hview'
  refine ⟨base'.named f m' k, ?_, ?_⟩
  · rw [PersistentLOB.named_view, Book.named_marketOrder]
    exact hnamed
  · rw [PersistentLOB.named_view, PersistentLOB.named_view, Book.named_marketOrder,
      hrep'.view_eq, hview']

theorem inTurn (h : Traced lob n arrival) (b : Bool) :
    (lob.offers b).Pairwise (InTurn b arrival) := by
  obtain ⟨base, L, f, m, k, hrep, rfl, -, horder⟩ := h
  rw [PersistentLOB.offers, PersistentLOB.named_side, hrep.mem_side_levels, List.flatMap_map,
    List.pairwise_flatMap]
  constructor
  · intro g hg
    rw [PersistentLOB.named_queue, hrep.queue_eq hg, List.pairwise_map]
    have hids := (hrep.ok b g hg).ids
    rw [List.pairwise_map] at hids
    refine hids.imp_of_mem fun hi hj hlt => Or.inr ⟨rfl, ?_⟩
    exact horder _ (Layout.mem_indices_of hg hi) _ (Layout.mem_indices_of hg hj) hlt
  · have hsorted := hrep.sorted b
    rw [LOBSide.Sorted, List.pairwise_map] at hsorted
    refine hsorted.imp fun hbetter x hx y hy => Or.inl ?_
    obtain ⟨i, -, rfl⟩ := List.mem_map.mp hx
    obtain ⟨j, -, rfl⟩ := List.mem_map.mp hy
    exact hbetter

end Traced

end VidhiArena.GameMaster
