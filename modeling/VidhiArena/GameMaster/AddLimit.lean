import VidhiArena.GameMaster.Matching

/-!
# `add_limit` against the naive book

`add_limit` is three steps: find or create the level, take a slot, link it
behind the tail and enter it in the order map. A full level table stops it
before the first step; an empty pool stops it after the first, and the new
level stays behind.
-/

namespace VidhiArena.GameMaster

open VidhiArena.Foundation

/-! ## The level -/

theorem Layout.hasLevel_view {L : Layout} (lob : PersistentLOB) {b : Bool} {p : Int64} :
    Book.hasLevel ((L.view lob).side b) p = true ↔ ∃ g ∈ L.side b, g.level.priceFp = p := by
  rw [Layout.view_side, Book.hasLevel, List.any_eq_true]
  constructor
  · rintro ⟨lv, hlv, hp⟩
    obtain ⟨g, hg, rfl⟩ := List.mem_map.mp hlv
    exact ⟨g, hg, of_decide_eq_true hp⟩
  · rintro ⟨g, hg, hp⟩
    exact ⟨g.view lob.pool.nodes, List.mem_map_of_mem hg, decide_eq_true hp⟩

/-- The level that `LOBSide::insert` writes. -/
def freshLevel (p : Int64) : GLevel := ⟨⟨p, 0, nullIdx, nullIdx, 0⟩, []⟩

theorem freshLevel_ok (nodes : UInt32 → LimitOrder) (p : Int64) :
    (freshLevel p).Ok nodes :=
  ⟨rfl, rfl, rfl, rfl, List.Pairwise.nil⟩

namespace Rep

variable {lob : PersistentLOB} {L : Layout}

theorem getOrCreate_full (h : Rep lob L) {b : Bool} {p : Int64}
    (hfull : (L.view lob).TableFull b p) : (lob.side b).getOrCreate p = none := by
  obtain ⟨habs, hlen⟩ := hfull
  have hnone : (lob.side b).find p = none := by
    refine h.find_absent fun g hg hp => ?_
    rw [(Layout.hasLevel_view lob).mpr ⟨g, hg, hp⟩] at habs
    cases habs
  rw [Layout.view_side, List.length_map] at hlen
  rw [LOBSide.getOrCreate, hnone]
  simp only [LOBSide.insert]
  rw [if_pos (by rw [h.mem_side_levels, List.length_map]; exact hlen)]

/-- The prices stay sorted where `insert` puts a new one. -/
theorem sorted_insertLevel (h : Rep lob L) {b : Bool} {p : Int64} {pre post : List GLevel}
    (hside : L.side b = pre ++ post) (habs : ∀ g ∈ L.side b, g.level.priceFp ≠ p)
    (hpre : ∀ g ∈ pre, LOBSide.before b p g.level.priceFp = false)
    (hpost : ∀ g post', post = g :: post' → LOBSide.before b p g.level.priceFp = true) :
    LOBSide.Sorted b ((pre ++ [freshLevel p] ++ post).map fun g => g.level.priceFp) := by
  have hsorted := h.sorted b
  rw [hside, List.map_append] at hsorted
  have hins := LOBSide.sorted_insertion (p := p) hsorted ?_ ?_ ?_
  · simpa [freshLevel] using hins
  · rw [← List.map_append, ← hside]
    intro hp
    obtain ⟨g, hg, hgp⟩ := List.mem_map.mp hp
    exact habs g hg hgp
  · intro x hx
    obtain ⟨g, hg, rfl⟩ := List.mem_map.mp hx
    exact hpre g hg
  · intro x post' heq
    obtain ⟨g, post'', rfl, rfl, rfl⟩ := List.map_eq_cons_iff.mp heq
    exact hpost g post'' rfl

/-- A new price: the fresh level stands where the naive map puts it. -/
theorem insertLevel (h : Rep lob L) {b : Bool} {p : Int64}
    (habs : ∀ g ∈ L.side b, g.level.priceFp ≠ p) (hlen : (L.side b).length < maxPriceLevels) :
    ∃ side' pre post, L.side b = pre ++ post ∧
      (lob.side b).insert p = some (pre.length, side') ∧
      side'.levels.getD pre.length default = (freshLevel p).level ∧
      Rep (lob.setSide b side') (L.setSide b (pre ++ freshLevel p :: post)) ∧
      (L.setSide b (pre ++ freshLevel p :: post)).view (lob.setSide b side') =
        (L.view lob).setSide b
          (Book.insertLevel b ⟨p, []⟩ ((L.view lob).side b)) := by
  obtain ⟨pre, post, hside, hidx, hpre, hpost⟩ :=
    LOBSide.insertion_point (fun g : GLevel => g.level.priceFp) b p (L.side b)
  have hsplit : L.side b = pre ++ [] ++ post := by rw [hside]; simp
  let side' : LOBSide := ⟨(pre ++ freshLevel p :: post).map GLevel.level, b⟩
  have hmid : pre ++ freshLevel p :: post = pre ++ [freshLevel p] ++ post := by simp
  refine ⟨side', pre, post, hside, ?_, ?_, ?_, ?_⟩
  · have hidx' : ((L.side b).map GLevel.level).findIdx
        (fun lv => LOBSide.before b p lv.priceFp) = pre.length := by
      rw [List.findIdx_map]
      exact hidx
    have hle : ¬ maxPriceLevels ≤ (L.side b).length := by omega
    simp only [LOBSide.insert, h.sides b, List.length_map, if_neg hle, hidx']
    have hat := LOBSide.insertIdx_append (pre.map GLevel.level) (post.map GLevel.level)
      (freshLevel p).level
    rw [List.length_map] at hat
    rw [hside, List.map_append]
    exact congrArg (fun ls => some (pre.length, (⟨ls, b⟩ : LOBSide)))
      (hat.trans (by simp))
  · simp [side', List.getD_eq_getElem?_getD]
  · rw [hmid]
    refine h.splice _ hsplit ?_ (by simp) (by simp) ?_ ?_ ?_ (by simp [freshLevel]) (by simp)
      (by simp [freshLevel]) ?_ ?_ (by simpa using h.blank)
    · rw [PersistentLOB.side_setSide, ← hmid]
    · intro g hg
      rw [List.mem_singleton.mp hg]
      exact freshLevel_ok _ p
    · exact h.sorted_insertLevel hside habs hpre hpost
    · rw [hside] at hlen
      simp only [List.length_append, List.length_cons, List.length_nil] at hlen ⊢
      omega
    · have hd := ((Layout.indices_split hsplit).map
        fun i => (lob.pool.nodes i).orderId).nodup_iff.mp h.distinct
      simpa [freshLevel] using hd
    · rw [PersistentLOB.setSide_orderMap, Layout.entries_congr lob.pool.nodes ?_
        (by simp)]
      · exact h.map
      · intro i q
        simp only [hside, Layout.queued_append]
        simp [Layout.Queued, freshLevel]
  · have hview := Layout.view_splice lob (lob.setSide b side') [freshLevel p] hsplit (by simp)
    rw [hmid, hview, Layout.view_side, hside, List.map_append,
      Book.insertLevel_eq (pre.map _) (post.map _)]
    · cases b <;> simp [freshLevel, GLevel.view, Book.setSide, PersistentLOB.setSide,
        Layout.view]
    · intro x hx
      obtain ⟨g, hg, rfl⟩ := List.mem_map.mp hx
      exact hpre g hg
    · intro x post' heq
      obtain ⟨g, post'', rfl, rfl, rfl⟩ := List.map_eq_cons_iff.mp heq
      exact hpost g post'' rfl

theorem getOrCreate (h : Rep lob L) {b : Bool} {p : Int64}
    (hroom : ¬ (L.view lob).TableFull b p) :
    ∃ side' L₁ pre g post, (lob.side b).getOrCreate p = some (pre.length, side') ∧
      Rep (lob.setSide b side') L₁ ∧ L₁.side b = pre ++ g :: post ∧
      g.level.priceFp = p ∧ side'.levels.getD pre.length default = g.level ∧
      L₁.view (lob.setSide b side') =
        (L.view lob).setSide b (Book.openLevel b p ((L.view lob).side b)) := by
  by_cases hp : ∃ g ∈ L.side b, g.level.priceFp = p
  · have hhas := (Layout.hasLevel_view lob).mpr hp
    obtain ⟨g, hg, rfl⟩ := hp
    obtain ⟨pre, post, hside, hfind, hgetD⟩ := h.find_level hg
    have hself : lob.setSide b (lob.side b) = lob := by cases b <;> rfl
    -- the level is there, and the side stays as it is
    refine ⟨lob.side b, L, pre, g, post, ?_, ?_, hside, rfl, hgetD, ?_⟩
    · rw [LOBSide.getOrCreate, hfind]
    · rw [hself]
      exact h
    · rw [hself, Book.openLevel, if_pos hhas, Book.setSide_side]
  · have habs : ∀ g ∈ L.side b, g.level.priceFp ≠ p := fun g hg hgp => hp ⟨g, hg, hgp⟩
    have hhas : Book.hasLevel ((L.view lob).side b) p = false := by
      rw [← Bool.not_eq_true, Layout.hasLevel_view]
      exact hp
    have hlen : (L.side b).length < maxPriceLevels := by
      by_contra hge
      refine hroom ⟨hhas, ?_⟩
      rw [Layout.view_side, List.length_map]
      omega
    obtain ⟨side', pre, post, _, hins, hgetD, hrep, hview⟩ := h.insertLevel habs hlen
    refine ⟨side', _, pre, freshLevel p, post, ?_, hrep, L.side_setSide b _, rfl, hgetD, ?_⟩
    · rw [LOBSide.getOrCreate, h.find_absent habs]
      exact hins
    · rw [hview, Book.openLevel, hhas]
      rfl

/-! ## The node -/

/-- A slot of the free stack is in no queue. -/
theorem ne_free (h : Rep lob L) {x : UInt32} {rest : List UInt32}
    (hfree : lob.pool.freeStack = x :: rest) : ∀ i ∈ L.indices, i ≠ x := by
  rintro i hi rfl
  have hnd := h.nodup
  rw [hfree, List.cons_append, List.nodup_cons] at hnd
  exact hnd.1 (List.mem_append_right _ hi)

section Append

variable {b : Bool} {g : GLevel} {x : UInt32} {rest : List UInt32} {node : LimitOrder}

/-- The total and the ids of a grown level, on any slab that keeps the orders. -/
theorem grown (h : Rep lob L) (hg : g ∈ L.side b)
    (hfree : lob.pool.freeStack = x :: rest) (hid : node.orderId = lob.nextOrderId)
    (nodes : UInt32 → LimitOrder) (hnx : (nodes x).resting = node.resting)
    (hrest : ∀ i, i ≠ x → (nodes i).resting = (lob.pool.nodes i).resting) :
    (((g.chain ++ [x]).map fun i => (nodes i).volume).sum = g.level.totalVolume + node.volume) ∧
      ((g.chain ++ [x]).map fun i => (nodes i).orderId).Pairwise (· < ·) := by
  have hok := h.ok b g hg
  have hmem : ∀ i ∈ g.chain, i ∈ L.indices := fun i hi => Layout.mem_indices_of hg hi
  have hxg : ∀ i ∈ g.chain, i ≠ x := fun i hi => h.ne_free hfree i (hmem i hi)
  have hvol : (g.chain.map fun i => (nodes i).volume) =
      g.chain.map fun i => (lob.pool.nodes i).volume :=
    List.map_congr_left fun i hi => congrArg RestingOrder.volume (hrest i (hxg i hi))
  have hids : (g.chain.map fun i => (nodes i).orderId) =
      g.chain.map fun i => (lob.pool.nodes i).orderId :=
    List.map_congr_left fun i hi => congrArg RestingOrder.orderId (hrest i (hxg i hi))
  have hvx : (nodes x).volume = node.volume := congrArg RestingOrder.volume hnx
  have hix : (nodes x).orderId = node.orderId := congrArg RestingOrder.orderId hnx
  constructor
  · rw [List.map_append, List.sum_append, hvol, ← hok.total, List.map_singleton, hvx,
      List.sum_singleton]
  · rw [List.map_append, hids, List.pairwise_append]
    refine ⟨hok.ids, List.pairwise_singleton _ _, ?_⟩
    intro a ha c hc
    obtain ⟨i, hi, rfl⟩ := List.mem_map.mp ha
    rw [List.map_singleton, List.mem_singleton] at hc
    rw [hc, hix, hid, UInt64.lt_iff_toNat_lt]
    exact (h.issued i (hmem i hi)).2

/-- What linking slot `x` behind the queue of `g` leaves in the pool and in the level. -/
structure Linked (nodes : UInt32 → LimitOrder) (g : GLevel) (x : UInt32) (rest : List UInt32)
    (node : LimitOrder) (pool : OrderPool) (lv : PriceLevel) : Prop where
  free : pool.freeStack = rest
  new : (pool.nodes x).resting = node.resting
  resting : ∀ i, i ≠ x → (pool.nodes i).resting = (nodes i).resting
  frame : ∀ i, i ∉ g.chain → i ≠ x → pool.nodes i = nodes i
  ok : GLevel.Ok pool.nodes ⟨lv, g.chain ++ [x]⟩
  price : lv.priceFp = g.level.priceFp

/-- The first order of its level. -/
theorem appendNode_first (h : Rep lob L) (hg : g ∈ L.side b)
    (hfree : lob.pool.freeStack = x :: rest) (hid : node.orderId = lob.nextOrderId)
    (hnext : node.next = nullIdx) (hnil : g.chain = []) :
    ∃ pool lv, PersistentLOB.appendNode ⟨Function.update lob.pool.nodes x node, rest⟩ g.level x
        node.volume = .ok (pool, lv) ∧ Linked lob.pool.nodes g x rest node pool lv := by
  have hok := h.ok b g hg
  have hxnull := Rep.ne_null_of_lt (h.lt_of_mem (i := x) (by rw [hfree]; simp))
  have htail : g.level.tail = nullIdx := by rw [hok.tail, hnil]; rfl
  have hkeep : ∀ i, i ≠ x → Function.update lob.pool.nodes x node i = lob.pool.nodes i :=
    fun i hi => Function.update_of_ne hi _ _
  obtain ⟨htotal, hids⟩ := h.grown hg hfree hid
    (Function.update lob.pool.nodes x node) (by rw [Function.update_self])
    fun i hi => by rw [hkeep i hi]
  refine ⟨_, _, if_pos htail, rfl, congrArg LimitOrder.resting (Function.update_self ..),
    fun i hi => congrArg LimitOrder.resting (hkeep i hi), fun i _ hi => hkeep i hi,
    ⟨?_, ?_, ?_, htotal.symm, hids⟩, rfl⟩
  · rw [hnil]
    refine ⟨rfl, hxnull, ?_⟩
    simp only [Function.update_self, hnext]
    rfl
  · rw [lastOr_snoc]
  · simp only [hok.count, hnil]
    rfl

/-- Behind the old tail, whose `next` is the only other field that changes. -/
theorem appendNode_behind (h : Rep lob L) (hg : g ∈ L.side b)
    (hfree : lob.pool.freeStack = x :: rest) (hid : node.orderId = lob.nextOrderId)
    (hnext : node.next = nullIdx) (hnil : g.chain ≠ []) :
    ∃ pool lv, PersistentLOB.appendNode ⟨Function.update lob.pool.nodes x node, rest⟩ g.level x
        node.volume = .ok (pool, lv) ∧ Linked lob.pool.nodes g x rest node pool lv := by
  have hok := h.ok b g hg
  have hxnull := Rep.ne_null_of_lt (h.lt_of_mem (i := x) (by rw [hfree]; simp))
  have hmem : ∀ i ∈ g.chain, i ∈ L.indices := fun i hi => Layout.mem_indices_of hg hi
  have hxg : ∀ i ∈ g.chain, i ≠ x := fun i hi => h.ne_free hfree i (hmem i hi)
  have htail : ¬ g.level.tail = nullIdx := by
    rw [hok.tail, hok.path.lastOr_eq_null_iff]
    exact hnil
  have hlast : g.level.tail ∈ g.chain := by
    rw [hok.tail]
    exact lastOr_mem hnil
  have hlt := h.lt_of_mem (List.mem_append_right _ (hmem _ hlast))
  have htx := hxg _ hlast
  let nodes₁ := Function.update lob.pool.nodes x node
  let nodes₂ := Function.update nodes₁ g.level.tail { nodes₁ g.level.tail with next := x }
  have hx : nodes₂ x = node := by
    rw [show nodes₂ x = nodes₁ x from Function.update_of_ne htx.symm _ _]
    exact Function.update_self ..
  have ht : nodes₂ g.level.tail = { lob.pool.nodes g.level.tail with next := x } := by
    rw [show nodes₂ g.level.tail = { nodes₁ g.level.tail with next := x } from
      Function.update_self .., show nodes₁ g.level.tail = lob.pool.nodes g.level.tail from
      Function.update_of_ne htx _ _]
  have hother : ∀ i, i ≠ x → i ≠ g.level.tail → nodes₂ i = lob.pool.nodes i := by
    intro i hi hit
    rw [show nodes₂ i = nodes₁ i from Function.update_of_ne hit _ _]
    exact Function.update_of_ne hi _ _
  have hkeep : ∀ i, i ≠ x → (nodes₂ i).resting = (lob.pool.nodes i).resting := by
    intro i hi
    by_cases hit : i = g.level.tail
    · rw [hit, ht]
      rfl
    · rw [hother i hi hit]
  obtain ⟨htotal, hids⟩ := h.grown hg hfree hid nodes₂ (by rw [hx]) hkeep
  refine ⟨⟨nodes₂, rest⟩, { g.level with
      tail := x
      totalVolume := g.level.totalVolume + node.volume
      count := g.level.count + 1 }, ?_, rfl,
    congrArg LimitOrder.resting hx, hkeep, ?_, ⟨?_, ?_, ?_, htotal.symm, hids⟩, rfl⟩
  · simp only [PersistentLOB.appendNode, if_neg htail, OrderPool.get, OrderPool.set,
      if_pos hlt, ok_bind, pure_ok]
    rfl
  · intro i hi hix
    refine hother i hix ?_
    rintro rfl
    exact hi hlast
  · refine hok.path.snoc hnil (h.chain_nodup hg) (fun hc => hxg x hc rfl) hxnull ?_ ?_ ?_
    · rw [← hok.tail]
      exact congrArg LimitOrder.next ht
    · exact (congrArg LimitOrder.next hx).trans hnext
    · intro i hi hne
      rw [← hok.tail] at hne
      exact congrArg LimitOrder.next (hother i (hxg i hi) hne)
  · rw [lastOr_snoc]
  · simp only [hok.count, List.length_append, List.length_singleton]
    omega

/-- Linking a fresh slot behind the tail: the queue grows by it, and only the
old tail is touched besides. -/
theorem appendNode (h : Rep lob L) (hg : g ∈ L.side b)
    (hfree : lob.pool.freeStack = x :: rest) (node : LimitOrder)
    (hid : node.orderId = lob.nextOrderId)
    (hnext : node.next = nullIdx) :
    ∃ pool lv, PersistentLOB.appendNode ⟨Function.update lob.pool.nodes x node, rest⟩ g.level x
        node.volume = .ok (pool, lv) ∧ Linked lob.pool.nodes g x rest node pool lv := by
  by_cases hnil : g.chain = []
  · exact h.appendNode_first hg hfree hid hnext hnil
  · exact h.appendNode_behind hg hfree hid hnext hnil

end Append

theorem entries_append (h : Rep lob L) {b : Bool} {pre post : List GLevel} {g : GLevel}
    {x : UInt32} {rest : List UInt32} (hfree : lob.pool.freeStack = x :: rest)
    {lv : PriceLevel} (nodes : UInt32 → LimitOrder)
    (hside : L.side b = pre ++ g :: post) (hprice : lv.priceFp = g.level.priceFp)
    (hids : ∀ i, i ≠ x → (nodes i).orderId = (lob.pool.nodes i).orderId) :
    (L.setSide b (pre ++ [⟨lv, g.chain ++ [x]⟩] ++ post)).entries nodes =
      Set.insert ⟨(nodes x).orderId, x, g.level.priceFp, b⟩ (L.entries lob.pool.nodes) := by
  have hsplit : L.side b = pre ++ [g] ++ post := by rw [hside]; simp
  have hfresh := h.ne_free hfree
  -- the queue has grown by one slot, at the price of the level
  have hqueued : ∀ c i p, Layout.Queued ((L.setSide b (pre ++
      [⟨lv, g.chain ++ [x]⟩] ++ post)).side c) i p ↔
      Layout.Queued (L.side c) i p ∨ (c = b ∧ i = x ∧ p = g.level.priceFp) := by
    intro c i p
    by_cases hc : c = b
    · subst hc
      rw [L.side_setSide, hsplit]
      simp only [Layout.queued_append, Layout.queued_singleton, List.mem_append,
        List.mem_singleton, hprice, true_and, eq_comm (a := p)]
      tauto
    · obtain rfl : c = !b := by cases b <;> cases c <;> simp_all
      rw [L.side_setSide_not]
      simp [hc]
  ext e
  simp only [Layout.entries, Set.mem_ofPred_eq, hqueued]
  constructor
  · rintro ⟨hq | ⟨hb, hv, hp⟩, hk⟩
    · have hmem := hq
      obtain ⟨g', hg', hi, _⟩ := hmem
      refine Or.inr ⟨hq, ?_⟩
      rw [hk, hids _ (hfresh _ (Layout.mem_indices_of hg' hi))]
    · refine Or.inl ?_
      obtain ⟨k, v, p, c⟩ := e
      simp only at hb hv hp hk
      subst hb hv hp hk
      rfl
  · rintro (rfl | ⟨hq, hk⟩)
    · exact ⟨Or.inr ⟨rfl, rfl, rfl⟩, rfl⟩
    · have hmem := hq
      obtain ⟨g', hg', hi, _⟩ := hmem
      exact ⟨Or.inl hq, by rw [hk, hids _ (hfresh _ (Layout.mem_indices_of hg' hi))]⟩

theorem enqueue_eq {p : Int64} {o : RestingOrder} {pre post : List BookLevel} (lv : BookLevel)
    (hlv : lv.priceFp = p) (hrest : ∀ x ∈ pre ++ post, x.priceFp ≠ p) :
    Book.enqueue p o (pre ++ lv :: post) =
      pre ++ { lv with queue := lv.queue ++ [o] } :: post := by
  have hkeep : ∀ l : List BookLevel, (∀ x ∈ l, x.priceFp ≠ p) →
      (l.map fun lv => if lv.priceFp = p then { lv with queue := lv.queue ++ [o] } else lv) =
        l := by
    intro l hl
    rw [List.map_congr_left (g := id) fun x hx => by rw [if_neg (hl x hx), id], List.map_id]
  rw [Book.enqueue, List.map_append, List.map_cons, if_pos hlv,
    hkeep pre fun x hx => hrest x (List.mem_append_left _ hx),
    hkeep post fun x hx => hrest x (List.mem_append_right _ hx)]

theorem toNat_next {n : UInt64} (h : n ≠ emptyKey) : (n + 1).toNat = n.toNat + 1 := by
  have hne : n.toNat ≠ 18446744073709551615 := fun hn => h (UInt64.toNat_inj.mp hn)
  have hlt := n.toNat_lt
  rw [UInt64.toNat_add, UInt64.toNat_one]
  omega

section Enter

variable {b : Bool} {pre post : List GLevel} {g : GLevel} {x : UInt32} {rest : List UInt32}
  {lv : PriceLevel} {nodes : UInt32 → LimitOrder}

/-- The ids handed out so far, and the one handed out now. -/
theorem issued_append (h : Rep lob L) (hg : g ∈ L.side b)
    (hfree : lob.pool.freeStack = x :: rest) (hxid : (nodes x).orderId = lob.nextOrderId)
    (hids : ∀ i, i ≠ x → (nodes i).orderId = (lob.pool.nodes i).orderId) :
    ∀ i ∈ g.chain ++ [x], 0 < (nodes i).orderId.toNat ∧
      (nodes i).orderId.toNat < lob.nextOrderId.toNat + 1 := by
  intro i hi
  rcases List.mem_append.mp hi with hi | hi
  · have hii := Layout.mem_indices_of hg hi
    have := h.issued i hii
    rw [hids i (h.ne_free hfree i hii)]
    omega
  · rw [List.mem_singleton] at hi
    subst hi
    have := h.counter
    rw [hxid]
    omega

/-- The id of the new slot is the largest, and the other ids stay. -/
theorem distinct_append (h : Rep lob L) (hsplit : L.side b = pre ++ [g] ++ post)
    (hfree : lob.pool.freeStack = x :: rest) (hxid : (nodes x).orderId = lob.nextOrderId)
    (hids : ∀ i, i ≠ x → (nodes i).orderId = (lob.pool.nodes i).orderId) :
    ((Layout.slots [⟨lv, g.chain ++ [x]⟩] ++ (Layout.slots (pre ++ post) ++
      Layout.slots (L.side !b))).map fun i => (nodes i).orderId).Nodup := by
  let old := Layout.slots [g] ++ (Layout.slots (pre ++ post) ++ Layout.slots (L.side !b))
  have hold : ∀ i ∈ old, i ∈ L.indices := fun i hi =>
    (Layout.indices_split hsplit).mem_iff.mpr hi
  have hd : (old.map fun i => (lob.pool.nodes i).orderId).Nodup :=
    ((Layout.indices_split hsplit).map fun i => (lob.pool.nodes i).orderId).nodup_iff.mp
      h.distinct
  have hsame : (old.map fun i => (nodes i).orderId) =
      old.map fun i => (lob.pool.nodes i).orderId :=
    List.map_congr_left fun i hi => hids i (h.ne_free hfree i (hold i hi))
  have hnew : (nodes x).orderId ∉ old.map fun i => (lob.pool.nodes i).orderId := by
    rw [hxid]
    intro hmem
    obtain ⟨i, hi, heq⟩ := List.mem_map.mp hmem
    have := (h.issued i (hold i hi)).2
    rw [heq] at this
    exact Nat.lt_irrefl _ this
  have hcons : ((x :: old).map fun i => (nodes i).orderId).Nodup := by
    rw [List.map_cons, hsame]
    exact List.nodup_cons.mpr ⟨hnew, hd⟩
  refine ((List.Perm.map _ ?_).nodup_iff).mp hcons
  have hlast : (g.chain ++ x :: (Layout.slots (pre ++ post) ++ Layout.slots (L.side !b))).Perm
      (x :: (g.chain ++ (Layout.slots (pre ++ post) ++ Layout.slots (L.side !b)))) :=
    List.perm_middle
  simpa [old] using hlast.symm

/-- The new entry goes into the order map, and no entry has its id. -/
theorem represents_append (h : Rep lob L) (hside : L.side b = pre ++ g :: post)
    (hfree : lob.pool.freeStack = x :: rest) (hnext : lob.nextOrderId ≠ emptyKey)
    (hprice : lv.priceFp = g.level.priceFp) (hxid : (nodes x).orderId = lob.nextOrderId)
    (hids : ∀ i, i ≠ x → (nodes i).orderId = (lob.pool.nodes i).orderId) :
    Probing.Represents MapEntry.key emptyKey deletedKey PersistentLOB.mapSlot mapSize
      (PersistentLOB.mapInsert lob.orderMap lob.nextOrderId x g.level.priceFp b)
      ((L.setSide b (pre ++ [⟨lv, g.chain ++ [x]⟩] ++ post)).entries nodes) := by
  obtain ⟨s, hs⟩ := h.vacancy lob.nextOrderId
  rw [PersistentLOB.mapInsert, hs, h.entries_append hfree nodes hside hprice hids, hxid]
  refine h.map.insert (e := ⟨lob.nextOrderId, x, g.level.priceFp, b⟩) ⟨hnext, ?_⟩ ?_ hs
  · intro hz
    have hpos := h.counter
    have hz' : lob.nextOrderId = deletedKey := hz
    rw [hz'] at hpos
    exact absurd hpos (by decide)
  · intro e he hk
    have hlt := (h.issued e.val (Rep.mem_indices_of_entry he)).2
    have hkey : e.key = lob.nextOrderId := hk
    rw [← he.2, hkey] at hlt
    exact Nat.lt_irrefl _ hlt

/-- The prices of a side are distinct. -/
theorem price_ne (h : Rep lob L) (hside : L.side b = pre ++ g :: post) :
    ∀ y ∈ pre.map (GLevel.view nodes) ++ post.map (GLevel.view nodes),
      y.priceFp ≠ g.level.priceFp := by
  intro y hy
  rw [← List.map_append] at hy
  obtain ⟨g', hg', rfl⟩ := List.mem_map.mp hy
  have hnd := (h.sorted b).nodup
  rw [hside] at hnd
  have hperm : ((pre ++ g :: post).map fun g => g.level.priceFp).Perm
      (g.level.priceFp :: (pre ++ post).map fun g => g.level.priceFp) := by
    simp
  have := (List.nodup_cons.mp (hperm.nodup_iff.mp hnd)).1
  intro heq
  exact this (heq ▸ List.mem_map_of_mem hg')

/-- The view of a grown level has the new order at its end. -/
theorem view_linked (h : Rep lob L) (hg : g ∈ L.side b)
    (hfree : lob.pool.freeStack = x :: rest) {node : LimitOrder} {pool : OrderPool}
    (hl : Linked lob.pool.nodes g x rest node pool lv) :
    (⟨lv, g.chain ++ [x]⟩ : GLevel).view pool.nodes =
      { g.view lob.pool.nodes with
        queue := (g.view lob.pool.nodes).queue ++ [node.resting] } := by
  have hmap : (g.chain.map fun i => (pool.nodes i).resting) =
      g.chain.map fun i => (lob.pool.nodes i).resting :=
    List.map_congr_left fun i hi =>
      hl.resting i (h.ne_free hfree i (Layout.mem_indices_of hg hi))
  simp only [GLevel.view, hl.price, List.map_append, List.map_singleton, hmap, hl.new]

theorem enter (h : Rep lob L) (hside : L.side b = pre ++ g :: post)
    (hfree : lob.pool.freeStack = x :: rest) (hnext : lob.nextOrderId ≠ emptyKey)
    (volume : Int64) (participant : ParticipantID) {pool : OrderPool}
    (hl : Linked lob.pool.nodes g x rest ⟨lob.nextOrderId, volume, participant, nullIdx⟩
      pool lv) :
    let lob' := { lob.setSide b ((lob.side b).setLevel pre.length lv) with
      pool := pool
      nextOrderId := lob.nextOrderId + 1
      orderMap := PersistentLOB.mapInsert lob.orderMap lob.nextOrderId x g.level.priceFp b }
    let L' := L.setSide b (pre ++ [⟨lv, g.chain ++ [x]⟩] ++ post)
    Rep lob' L' ∧
      L'.view lob' = { (L.view lob).setSide b (Book.enqueue g.level.priceFp
          ⟨lob.nextOrderId, volume, participant⟩ ((L.view lob).side b)) with
        nextOrderId := lob.nextOrderId + 1 } := by
  intro lob' L'
  have hsplit : L.side b = pre ++ [g] ++ post := by rw [hside]; simp
  have hg : g ∈ L.side b := by rw [hside]; simp
  have hxid : (pool.nodes x).orderId = lob.nextOrderId := congrArg RestingOrder.orderId hl.new
  have hids : ∀ i, i ≠ x → (pool.nodes i).orderId = (lob.pool.nodes i).orderId :=
    fun i hi => congrArg RestingOrder.orderId (hl.resting i hi)
  have hfresh := h.ne_free hfree
  have hcount : lob'.nextOrderId.toNat = lob.nextOrderId.toNat + 1 := toNat_next hnext
  have hkeep : ∀ i ∈ Layout.slots (pre ++ post) ++ Layout.slots (L.side !b),
      lob'.pool.nodes i = lob.pool.nodes i := by
    intro i hi
    have hold := (Layout.indices_split hsplit).mem_iff.mpr (List.mem_append_right _ hi)
    refine hl.frame i (fun hc => h.not_mem_rest hsplit hi ?_) (hfresh i hold)
    simpa using hc
  have hslots : Layout.slots [(⟨lv, g.chain ++ [x]⟩ : GLevel)] = g.chain ++ [x] := by simp
  constructor
  · refine h.splice _ hsplit ?_ ?_ hkeep ?_ ?_ ?_ ?_ (by rw [hcount]; omega) ?_
      (h.distinct_append hsplit hfree hxid hids)
      (h.represents_append hside hfree hnext hl.price hxid hids)
      (h.blank.insert hnext _ _ _)
    · show (lob.setSide b _).side b = _
      rw [PersistentLOB.side_setSide, h.sides b, hside]
      simp [LOBSide.setLevel, List.set_append_right]
    · exact PersistentLOB.side_setSide_not lob b _
    · intro g' hg'
      rw [List.mem_singleton.mp hg']
      exact hl.ok
    · have hsorted := h.sorted b
      rw [hsplit] at hsorted
      simpa [hl.price] using hsorted
    · have hroom := h.room b
      rw [hsplit] at hroom
      simpa using hroom
    · show (pool.freeStack ++ _).Perm _
      rw [hslots, hl.free, hfree]
      have hlast : (rest ++ g.chain ++ x :: []).Perm (x :: (rest ++ g.chain ++ [])) :=
        List.perm_middle
      simpa using hlast
    · rw [hslots]
      intro i hi
      rw [hcount]
      exact h.issued_append hg hfree hxid hids i hi
  · have hview := Layout.view_splice lob lob' [⟨lv, g.chain ++ [x]⟩] hsplit hkeep
    have hmid : (L.view lob).side b = pre.map (GLevel.view lob.pool.nodes) ++
        g.view lob.pool.nodes :: post.map (GLevel.view lob.pool.nodes) := by
      rw [Layout.view_side, hside, List.map_append, List.map_cons]
    show (L.setSide b _).view lob' = _
    rw [hview, hmid, enqueue_eq (p := g.level.priceFp) (g.view lob.pool.nodes) rfl
      (h.price_ne hside), List.map_singleton, h.view_linked hg hfree hl]
    cases b <;> simp [Book.setSide, PersistentLOB.setSide, Layout.view, lob',
      LimitOrder.resting]

end Enter

/-! ## The simulation -/

theorem poolFull_iff (h : Rep lob L) :
    (L.view lob).PoolFull ↔ lob.pool.freeStack = [] := by
  have := h.length_partition
  rw [Book.PoolFull, Layout.view_orders, List.length_map, ← List.length_eq_zero_iff]
  omega

/-- `add_limit` is the naive add with the two capacity limits, as long as
the id it hands out is not the marker of empty slots. -/
theorem addLimit (h : Rep lob L) (hnext : lob.nextOrderId ≠ emptyKey) (isBid : Bool)
    (priceFp volume : Int64) (participant : ParticipantID) :
    ∃ lob' L', lob.addLimit isBid priceFp volume participant =
        .ok (((L.view lob).addLimitBounded isBid priceFp volume participant).1, lob') ∧
      Rep lob' L' ∧
      L'.view lob' = ((L.view lob).addLimitBounded isBid priceFp volume participant).2 := by
  by_cases hfull : (L.view lob).TableFull isBid priceFp
  · refine ⟨lob, L, ?_, h, ?_⟩
    · simp only [PersistentLOB.addLimit, h.getOrCreate_full hfull, Book.addLimitBounded,
        if_pos hfull]
    · rw [Book.addLimitBounded, if_pos hfull]
  · obtain ⟨side', L₁, pre, g, post, hcreate, hrep, hside, rfl, hgetD, hview⟩ :=
      h.getOrCreate hfull
    cases hfree : lob.pool.freeStack with
    | nil =>
        -- no slot is left: the level that has been made stays
        have hpool := h.poolFull_iff.mpr hfree
        refine ⟨lob.setSide isBid side', L₁, ?_, hrep, ?_⟩
        · simp only [PersistentLOB.addLimit, hcreate, OrderPool.alloc, hfree, if_true,
            Book.addLimitBounded, if_neg hfull, if_pos hpool]
          cases isBid <;> rfl
        · rw [Book.addLimitBounded, if_neg hfull, if_pos hpool, hview]
    | cons x rest =>
        have hpool : ¬ (L.view lob).PoolFull := by
          rw [h.poolFull_iff, hfree]
          exact List.cons_ne_nil x rest
        have hxlt : x.toNat < orderPoolSize := h.lt_of_mem (by rw [hfree]; simp)
        have hfree₁ : (lob.setSide isBid side').pool.freeStack = x :: rest := by
          rw [PersistentLOB.setSide_pool, hfree]
        obtain ⟨pool, lv, happend, hl⟩ := hrep.appendNode (b := isBid) (g := g)
          (by rw [hside]; simp) hfree₁
          ⟨(lob.setSide isBid side').nextOrderId, volume, participant, nullIdx⟩ rfl rfl
        obtain ⟨hrep', hview'⟩ := hrep.enter hside hfree₁ (by simpa using hnext) volume
          participant hl
        simp only [PersistentLOB.setSide_pool, PersistentLOB.setSide_nextOrderId] at happend
        refine ⟨_, _, ?_, hrep', ?_⟩
        · simp only [PersistentLOB.addLimit, hcreate, OrderPool.alloc, hfree,
            if_neg (Rep.ne_null_of_lt hxlt), OrderPool.set, if_pos hxlt, ok_bind, hgetD,
            happend, pure_ok, Book.addLimitBounded, if_neg hfull, if_neg hpool]
          cases isBid <;> rfl
        · rw [hview', hview, Book.addLimitBounded, if_neg hfull, if_neg hpool]
          cases isBid <;> rfl

end Rep

end VidhiArena.GameMaster
