import VidhiArena.GameMaster.Removal

/-!
# `cancel` against the naive book

The walk of `cancel` reaches the predecessor of the order it looks for, the
unlinking keeps the queue a queue, and the flat book after it is laid out as
the naive book after it.
-/

namespace VidhiArena.GameMaster

open VidhiArena.Foundation

theorem lastOr_cons {ι : Type} (null x : ι) (l : List ι) :
    lastOr null (x :: l) = lastOr x l := by
  rcases List.eq_nil_or_concat' l with rfl | ⟨l, y, rfl⟩
  · rfl
  · rw [← List.cons_append, lastOr_snoc, lastOr_snoc]

/-! ## Volumes of a queue -/

section Volumes

variable {α : Type} {f f' : α → Int64}

theorem sum_middle (a c : List α) (t : α) :
    ((a ++ t :: c).map f).sum = f t + ((a ++ c).map f).sum := by
  simp only [List.map_append, List.map_cons, List.sum_append, List.sum_cons]
  grind

end Volumes

namespace PersistentLOB

theorem findPrev_ok {pool : OrderPool} {t : UInt32} : ∀ {a c : List UInt32}
    {prev cur : UInt32} {fuel : Nat},
    Chain (fun i => (pool.nodes i).next) nullIdx cur (a ++ t :: c) → t ∉ a →
    (∀ i ∈ a, i.toNat < orderPoolSize) → a.length < fuel →
    findPrev pool t fuel prev cur = .ok (some (lastOr prev a))
  | _, _, _, _, 0, _, _, _, hfuel => absurd hfuel (Nat.not_lt_zero _)
  | [], _, prev, _, fuel + 1, ⟨rfl, hne, _⟩, _, _, _ => by
      simp [findPrev, hne]
  | x :: a, c, prev, _, fuel + 1, ⟨rfl, hne, hc⟩, hmem, hlt, hfuel => by
      have hxt : x ≠ t := fun h => hmem (h ▸ List.mem_cons_self)
      have hget : pool.get x = .ok (pool.nodes x) := if_pos (hlt x List.mem_cons_self)
      have ih : findPrev pool t fuel x (pool.nodes x).next = .ok (some (lastOr x a)) :=
        findPrev_ok hc (fun h => hmem (List.mem_cons_of_mem _ h))
        (fun i hi => hlt i (List.mem_cons_of_mem _ hi))
        (by rw [List.length_cons] at hfuel; omega)
      rw [lastOr_cons]
      simp only [findPrev, if_neg hne, if_neg hxt, hget]
      exact ih

end PersistentLOB

/-- Unlinking changes links only. -/
structure Relinked (pool pool' : OrderPool) (chain : List UInt32) (t : UInt32) : Prop where
  resting : ∀ i, (pool'.nodes i).resting = (pool.nodes i).resting
  frame : ∀ i, i ∉ chain → pool'.nodes i = pool.nodes i
  free : pool'.freeStack = t :: pool.freeStack

namespace Rep

variable {lob : PersistentLOB} {L : Layout} {b : Bool} {g : GLevel} {a c : List UInt32}
  {p t : UInt32}

/-- The fields of a level that shrinks by slot `t`. -/
theorem shrunk (h : Rep lob L) (hg : g ∈ L.side b) (hchain : g.chain = a ++ t :: c) :
    g.level.count - 1 = ((a ++ c).length : Int) ∧
      g.level.totalVolume - (lob.pool.nodes t).volume =
        ((a ++ c).map fun i => (lob.pool.nodes i).volume).sum ∧
      ((a ++ c).map fun i => (lob.pool.nodes i).orderId).Pairwise (· < ·) := by
  have hok := h.ok b g hg
  refine ⟨?_, ?_, ?_⟩
  · rw [hok.count, hchain]
    simp only [List.length_append, List.length_cons]
    omega
  · rw [hok.total, hchain, sum_middle (f := fun i => (lob.pool.nodes i).volume)]
    grind
  · have := hok.ids
    rw [hchain] at this
    exact this.sublist (List.Sublist.map _ (by simp))

/-- The stack has room for a slot that is in use. -/
theorem free_room (h : Rep lob L) (ht : t ∈ L.indices) :
    lob.pool.freeStack.length < orderPoolSize := by
  have := h.length_partition
  have := List.length_pos_of_mem ht
  omega

theorem unlinkNode_head (h : Rep lob L) (hg : g ∈ L.side b) (hchain : g.chain = t :: c) :
    ∃ pool lv, PersistentLOB.unlinkNode lob.pool g.level nullIdx t
        (lob.pool.nodes t).volume = .ok (pool, lv) ∧
      Relinked lob.pool pool g.chain t ∧ GLevel.Ok pool.nodes ⟨lv, c⟩ ∧
      lv.priceFp = g.level.priceFp := by
  have hok := h.ok b g hg
  have hnd := h.chain_nodup hg
  rw [hchain] at hnd
  have hti : t ∈ L.indices := Layout.mem_indices_of hg (by rw [hchain]; simp)
  have htne : t ≠ nullIdx := hok.path.ne_null t (by rw [hchain]; simp)
  obtain ⟨hcount, htotal, hids⟩ := h.shrunk (a := []) hg hchain
  refine ⟨{ lob.pool with freeStack := t :: lob.pool.freeStack },
    { g.level with
      head := (lob.pool.nodes t).next
      tail := if g.level.tail = t then nullIdx else g.level.tail
      totalVolume := g.level.totalVolume - (lob.pool.nodes t).volume
      count := g.level.count - 1 }, ?_,
    ⟨fun _ => rfl, fun _ _ => rfl, rfl⟩, ⟨?_, ?_, hcount, htotal, hids⟩, rfl⟩
  · simp only [PersistentLOB.unlinkNode, h.get hti, OrderPool.release, if_neg htne,
      if_pos (h.free_room hti), if_true, ok_bind, pure_ok]
  · have hpath := hok.path
    rw [hchain] at hpath
    exact hpath.2.2
  · rw [hok.tail, hchain]
    exact (lastOr_tail hnd).symm

theorem unlinkNode_behind (h : Rep lob L) (hg : g ∈ L.side b)
    (hchain : g.chain = a ++ p :: t :: c) :
    ∃ pool lv, PersistentLOB.unlinkNode lob.pool g.level p t
        (lob.pool.nodes t).volume = .ok (pool, lv) ∧
      Relinked lob.pool pool g.chain t ∧ GLevel.Ok pool.nodes ⟨lv, a ++ p :: c⟩ ∧
      lv.priceFp = g.level.priceFp := by
  have hok := h.ok b g hg
  have hnd := h.chain_nodup hg
  have hmem : ∀ i ∈ g.chain, i ∈ L.indices := fun i hi => Layout.mem_indices_of hg hi
  have htne : t ≠ nullIdx := hok.path.ne_null t (by rw [hchain]; simp)
  have hpne : p ≠ nullIdx := hok.path.ne_null p (by rw [hchain]; simp)
  obtain ⟨hcount, htotal, hids⟩ := h.shrunk (a := a ++ [p]) (t := t) (c := c) hg
    (by rw [hchain]; simp)
  simp only [List.append_assoc, List.singleton_append] at hcount htotal hids
  rw [hchain] at hnd hmem
  have hplt : p.toNat < orderPoolSize :=
    h.lt_of_mem (List.mem_append_right _ (hmem p (by simp)))
  let node := { lob.pool.nodes p with next := (lob.pool.nodes t).next }
  let nodes := Function.update lob.pool.nodes p node
  have hp : nodes p = node := Function.update_self ..
  have hother : ∀ i, i ≠ p → nodes i = lob.pool.nodes i := fun i hi =>
    Function.update_of_ne hi _ _
  have hsame : ∀ i, (nodes i).resting = (lob.pool.nodes i).resting := by
    intro i
    by_cases hip : i = p
    · rw [hip, hp]
      rfl
    · rw [hother i hip]
  have hvol : ∀ i, (nodes i).volume = (lob.pool.nodes i).volume := fun i =>
    congrArg RestingOrder.volume (hsame i)
  have hid : ∀ i, (nodes i).orderId = (lob.pool.nodes i).orderId := fun i =>
    congrArg RestingOrder.orderId (hsame i)
  refine ⟨{ nodes := nodes, freeStack := t :: lob.pool.freeStack },
    { g.level with
      tail := if g.level.tail = t then p else g.level.tail
      totalVolume := g.level.totalVolume - (lob.pool.nodes t).volume
      count := g.level.count - 1 }, ?_,
    ⟨hsame, ?_, rfl⟩, ⟨?_, ?_, hcount, by simpa only [hvol], by simpa only [hid]⟩, rfl⟩
  · simp only [PersistentLOB.unlinkNode, h.get (hmem t (by simp)), h.get (hmem p (by simp)),
      if_neg hpne, OrderPool.set, if_pos hplt, OrderPool.release, if_neg htne,
      if_pos (h.free_room (hmem t (by simp))), ok_bind, pure_ok]
    rfl
  · intro i hi
    refine hother i ?_
    rintro rfl
    exact hi (by rw [hchain]; simp)
  · have hpath := hok.path
    rw [hchain] at hpath
    -- only the `next` of the predecessor changes
    have hpa : p ∉ a ++ c := by
      simp only [List.nodup_append, List.nodup_cons, List.mem_cons, not_or] at hnd
      intro hpac
      rcases List.mem_append.mp hpac with hpa | hpc
      · exact hnd.2.2 p hpa p (Or.inl rfl) rfl
      · exact hnd.2.1.1.2 hpc
    have hskip : (nodes p).next = (lob.pool.nodes t).next := by rw [hp]
    refine hpath.unlink a hskip fun i hi => ?_
    exact congrArg LimitOrder.next (hother i fun e => hpa (e ▸ hi))
  · rw [lastOr_unlink hnd, hok.tail, hchain]

theorem unlinkNode_ok (h : Rep lob L) (hg : g ∈ L.side b) (hchain : g.chain = a ++ t :: c) :
    ∃ pool lv, PersistentLOB.unlinkNode lob.pool g.level (lastOr nullIdx a) t
        (lob.pool.nodes t).volume = .ok (pool, lv) ∧
      Relinked lob.pool pool g.chain t ∧ GLevel.Ok pool.nodes ⟨lv, a ++ c⟩ ∧
      lv.priceFp = g.level.priceFp := by
  rcases List.eq_nil_or_concat' a with rfl | ⟨a, p, rfl⟩
  · exact h.unlinkNode_head hg hchain
  · simp only [List.append_assoc, List.singleton_append] at hchain ⊢
    rw [lastOr_snoc]
    exact h.unlinkNode_behind hg hchain

end Rep

/-! ## The naive side -/

namespace Book

variable {orderId : UInt64}

theorem removeOrder_absent {ls : List BookLevel}
    (h : ∀ o ∈ priority ls, o.orderId ≠ orderId) : removeOrder orderId ls = ls := by
  have hsome : ∀ lv ∈ ls, withoutOrder orderId lv = some lv := by
    intro lv hlv
    have hany : (lv.queue.any fun o => o.orderId = orderId) = false := by
      rw [List.any_eq_false]
      intro o ho
      simpa using h o (List.mem_flatMap.mpr ⟨lv, hlv, ho⟩)
    simp [withoutOrder, hany]
  unfold removeOrder
  rw [List.filterMap_congr hsome, List.filterMap_some]

theorem cancel_eq {B : Book} {b : Bool} {pre post : List BookLevel} {lv : BookLevel}
    (hside : B.side b = pre ++ lv :: post) (hlv : ∃ o ∈ lv.queue, o.orderId = orderId)
    (hrest : ∀ o ∈ priority pre ++ priority post ++ priority (B.side !b),
      o.orderId ≠ orderId) :
    B.cancel orderId =
      (true, B.setSide b (pre ++ (withoutOrder orderId lv).toList ++ post)) := by
  obtain ⟨o, ho, hid⟩ := hlv
  have hmem : o ∈ priority (B.side b) := by
    rw [hside]
    exact List.mem_flatMap.mpr ⟨lv, by simp, ho⟩
  have hany : (B.orders.any fun o => o.orderId = orderId) = true := by
    rw [List.any_eq_true]
    refine ⟨o, ?_, by simpa using hid⟩
    cases b
    · exact List.mem_append_right _ hmem
    · exact List.mem_append_left _ hmem
  have hpre : removeOrder orderId pre = pre :=
    removeOrder_absent fun o ho => hrest o (by simp [ho])
  have hpost : removeOrder orderId post = post :=
    removeOrder_absent fun o ho => hrest o (by simp [ho])
  have hother : removeOrder orderId (B.side !b) = B.side !b :=
    removeOrder_absent fun o ho => hrest o (by simp [ho])
  have hthis : removeOrder orderId (B.side b) =
      pre ++ (withoutOrder orderId lv).toList ++ post := by
    rw [hside]
    unfold removeOrder at hpre hpost ⊢
    rw [List.filterMap_append, List.filterMap_cons, hpre, hpost]
    cases withoutOrder orderId lv <;> simp
  unfold cancel
  rw [if_pos hany]
  cases b <;> simp only [side, setSide, if_true, if_false, Bool.false_eq_true, Bool.not_true,
    Bool.not_false] at * <;> rw [hthis, hother]

theorem cancel_absent {B : Book} (h : ∀ o ∈ B.orders, o.orderId ≠ orderId) :
    B.cancel orderId = (false, B) := by
  have hany : (B.orders.any fun o => o.orderId = orderId) = false := by
    rw [List.any_eq_false]
    intro o ho
    simpa using h o ho
  simp [cancel, hany]

end Book

namespace Layout

theorem priority_view (nodes : UInt32 → LimitOrder) : ∀ gs : List GLevel,
    Book.priority (gs.map (GLevel.view nodes)) = (slots gs).map fun i => (nodes i).resting
  | [] => rfl
  | g :: gs => by
      have ih := priority_view nodes gs
      simp only [Book.priority] at ih
      simp [Book.priority, GLevel.view, ih]

theorem view_orders (L : Layout) (lob : PersistentLOB) :
    (L.view lob).orders = L.indices.map fun i => (lob.pool.nodes i).resting := by
  rw [Book.orders, indices, List.map_append, ← priority_view, ← priority_view]
  rfl

end Layout

theorem view_remnant (nodes : UInt32 → LimitOrder) {lv : PriceLevel} {chain : List UInt32}
    {g : BookLevel} {orderId : UInt64} (hp : lv.priceFp = g.priceFp)
    (hany : ∃ o ∈ g.queue, o.orderId = orderId)
    (hq : (g.queue.filter fun o => o.orderId ≠ orderId) =
      chain.map fun i => (nodes i).resting) :
    (remnant lv chain).map (GLevel.view nodes) = (Book.withoutOrder orderId g).toList := by
  have hany' : (g.queue.any fun o => o.orderId = orderId) = true := by
    obtain ⟨o, ho, hid⟩ := hany
    exact List.any_eq_true.mpr ⟨o, ho, by simpa using hid⟩
  simp only [Book.withoutOrder, hany', if_true, hq]
  cases chain with
  | nil => simp [remnant]
  | cons i c => simp [remnant, GLevel.view, hp]

/-! ## The simulation -/

section Resting

variable {lob : PersistentLOB} {L : Layout} {b : Bool} {g : GLevel} {a c : List UInt32}
  {t : UInt32}

theorem Rep.not_mem_around (h : Rep lob L) (hg : g ∈ L.side b) (hchain : g.chain = a ++ t :: c) :
    t ∉ a ∧ t ∉ c := by
  have hnd := h.chain_nodup hg
  rw [hchain] at hnd
  exact ⟨fun hta => (List.nodup_append.mp hnd).2.2 t hta t (by simp) rfl,
    (List.nodup_cons.mp (List.nodup_append.mp hnd).2.1).1⟩

/-- The walk of `cancel` stops in front of slot `t`. -/
theorem Rep.findPrev_chain (h : Rep lob L) (hg : g ∈ L.side b)
    (hchain : g.chain = a ++ t :: c) :
    PersistentLOB.findPrev lob.pool t (orderPoolSize + 1) nullIdx g.level.head =
      .ok (some (lastOr nullIdx a)) := by
  have hpath := (h.ok b g hg).path
  have hnd := h.chain_nodup hg
  rw [hchain] at hpath
  refine PersistentLOB.findPrev_ok hpath (h.not_mem_around hg hchain).1 ?_ ?_
  · intro i hi
    exact h.lt_of_mem (List.mem_append_right _
      (Layout.mem_indices_of hg (by rw [hchain]; simp [hi])))
  · have hle : g.chain.length ≤ L.indices.length :=
      (hnd.subperm fun i hi => Layout.mem_indices_of hg hi).length_le
    have := h.length_partition
    rw [hchain] at hle
    simp only [List.length_append, List.length_cons] at hle
    omega

/-- The ids are distinct, so no other order carries that of slot `t`. -/
theorem Rep.orderId_ne (h : Rep lob L) (ht : t ∈ L.indices) :
    ∀ i ∈ L.indices, i ≠ t →
      (lob.pool.nodes i).resting.orderId ≠ (lob.pool.nodes t).orderId :=
  fun _ hi hit hid => hit (h.slot_of_orderId hi ht hid)

theorem Rep.filter_queue (h : Rep lob L) (hg : g ∈ L.side b)
    (hchain : g.chain = a ++ t :: c) :
    ((g.view lob.pool.nodes).queue.filter fun o => o.orderId ≠ (lob.pool.nodes t).orderId) =
      (a ++ c).map fun i => (lob.pool.nodes i).resting := by
  have hmem : ∀ i ∈ g.chain, i ∈ L.indices := fun i hi => Layout.mem_indices_of hg hi
  obtain ⟨hta, htc⟩ := h.not_mem_around hg hchain
  rw [hchain] at hmem
  have hne := h.orderId_ne (hmem t (by simp))
  have hkeep : ∀ l : List UInt32, (∀ i ∈ l, i ∈ a ++ t :: c ∧ i ≠ t) →
      ((l.map fun i => (lob.pool.nodes i).resting).filter fun o =>
        o.orderId ≠ (lob.pool.nodes t).orderId) =
        l.map fun i => (lob.pool.nodes i).resting := by
    intro l hl
    rw [List.filter_eq_self]
    intro o ho
    obtain ⟨i, hi, rfl⟩ := List.mem_map.mp ho
    simpa using hne i (hmem i (hl i hi).1) (hl i hi).2
  have ha := hkeep a fun i hi => ⟨by simp [hi], fun e => hta (e ▸ hi)⟩
  have hc := hkeep c fun i hi => ⟨by simp [hi], fun e => htc (e ▸ hi)⟩
  simp only [GLevel.view, hchain, List.map_append, List.map_cons, List.filter_append,
    List.filter_cons, ha, hc]
  simp [LimitOrder.resting]

/-- The cancel of the naive book takes the order out of its level. -/
theorem Rep.cancel_view (h : Rep lob L) {pre post : List GLevel}
    (hside : L.side b = pre ++ g :: post) (ht : t ∈ g.chain) :
    (L.view lob).cancel (lob.pool.nodes t).orderId =
      (true, (L.view lob).setSide b (pre.map (GLevel.view lob.pool.nodes) ++
        (Book.withoutOrder (lob.pool.nodes t).orderId (g.view lob.pool.nodes)).toList ++
        post.map (GLevel.view lob.pool.nodes))) := by
  have hg : g ∈ L.side b := by rw [hside]; simp
  have hsplit : L.side b = pre ++ [g] ++ post := by rw [hside]; simp
  have hview : (L.view lob).side b = pre.map (GLevel.view lob.pool.nodes) ++
      g.view lob.pool.nodes :: post.map (GLevel.view lob.pool.nodes) := by
    rw [Layout.view_side, hside]
    simp
  refine Book.cancel_eq hview
    ⟨(lob.pool.nodes t).resting, List.mem_map.mpr ⟨t, ht, rfl⟩, rfl⟩ ?_
  intro o ho
  rw [Layout.view_side, Layout.priority_view, Layout.priority_view, Layout.priority_view,
    ← List.map_append, ← List.map_append] at ho
  obtain ⟨i, hi, rfl⟩ := List.mem_map.mp ho
  rw [← Layout.slots_append] at hi
  refine h.orderId_ne (Layout.mem_indices_of hg ht) i
    ((Layout.indices_split hsplit).mem_iff.mpr (List.mem_append_right _ hi)) ?_
  rintro rfl
  exact h.not_mem_rest hsplit hi (by simpa using ht)

theorem Rep.cancel_resting (h : Rep lob L) (hg : g ∈ L.side b) (ht : t ∈ g.chain) :
    ∃ lob' L', lob.cancel (lob.pool.nodes t).orderId = .ok (true, lob') ∧ Rep lob' L' ∧
      (L.view lob).cancel (lob.pool.nodes t).orderId = (true, L'.view lob') := by
  obtain ⟨pre, post, hside, hfind, hgetD⟩ := h.find_level hg
  obtain ⟨a, c, hchain⟩ := List.append_of_mem ht
  obtain ⟨pool, lv, hunlink, hrel, hok, hprice⟩ := h.unlinkNode_ok hg hchain
  have hti : t ∈ L.indices := Layout.mem_indices_of hg ht
  have herase : g.chain.erase t = a ++ c := by
    rw [hchain, List.erase_append_right _ (h.not_mem_around hg hchain).1, List.erase_cons_head]
  have hsplit : L.side b = pre ++ [g] ++ post := by rw [hside]; simp
  -- the code path of `cancel`
  have hentry : PersistentLOB.mapFind lob.orderMap (lob.pool.nodes t).orderId =
      some ⟨(lob.pool.nodes t).orderId, t, g.level.priceFp, b⟩ :=
    PersistentLOB.mapFind_mem (e := ⟨(lob.pool.nodes t).orderId, t, g.level.priceFp, b⟩)
      h.map ⟨⟨g, hg, ht, rfl⟩, rfl⟩
  have hid : (lob.pool.nodes t).orderId ≠ nullOrderId := by
    intro hz
    have := (h.issued t hti).1
    rw [hz] at this
    exact absurd this (by decide)
  -- an empty level leaves the side
  let side' := if lv.count = 0 then (lob.side b).erase pre.length
    else (lob.side b).setLevel pre.length lv
  let lob' : PersistentLOB := { lob.setSide b side' with
    pool := pool
    orderMap := PersistentLOB.mapErase lob.orderMap (lob.pool.nodes t).orderId }
  have hcancel : lob.cancel (lob.pool.nodes t).orderId = .ok (true, lob') := by
    simp only [PersistentLOB.cancel, if_neg hid, hentry, h.get hti, ok_bind, hfind, hgetD,
      h.findPrev_chain hg hchain, hunlink, pure_ok]
    rfl
  have hframe : ∀ i ∈ Layout.slots (pre ++ post) ++ Layout.slots (L.side !b),
      lob'.pool.nodes i = lob.pool.nodes i := by
    intro i hi
    refine hrel.frame i fun hc => h.not_mem_rest hsplit hi ?_
    simpa using hc
  refine ⟨lob', L.setSide b (pre ++ remnant lv (a ++ c) ++ post), hcancel, ?_, ?_⟩
  · rw [← herase] at hok ⊢
    exact h.remove hside ht (fun i => congrArg RestingOrder.orderId (hrel.resting i))
      hrel.frame hrel.free hok hprice (PersistentLOB.side_setSide lob b side')
      (PersistentLOB.side_setSide_not lob b side') rfl
      (PersistentLOB.setSide_nextOrderId lob b side')
  · have hin : ∃ o ∈ (g.view lob.pool.nodes).queue, o.orderId = (lob.pool.nodes t).orderId :=
      ⟨(lob.pool.nodes t).resting, List.mem_map.mpr ⟨t, ht, rfl⟩, rfl⟩
    have hq := (h.filter_queue hg hchain).trans
      (List.map_congr_left fun i _ => (hrel.resting i).symm)
    rw [h.cancel_view hside ht, ← view_remnant pool.nodes hprice hin hq,
      Layout.view_splice lob lob' _ hsplit hframe]
    cases b <;> rfl

end Resting

/-- An id that no resting order carries: `cancel` refuses it and changes
nothing. Only the marker of never-used slots must be kept away. -/
theorem Rep.cancel_absent {lob : PersistentLOB} {L : Layout} (h : Rep lob L)
    {orderId : UInt64} (hid : ∀ i ∈ L.indices, (lob.pool.nodes i).orderId ≠ orderId)
    (hempty : orderId ≠ emptyKey) :
    lob.cancel orderId = .ok (false, lob) ∧
      (L.view lob).cancel orderId = (false, L.view lob) := by
  refine ⟨?_, Book.cancel_absent ?_⟩
  · by_cases hz : orderId = nullOrderId
    · rw [PersistentLOB.cancel, if_pos hz]
    · have hnone : PersistentLOB.mapFind lob.orderMap orderId = none := by
        refine PersistentLOB.mapFind_not_mem h.map ?_ hempty hz
        intro e he hk
        exact hid e.val (Rep.mem_indices_of_entry he) (by rw [← he.2, hk])
      simp only [PersistentLOB.cancel, if_neg hz, hnone]
  · rw [Layout.view_orders]
    intro o ho
    obtain ⟨i, hi, rfl⟩ := List.mem_map.mp ho
    exact hid i hi

theorem Rep.cancel {lob : PersistentLOB} {L : Layout} (h : Rep lob L) {orderId : UInt64}
    (hempty : orderId ≠ emptyKey) :
    ∃ lob' L', lob.cancel orderId = .ok (((L.view lob).cancel orderId).1, lob') ∧
      Rep lob' L' ∧ L'.view lob' = ((L.view lob).cancel orderId).2 := by
  by_cases hid : ∃ i ∈ L.indices, (lob.pool.nodes i).orderId = orderId
  · obtain ⟨t, ht, rfl⟩ := hid
    obtain ⟨b, g, hg, htg⟩ := Layout.mem_indices.mp ht
    obtain ⟨lob', L', hc, hrep, hview⟩ := h.cancel_resting hg htg
    exact ⟨lob', L', by rw [hc, hview], hrep, by rw [hview]⟩
  · simp only [not_exists, not_and] at hid
    obtain ⟨hc, hview⟩ := h.cancel_absent hid hempty
    exact ⟨lob, L, by rw [hc, hview], h, by rw [hview]⟩

/-- The empty marker as an id: the lookup returns a slot that was never used,
whose `val` is all ones, and the pool is indexed with it. -/
theorem Rep.cancel_emptyKey {lob : PersistentLOB} {L : Layout} (h : Rep lob L) {s : UInt32}
    (hs : s.toNat < mapSize) (hkey : (lob.orderMap s).key = emptyKey) :
    lob.cancel emptyKey = .error (.poolIndex nullIdx) := by
  obtain ⟨r, hfind, hr⟩ := PersistentLOB.mapFind_emptyKey hs hkey
  have hget : lob.pool.get (lob.orderMap r).val = .error (.poolIndex nullIdx) := by
    rw [h.blank r hr]
    rfl
  have hne : emptyKey ≠ nullOrderId := by decide
  simp only [PersistentLOB.cancel, if_neg hne, hfind, hget, error_bind]

theorem PersistentLOB.cancel_emptyKey_full {lob : PersistentLOB}
    (h : ∀ s, s.toNat < mapSize → (lob.orderMap s).key ≠ emptyKey) :
    lob.cancel emptyKey = .ok (false, lob) := by
  have hne : emptyKey ≠ nullOrderId := by decide
  simp only [PersistentLOB.cancel, if_neg hne, PersistentLOB.mapFind_emptyKey_none h]

end VidhiArena.GameMaster
