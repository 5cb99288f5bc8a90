import Mathlib.Data.List.GetD
import Mathlib.Data.List.Perm.Basic
import VidhiArena.Foundation.Faulting
import VidhiArena.Foundation.IndexChain
import VidhiArena.GameMaster.Levels

/-!
# The layout of the flat book

`Rep lob L` says that the memory of `lob` is laid out as `L`: every level with
the slab indices of its queue, in order. It is the one invariant of the flat
book; sortedness, acyclic queues, the partition of the slab and the exact order
map are its fields, and `Layout.view` reads the naive book off it.

`Rep.splice` is the frame rule: an operation that replaces a stretch of one
side and touches no node of the others only has to account for that stretch.
-/

namespace VidhiArena.GameMaster

open VidhiArena.Foundation

/-- What a node says about the order it holds. -/
def LimitOrder.resting (o : LimitOrder) : RestingOrder := ⟨o.orderId, o.volume, o.participant⟩

/-- A level together with the slab indices of its queue. -/
structure GLevel where
  level : PriceLevel
  chain : List UInt32

namespace GLevel

def view (nodes : UInt32 → LimitOrder) (g : GLevel) : BookLevel :=
  ⟨g.level.priceFp, g.chain.map fun i => (nodes i).resting⟩

/-- The five fields of a level agree with its queue. -/
structure Ok (nodes : UInt32 → LimitOrder) (g : GLevel) : Prop where
  path : Chain (fun i => (nodes i).next) nullIdx g.level.head g.chain
  tail : g.level.tail = lastOr nullIdx g.chain
  count : g.level.count = g.chain.length
  total : g.level.totalVolume = (g.chain.map fun i => (nodes i).volume).sum
  ids : (g.chain.map fun i => (nodes i).orderId).Pairwise (· < ·)

theorem Ok.congr {nodes nodes' : UInt32 → LimitOrder} {g : GLevel} (h : g.Ok nodes)
    (hn : ∀ i ∈ g.chain, nodes' i = nodes i) : g.Ok nodes' where
  path := h.path.congr fun i hi => by rw [hn i hi]
  tail := h.tail
  count := h.count
  total := by
    rw [h.total]
    exact congrArg List.sum (List.map_congr_left fun i hi => by rw [hn i hi])
  ids := by
    rw [List.map_congr_left fun i hi => by rw [hn i hi]]
    exact h.ids

theorem view_congr {nodes nodes' : UInt32 → LimitOrder} {g : GLevel}
    (hn : ∀ i ∈ g.chain, nodes' i = nodes i) : g.view nodes' = g.view nodes := by
  unfold view
  rw [List.map_congr_left fun i hi => by rw [hn i hi]]

end GLevel

structure Layout where
  bids : List GLevel
  asks : List GLevel

namespace Layout

def side (L : Layout) (b : Bool) : List GLevel := if b then L.bids else L.asks

def setSide (L : Layout) (b : Bool) (gs : List GLevel) : Layout :=
  if b then { L with bids := gs } else { L with asks := gs }

@[simp] theorem side_setSide (L : Layout) (b : Bool) (gs : List GLevel) :
    (L.setSide b gs).side b = gs := by cases b <;> rfl

@[simp] theorem side_setSide_not (L : Layout) (b : Bool) (gs : List GLevel) :
    (L.setSide b gs).side (!b) = L.side (!b) := by cases b <;> rfl

/-- The slab indices of some levels. -/
def slots (gs : List GLevel) : List UInt32 := gs.flatMap GLevel.chain

@[simp] theorem slots_nil : slots [] = [] := rfl

@[simp] theorem slots_cons (g : GLevel) (gs : List GLevel) :
    slots (g :: gs) = g.chain ++ slots gs := rfl

@[simp] theorem slots_append (gs gs' : List GLevel) :
    slots (gs ++ gs') = slots gs ++ slots gs' := List.flatMap_append

theorem mem_slots {gs : List GLevel} {i : UInt32} :
    i ∈ slots gs ↔ ∃ g ∈ gs, i ∈ g.chain := List.mem_flatMap

def indices (L : Layout) : List UInt32 := slots L.bids ++ slots L.asks

theorem indices_perm (L : Layout) (b : Bool) :
    L.indices.Perm (slots (L.side b) ++ slots (L.side !b)) := by
  cases b
  · exact List.perm_append_comm
  · exact List.Perm.refl _

theorem mem_indices {L : Layout} {i : UInt32} :
    i ∈ L.indices ↔ ∃ b, ∃ g ∈ L.side b, i ∈ g.chain := by
  rw [indices, List.mem_append, mem_slots, mem_slots]
  constructor
  · rintro (h | h)
    · exact ⟨true, h⟩
    · exact ⟨false, h⟩
  · rintro ⟨b, h⟩
    cases b
    · exact Or.inr h
    · exact Or.inl h

theorem mem_indices_of {L : Layout} {b : Bool} {g : GLevel} {i : UInt32}
    (hg : g ∈ L.side b) (hi : i ∈ g.chain) : i ∈ L.indices :=
  mem_indices.mpr ⟨b, g, hg, hi⟩

/-- Slot `i` is queued at price `p` in one of the levels. -/
def Queued (gs : List GLevel) (i : UInt32) (p : Int64) : Prop :=
  ∃ g ∈ gs, i ∈ g.chain ∧ g.level.priceFp = p

/-- The order-map entries that a layout calls for. -/
def entries (L : Layout) (nodes : UInt32 → LimitOrder) : Set MapEntry :=
  { e | Queued (L.side e.isBid) e.val e.priceFp ∧ e.key = (nodes e.val).orderId }

/-- The naive book that a layout holds. -/
def view (L : Layout) (lob : PersistentLOB) : Book where
  bids := L.bids.map (GLevel.view lob.pool.nodes)
  asks := L.asks.map (GLevel.view lob.pool.nodes)
  nextOrderId := lob.nextOrderId
  lastTradeFp := lob.lastTradeFp
  totalFills := lob.totalFills

@[simp] theorem view_side (L : Layout) (lob : PersistentLOB) (b : Bool) :
    (L.view lob).side b = (L.side b).map (GLevel.view lob.pool.nodes) := by
  cases b <;> rfl

end Layout

namespace PersistentLOB

@[simp] theorem side_setSide (lob : PersistentLOB) (b : Bool) (s : LOBSide) :
    (lob.setSide b s).side b = s := by cases b <;> rfl

@[simp] theorem side_setSide_not (lob : PersistentLOB) (b : Bool) (s : LOBSide) :
    (lob.setSide b s).side (!b) = lob.side (!b) := by cases b <;> rfl

@[simp] theorem setSide_pool (lob : PersistentLOB) (b : Bool) (s : LOBSide) :
    (lob.setSide b s).pool = lob.pool := by cases b <;> rfl

@[simp] theorem setSide_orderMap (lob : PersistentLOB) (b : Bool) (s : LOBSide) :
    (lob.setSide b s).orderMap = lob.orderMap := by cases b <;> rfl

@[simp] theorem setSide_nextOrderId (lob : PersistentLOB) (b : Bool) (s : LOBSide) :
    (lob.setSide b s).nextOrderId = lob.nextOrderId := by cases b <;> rfl

@[simp] theorem setSide_lastTradeFp (lob : PersistentLOB) (b : Bool) (s : LOBSide) :
    (lob.setSide b s).lastTradeFp = lob.lastTradeFp := by cases b <;> rfl

@[simp] theorem setSide_totalFills (lob : PersistentLOB) (b : Bool) (s : LOBSide) :
    (lob.setSide b s).totalFills = lob.totalFills := by cases b <;> rfl

/-- A slot that was never used still holds what `memset` wrote there. -/
def Blank (m : UInt32 → MapEntry) : Prop := ∀ s, (m s).key = emptyKey → (m s).val = nullIdx

end PersistentLOB

/-- The memory of `lob` is laid out as `L`. -/
structure Rep (lob : PersistentLOB) (L : Layout) : Prop where
  sides : ∀ b, lob.side b = ⟨(L.side b).map GLevel.level, b⟩
  ok : ∀ b, ∀ g ∈ L.side b, g.Ok lob.pool.nodes
  sorted : ∀ b, LOBSide.Sorted b ((L.side b).map fun g => g.level.priceFp)
  room : ∀ b, (L.side b).length ≤ maxPriceLevels
  partition : (lob.pool.freeStack ++ L.indices).Perm (OrderPool.freeIndices orderPoolSize)
  counter : 0 < lob.nextOrderId.toNat
  issued : ∀ i ∈ L.indices, 0 < (lob.pool.nodes i).orderId.toNat ∧
    (lob.pool.nodes i).orderId.toNat < lob.nextOrderId.toNat
  distinct : (L.indices.map fun i => (lob.pool.nodes i).orderId).Nodup
  map : Probing.Represents MapEntry.key emptyKey deletedKey PersistentLOB.mapSlot mapSize
    lob.orderMap (L.entries lob.pool.nodes)
  blank : PersistentLOB.Blank lob.orderMap

/-! ## The slab indices -/

namespace OrderPool

theorem mem_freeIndices : ∀ {n : Nat} {i : UInt32}, n ≤ orderPoolSize →
    (i ∈ freeIndices n ↔ i.toNat < n)
  | 0, i, _ => by simp [freeIndices]
  | n + 1, i, hn => by
      have hlt : n < 4294967296 := by unfold orderPoolSize at hn; omega
      rw [freeIndices, List.mem_cons, mem_freeIndices (by omega), ← UInt32.toNat_inj,
        UInt32.toNat_ofNat_of_lt' (by simpa [UInt32.size] using hlt)]
      omega

theorem nodup_freeIndices : ∀ {n : Nat}, n ≤ orderPoolSize → (freeIndices n).Nodup
  | 0, _ => List.nodup_nil
  | n + 1, hn => by
      have hlt : n < 4294967296 := by unfold orderPoolSize at hn; omega
      rw [freeIndices, List.nodup_cons]
      refine ⟨?_, nodup_freeIndices (by omega)⟩
      rw [mem_freeIndices (by omega),
        UInt32.toNat_ofNat_of_lt' (by simpa [UInt32.size] using hlt)]
      omega

theorem length_freeIndices : ∀ n : Nat, (freeIndices n).length = n
  | 0 => rfl
  | n + 1 => by rw [freeIndices, List.length_cons, length_freeIndices n]

end OrderPool

namespace Rep

variable {lob : PersistentLOB} {L : Layout}

theorem nodup (h : Rep lob L) : (lob.pool.freeStack ++ L.indices).Nodup :=
  h.partition.nodup_iff.mpr (OrderPool.nodup_freeIndices le_rfl)

theorem lt_of_mem (h : Rep lob L) {i : UInt32} (hi : i ∈ lob.pool.freeStack ++ L.indices) :
    i.toNat < orderPoolSize :=
  (OrderPool.mem_freeIndices le_rfl).mp (h.partition.mem_iff.mp hi)

theorem length_partition (h : Rep lob L) :
    lob.pool.freeStack.length + L.indices.length = orderPoolSize := by
  have := h.partition.length_eq
  rwa [List.length_append, OrderPool.length_freeIndices] at this

theorem ne_null_of_lt {i : UInt32} (h : i.toNat < orderPoolSize) : i ≠ nullIdx := by
  rintro rfl
  exact absurd h (by decide)

theorem get (h : Rep lob L) {i : UInt32} (hi : i ∈ L.indices) :
    lob.pool.get i = .ok (lob.pool.nodes i) :=
  if_pos (h.lt_of_mem (List.mem_append_right _ hi))

theorem chain_nodup (h : Rep lob L) {b : Bool} {g : GLevel} (hg : g ∈ L.side b) :
    g.chain.Nodup := by
  have hnd := (List.nodup_append.mp ((L.indices_perm b).nodup_iff.mp
    (List.nodup_append.mp h.nodup).2.1)).1
  exact (List.nodup_flatMap.mp hnd).1 g hg

theorem mem_side_levels (h : Rep lob L) (b : Bool) :
    (lob.side b).levels = (L.side b).map GLevel.level := by rw [h.sides b]

theorem descending (h : Rep lob L) (b : Bool) : (lob.side b).descending = b := by
  rw [h.sides b]

theorem sorted_levels (h : Rep lob L) (b : Bool) :
    LOBSide.Sorted (lob.side b).descending ((lob.side b).levels.map PriceLevel.priceFp) := by
  rw [h.descending, h.mem_side_levels, List.map_map]
  exact h.sorted b

/-- A level of the layout is where binary search finds its price. -/
theorem find_level (h : Rep lob L) {b : Bool} {g : GLevel} (hg : g ∈ L.side b) :
    ∃ pre post, L.side b = pre ++ g :: post ∧
      (lob.side b).find g.level.priceFp = some pre.length ∧
      (lob.side b).levels.getD pre.length default = g.level := by
  have hmem : g.level.priceFp ∈ (lob.side b).levels.map PriceLevel.priceFp := by
    rw [h.mem_side_levels, List.map_map]
    exact List.mem_map_of_mem hg
  obtain ⟨k, hk, hprice⟩ := LOBSide.find_of_mem (h.sorted_levels b) hmem
  rw [h.mem_side_levels, List.map_map, List.getElem?_map] at hprice
  obtain ⟨g', hg', hp⟩ := Option.map_eq_some_iff.mp hprice
  obtain ⟨hlt, rfl⟩ := List.getElem?_eq_some_iff.mp hg'
  have heq : (L.side b)[k] = g :=
    List.inj_on_of_nodup_map (h.sorted b).nodup (List.getElem_mem hlt) hg hp
  have hsplit : L.side b = (L.side b).take k ++ g :: (L.side b).drop (k + 1) := by
    rw [← heq, List.getElem_cons_drop, List.take_append_drop]
  have hlen : ((L.side b).take k).length = k := by
    rw [List.length_take]
    omega
  refine ⟨(L.side b).take k, (L.side b).drop (k + 1), hsplit, by rw [hlen, hk], ?_⟩
  rw [h.mem_side_levels, hlen, List.getD_eq_getElem?_getD, List.getElem?_map, hg', heq]
  rfl

theorem find_absent (h : Rep lob L) {b : Bool} {p : Int64}
    (hp : ∀ g ∈ L.side b, g.level.priceFp ≠ p) : (lob.side b).find p = none := by
  cases hf : (lob.side b).find p with
  | none => rfl
  | some k =>
      have hk := List.mem_of_getElem? (LOBSide.findLoop_some hf)
      rw [h.mem_side_levels, List.map_map] at hk
      obtain ⟨g, hg, hgp⟩ := List.mem_map.mp hk
      exact absurd hgp (hp g hg)

end Rep

/-! ## The frame rule -/

namespace Layout

theorem queued_append {gs gs' : List GLevel} {i : UInt32} {p : Int64} :
    Queued (gs ++ gs') i p ↔ Queued gs i p ∨ Queued gs' i p := by
  simp only [Queued, List.mem_append]
  constructor
  · rintro ⟨g, hg | hg, h⟩
    · exact Or.inl ⟨g, hg, h⟩
    · exact Or.inr ⟨g, hg, h⟩
  · rintro (⟨g, hg, h⟩ | ⟨g, hg, h⟩)
    · exact ⟨g, Or.inl hg, h⟩
    · exact ⟨g, Or.inr hg, h⟩

theorem queued_singleton {g : GLevel} {i : UInt32} {p : Int64} :
    Queued [g] i p ↔ i ∈ g.chain ∧ g.level.priceFp = p := by
  simp [Queued]

theorem Queued.mem_slots {gs : List GLevel} {i : UInt32} {p : Int64} (h : Queued gs i p) :
    i ∈ slots gs := by
  obtain ⟨g, hg, hi, _⟩ := h
  exact Layout.mem_slots.mpr ⟨g, hg, hi⟩

theorem indices_split {L : Layout} {b : Bool} {pre mid post : List GLevel}
    (hside : L.side b = pre ++ mid ++ post) :
    L.indices.Perm (slots mid ++ (slots (pre ++ post) ++ slots (L.side !b))) := by
  refine (L.indices_perm b).trans ?_
  rw [hside, List.perm_iff_count]
  intro a
  simp only [slots_append, List.count_append]
  omega

end Layout

theorem Rep.not_mem_rest {lob : PersistentLOB} {L : Layout} (h : Rep lob L) {b : Bool}
    {pre mid post : List GLevel} (hside : L.side b = pre ++ mid ++ post) {i : UInt32}
    (hi : i ∈ Layout.slots (pre ++ post) ++ Layout.slots (L.side !b)) :
    i ∉ Layout.slots mid := by
  have hnd := (Layout.indices_split hside).nodup_iff.mp (List.nodup_append.mp h.nodup).2.1
  exact fun hmid => (List.nodup_append.mp hnd).2.2 i hmid i hi rfl

theorem Rep.splice {lob lob' : PersistentLOB} {L : Layout} (h : Rep lob L) {b : Bool}
    {pre mid post : List GLevel} (mid' : List GLevel) (hside : L.side b = pre ++ mid ++ post)
    (hlevels : lob'.side b = ⟨(pre ++ mid' ++ post).map GLevel.level, b⟩)
    (hother : lob'.side (!b) = lob.side (!b))
    (hframe : ∀ i ∈ Layout.slots (pre ++ post) ++ Layout.slots (L.side !b),
      lob'.pool.nodes i = lob.pool.nodes i)
    (hok : ∀ g ∈ mid', g.Ok lob'.pool.nodes)
    (hsorted : LOBSide.Sorted b ((pre ++ mid' ++ post).map fun g => g.level.priceFp))
    (hroom : (pre ++ mid' ++ post).length ≤ maxPriceLevels)
    (hfree : (lob'.pool.freeStack ++ Layout.slots mid').Perm
      (lob.pool.freeStack ++ Layout.slots mid))
    (hnext : lob.nextOrderId.toNat ≤ lob'.nextOrderId.toNat)
    (hissued : ∀ i ∈ Layout.slots mid', 0 < (lob'.pool.nodes i).orderId.toNat ∧
      (lob'.pool.nodes i).orderId.toNat < lob'.nextOrderId.toNat)
    (hdistinct : ((Layout.slots mid' ++ (Layout.slots (pre ++ post) ++
      Layout.slots (L.side !b))).map fun i => (lob'.pool.nodes i).orderId).Nodup)
    (hmap : Probing.Represents MapEntry.key emptyKey deletedKey PersistentLOB.mapSlot mapSize
      lob'.orderMap ((L.setSide b (pre ++ mid' ++ post)).entries lob'.pool.nodes))
    (hblank : PersistentLOB.Blank lob'.orderMap) :
    Rep lob' (L.setSide b (pre ++ mid' ++ post)) := by
  have hperm : (L.setSide b (pre ++ mid' ++ post)).indices.Perm
      (Layout.slots mid' ++ (Layout.slots (pre ++ post) ++ Layout.slots (L.side !b))) := by
    have := Layout.indices_split (L := L.setSide b (pre ++ mid' ++ post)) (b := b)
      (L.side_setSide b _)
    rwa [L.side_setSide_not] at this
  -- a statement about both sides, from one about each
  have both : ∀ {P : Bool → Prop}, P b → P (!b) → ∀ c, P c := by
    intro P h₁ h₂ c
    cases b <;> cases c <;> assumption
  refine ⟨?_, ?_, ?_, ?_, ?_, lt_of_lt_of_le h.counter hnext, ?_, ?_, hmap, hblank⟩
  · refine both (by rw [hlevels, L.side_setSide]) ?_
    rw [hother, h.sides, L.side_setSide_not]
  · refine both ?_ ?_
    · rw [L.side_setSide]
      intro g hg
      rcases List.mem_append.mp hg with hg | hg
      · rcases List.mem_append.mp hg with hg | hg
        · refine (h.ok b g (by rw [hside]; simp [hg])).congr fun i hi => hframe i ?_
          exact List.mem_append_left _ (Layout.mem_slots.mpr ⟨g, by simp [hg], hi⟩)
        · exact hok g hg
      · refine (h.ok b g (by rw [hside]; simp [hg])).congr fun i hi => hframe i ?_
        exact List.mem_append_left _ (Layout.mem_slots.mpr ⟨g, by simp [hg], hi⟩)
    · rw [L.side_setSide_not]
      intro g hg
      refine (h.ok (!b) g hg).congr fun i hi => hframe i ?_
      exact List.mem_append_right _ (Layout.mem_slots.mpr ⟨g, hg, hi⟩)
  · refine both (by rw [L.side_setSide]; exact hsorted) ?_
    rw [L.side_setSide_not]
    exact h.sorted (!b)
  · refine both (by rw [L.side_setSide]; exact hroom) ?_
    rw [L.side_setSide_not]
    exact h.room (!b)
  · refine (hperm.append_left _).trans (List.Perm.trans ?_ h.partition)
    refine List.Perm.trans ?_ ((Layout.indices_split hside).symm.append_left _)
    simpa only [List.append_assoc] using hfree.append_right
      (Layout.slots (pre ++ post) ++ Layout.slots (L.side !b))
  · intro i hi
    rcases List.mem_append.mp (hperm.mem_iff.mp hi) with hi | hi
    · exact hissued i hi
    · have hold : i ∈ L.indices :=
        (Layout.indices_split hside).mem_iff.mpr (List.mem_append_right _ hi)
      rw [hframe i hi]
      exact ⟨(h.issued i hold).1, lt_of_lt_of_le (h.issued i hold).2 hnext⟩
  · exact (hperm.map _).nodup_iff.mpr hdistinct

/-- The naive view of a spliced side: the stretch is replaced, the rest stays. -/
theorem Layout.view_splice {L : Layout} (lob lob' : PersistentLOB) {b : Bool}
    {pre mid post : List GLevel} (mid' : List GLevel) (hside : L.side b = pre ++ mid ++ post)
    (hframe : ∀ i ∈ Layout.slots (pre ++ post) ++ Layout.slots (L.side !b),
      lob'.pool.nodes i = lob.pool.nodes i) :
    (L.setSide b (pre ++ mid' ++ post)).view lob' =
      { (L.view lob).setSide b (pre.map (GLevel.view lob.pool.nodes) ++
          mid'.map (GLevel.view lob'.pool.nodes) ++ post.map (GLevel.view lob.pool.nodes)) with
        nextOrderId := lob'.nextOrderId
        lastTradeFp := lob'.lastTradeFp
        totalFills := lob'.totalFills } := by
  have hcongr : ∀ gs : List GLevel, (∀ i ∈ Layout.slots gs,
      lob'.pool.nodes i = lob.pool.nodes i) →
      gs.map (GLevel.view lob'.pool.nodes) = gs.map (GLevel.view lob.pool.nodes) := by
    intro gs hgs
    refine List.map_congr_left fun g hg => GLevel.view_congr fun i hi => hgs i ?_
    exact Layout.mem_slots.mpr ⟨g, hg, hi⟩
  have hpre := hcongr pre fun i hi => hframe i (by simp [Layout.slots_append, hi])
  have hpost := hcongr post fun i hi => hframe i (by simp [Layout.slots_append, hi])
  have hother := hcongr (L.side !b) fun i hi => hframe i (List.mem_append_right _ hi)
  cases b <;> simp only [Layout.side, Layout.setSide, Layout.view, Book.setSide,
    List.map_append, if_true, if_false, Bool.false_eq_true, Bool.not_true, Bool.not_false]
    at * <;> rw [hpre, hpost, hother]

end VidhiArena.GameMaster
