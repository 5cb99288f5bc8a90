import VidhiArena.GameMaster.OrderMap

/-!
# Taking a node out of the book

`cancel` and a complete fill do the same thing to the layout: one slot leaves
its queue, returns to the free stack and loses its map entry, and a level left
empty goes with it. `Rep.remove` states that once; `unlinkNode_ok` and
`Rep.popHead` are its two users.
-/

namespace VidhiArena.GameMaster

open VidhiArena.Foundation

/-- What stays of a level: nothing when its queue is empty. -/
def remnant (lv : PriceLevel) (chain : List UInt32) : List GLevel :=
  if chain = [] then [] else [⟨lv, chain⟩]

@[simp] theorem slots_remnant (lv : PriceLevel) (chain : List UInt32) :
    Layout.slots (remnant lv chain) = chain := by
  unfold remnant
  split
  · rename_i h
    rw [h, Layout.slots_nil]
  · simp

theorem mem_remnant {lv : PriceLevel} {chain : List UInt32} {g : GLevel}
    (h : g ∈ remnant lv chain) : g = ⟨lv, chain⟩ := by
  unfold remnant at h
  split at h
  · exact absurd h List.not_mem_nil
  · exact List.mem_singleton.mp h

theorem queued_remnant {lv : PriceLevel} {chain : List UInt32} {i : UInt32} {p : Int64} :
    Layout.Queued (remnant lv chain) i p ↔ i ∈ chain ∧ lv.priceFp = p := by
  constructor
  · rintro ⟨g, hg, hi⟩
    rw [mem_remnant hg] at hi
    exact hi
  · rintro ⟨hi, hp⟩
    refine ⟨⟨lv, chain⟩, ?_, hi, hp⟩
    unfold remnant
    rw [if_neg (List.ne_nil_of_mem hi)]
    exact List.mem_singleton_self _

/-- Replacing a price by itself, or dropping it, keeps a side sorted. -/
theorem sorted_remnant {d : Bool} {pre post : List GLevel} {g : GLevel} {lv : PriceLevel}
    {chain : List UInt32} (hp : lv.priceFp = g.level.priceFp)
    (h : LOBSide.Sorted d ((pre ++ g :: post).map fun g => g.level.priceFp)) :
    LOBSide.Sorted d ((pre ++ remnant lv chain ++ post).map fun g => g.level.priceFp) := by
  unfold remnant
  split
  · refine List.Pairwise.sublist ?_ h
    simp
  · simpa [hp] using h

theorem Rep.levels_remnant {lob : PersistentLOB} {L : Layout} (h : Rep lob L) {b : Bool}
    {pre post : List GLevel} {g : GLevel} {lv : PriceLevel} {chain : List UInt32}
    (hside : L.side b = pre ++ g :: post) (hcount : lv.count = chain.length) :
    (if lv.count = 0 then (lob.side b).erase pre.length
      else (lob.side b).setLevel pre.length lv) =
      ⟨(pre ++ remnant lv chain ++ post).map GLevel.level, b⟩ := by
  have hlen : (pre.map GLevel.level).length ≤ pre.length := by simp
  rw [h.sides b, hside]
  by_cases hc : chain = []
  · rw [if_pos (by rw [hcount, hc]; rfl)]
    simp [remnant, hc, LOBSide.erase, List.eraseIdx_append_of_length_le hlen]
  · have hne : lv.count ≠ 0 := by
      rw [hcount]
      simpa using hc
    rw [if_neg hne]
    simp [remnant, hc, LOBSide.setLevel, List.set_append_right _ _ hlen]

theorem Rep.entries_remove {lob : PersistentLOB} {L : Layout} (h : Rep lob L) {b : Bool}
    {pre post : List GLevel} {g : GLevel} {t : UInt32} {lv : PriceLevel}
    {nodes : UInt32 → LimitOrder} (hside : L.side b = pre ++ g :: post) (ht : t ∈ g.chain)
    (hids : ∀ i, (nodes i).orderId = (lob.pool.nodes i).orderId)
    (hprice : lv.priceFp = g.level.priceFp) :
    (L.setSide b (pre ++ remnant lv (g.chain.erase t) ++ post)).entries nodes =
      {x | x ∈ L.entries lob.pool.nodes ∧ x.key ≠ (lob.pool.nodes t).orderId} := by
  have hsplit : L.side b = pre ++ [g] ++ post := by rw [hside]; simp
  have hg : g ∈ L.side b := by rw [hside]; simp
  have hnd := h.chain_nodup hg
  have hrest : ∀ i, i ∈ Layout.slots (pre ++ post) ++ Layout.slots (L.side !b) → i ≠ t := by
    rintro i hi rfl
    exact h.not_mem_rest hsplit hi (by simpa using ht)
  have hqueued : ∀ c i p, Layout.Queued ((L.setSide b (pre ++
      remnant lv (g.chain.erase t) ++ post)).side c) i p ↔
      Layout.Queued (L.side c) i p ∧ i ≠ t := by
    intro c i p
    by_cases hc : c = b
    · subst hc
      rw [L.side_setSide, hsplit]
      simp only [Layout.queued_append, queued_remnant, hnd.mem_erase_iff]
      constructor
      · rintro ((hq | ⟨⟨hne, hi⟩, hp⟩) | hq)
        · exact ⟨Or.inl (Or.inl hq), hrest i (by simp [hq.mem_slots])⟩
        · exact ⟨Or.inl (Or.inr ⟨g, by simp, hi, by rw [← hprice, hp]⟩), hne⟩
        · exact ⟨Or.inr hq, hrest i (by simp [hq.mem_slots])⟩
      · rintro ⟨(hq | ⟨g', hg', hi, hp⟩) | hq, hne⟩
        · exact Or.inl (Or.inl hq)
        · rw [List.mem_singleton] at hg'
          subst hg'
          exact Or.inl (Or.inr ⟨⟨hne, hi⟩, by rw [hprice, hp]⟩)
        · exact Or.inr hq
    · obtain rfl : c = !b := by cases b <;> cases c <;> simp_all
      rw [L.side_setSide_not]
      exact ⟨fun hq => ⟨hq, hrest i (List.mem_append_right _ hq.mem_slots)⟩, fun hq => hq.1⟩
  ext x
  simp only [Layout.entries, Set.mem_ofPred_eq, hqueued, hids]
  constructor
  · rintro ⟨⟨hq, hne⟩, hk⟩
    refine ⟨⟨hq, hk⟩, fun hkt => hne ?_⟩
    have hx : x.val ∈ L.indices := @Rep.mem_indices_of_entry lob L x ⟨hq, hk⟩
    exact h.slot_of_orderId hx (Layout.mem_indices_of hg ht) (by rw [← hk, hkt])
  · rintro ⟨⟨hq, hk⟩, hne⟩
    exact ⟨⟨hq, fun heq => hne (by rw [hk, heq])⟩, hk⟩

theorem Rep.remove {lob lob' : PersistentLOB} {L : Layout} (h : Rep lob L) {b : Bool}
    {pre post : List GLevel} {g : GLevel} {t : UInt32} {lv : PriceLevel}
    (hside : L.side b = pre ++ g :: post) (ht : t ∈ g.chain)
    (hids : ∀ i, (lob'.pool.nodes i).orderId = (lob.pool.nodes i).orderId)
    (hframe : ∀ i, i ∉ g.chain → lob'.pool.nodes i = lob.pool.nodes i)
    (hfree : lob'.pool.freeStack = t :: lob.pool.freeStack)
    (hok : GLevel.Ok lob'.pool.nodes ⟨lv, g.chain.erase t⟩)
    (hprice : lv.priceFp = g.level.priceFp)
    (hs : lob'.side b = if lv.count = 0 then (lob.side b).erase pre.length
      else (lob.side b).setLevel pre.length lv)
    (ho : lob'.side (!b) = lob.side (!b))
    (hm : lob'.orderMap = PersistentLOB.mapErase lob.orderMap (lob.pool.nodes t).orderId)
    (hn : lob'.nextOrderId = lob.nextOrderId) :
    Rep lob' (L.setSide b (pre ++ remnant lv (g.chain.erase t) ++ post)) := by
  have hsplit : L.side b = pre ++ [g] ++ post := by rw [hside]; simp
  have hg : g ∈ L.side b := by rw [hside]; simp
  have hti : t ∈ L.indices := Layout.mem_indices_of hg ht
  have hsub : ∀ i ∈ g.chain.erase t, i ∈ L.indices := fun i hi =>
    Layout.mem_indices_of hg (List.mem_of_mem_erase hi)
  refine h.splice _ hsplit ?_ ho ?_ ?_ ?_ ?_ ?_ (by rw [hn]) ?_ ?_ ?_
    (by rw [hm]; exact h.blank.erase _)
  · rw [hs]
    exact h.levels_remnant hside hok.count
  · intro i hi
    refine hframe i fun hc => h.not_mem_rest hsplit hi ?_
    simpa using hc
  · intro g' hg'
    rw [mem_remnant hg']
    exact hok
  · exact sorted_remnant hprice (by rw [← hside]; exact h.sorted b)
  · have hroom := h.room b
    rw [hside] at hroom
    refine le_trans ?_ hroom
    unfold remnant
    split <;> simp
  · rw [hfree]
    have hperm := (List.perm_cons_erase ht).symm.append_left lob.pool.freeStack
    simpa using List.perm_middle.symm.trans hperm
  · intro i hi
    rw [slots_remnant] at hi
    rw [hids, hn]
    exact h.issued i (hsub i hi)
  · rw [slots_remnant]
    have hd := ((Layout.indices_split hsplit).map
      fun i => (lob.pool.nodes i).orderId).nodup_iff.mp h.distinct
    simp only [hids]
    refine List.Nodup.sublist ?_ hd
    refine List.Sublist.map _ (List.Sublist.append ?_ (List.Sublist.refl _))
    simpa using List.erase_sublist
  · rw [h.entries_remove hside ht hids hprice, hm]
    exact PersistentLOB.mapErase_represents (e := ⟨_, t, g.level.priceFp, b⟩) h.map
      ⟨⟨g, hg, ht, rfl⟩, rfl⟩

end VidhiArena.GameMaster
