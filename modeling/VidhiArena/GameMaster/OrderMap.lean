import Mathlib.Data.Finset.Card
import Mathlib.Data.Finset.Range
import VidhiArena.GameMaster.Layout

/-!
# The order map

`map_find`, `map_insert` and `map_erase` against the entries of the layout. The
table is twice as large as the pool, so an insertion always meets a vacant
slot, however many tombstones there are.
-/

namespace VidhiArena.GameMaster

open VidhiArena.Foundation

namespace PersistentLOB

theorem toNat_and_mapMask (x : UInt32) : (x &&& mapMask).toNat = x.toNat % 32768 := by
  rw [UInt32.toNat_and, show mapMask.toNat = 2 ^ 15 - 1 from rfl,
    Nat.and_two_pow_sub_one_eq_mod]

theorem mapSlot_injOn {orderId : UInt64} {i j : Nat} (hi : i < mapSize) (hj : j < mapSize)
    (h : mapSlot orderId i = mapSlot orderId j) : i = j := by
  have htoNat := congrArg UInt32.toNat h
  simp only [mapSlot, toNat_and_mapMask, UInt32.toNat_add, UInt32.toNat_ofNat'] at htoNat
  unfold mapSize at hi hj
  omega

theorem mapSlot_surj (orderId : UInt64) {s : UInt32} (hs : s.toNat < mapSize) :
    ∃ i, i < mapSize ∧ mapSlot orderId i = s := by
  set h := (orderId * 2654435761).toUInt32 &&& mapMask with hh
  have hlt : h.toNat < 32768 := by
    rw [hh, toNat_and_mapMask]
    exact Nat.mod_lt _ (by decide)
  refine ⟨(s.toNat + 32768 - h.toNat) % 32768, Nat.mod_lt _ (by decide), ?_⟩
  rw [← UInt32.toNat_inj, mapSlot, ← hh, toNat_and_mapMask, UInt32.toNat_add,
    UInt32.toNat_ofNat']
  unfold mapSize at hs
  omega

theorem mapSlot_lt (orderId : UInt64) (i : Nat) : (mapSlot orderId i).toNat < mapSize := by
  rw [mapSlot, toNat_and_mapMask]
  exact Nat.mod_lt _ (by decide)

/-- A lookup of the empty marker hits as long as one slot was never used. -/
theorem mapFind_emptyKey {m : UInt32 → MapEntry} {s : UInt32} (hs : s.toNat < mapSize)
    (hkey : (m s).key = emptyKey) :
    ∃ r, mapFind m emptyKey = some (m r) ∧ (m r).key = emptyKey := by
  obtain ⟨i, hi, rfl⟩ := mapSlot_surj emptyKey hs
  cases hscan : Probing.scan (fun s => (m s).key = emptyKey || (m s).key = emptyKey)
      (mapSlot emptyKey) mapSize 0 with
  | none =>
      have := Probing.scan_eq_none.mp hscan i hi
      simp [hkey] at this
  | some r =>
      obtain ⟨_, _, _, hstop, _⟩ := Probing.scan_eq_some.mp hscan
      have hr : (m r).key = emptyKey := by simpa using hstop
      refine ⟨r, ?_, hr⟩
      rw [mapFind, Probing.find, hscan]
      simp [hr]

theorem mapFind_emptyKey_none {m : UInt32 → MapEntry}
    (h : ∀ s, s.toNat < mapSize → (m s).key ≠ emptyKey) : mapFind m emptyKey = none := by
  have hscan : Probing.scan (fun s => (m s).key = emptyKey || (m s).key = emptyKey)
      (mapSlot emptyKey) mapSize 0 = none := by
    refine Probing.scan_eq_none.mpr fun i _ => ?_
    simp [h _ (mapSlot_lt emptyKey i)]
  rw [mapFind, Probing.find, hscan]
  rfl

theorem mapFind_mem {m : UInt32 → MapEntry} {E : Set MapEntry} {e : MapEntry}
    (h : Probing.Represents MapEntry.key emptyKey deletedKey mapSlot mapSize m E)
    (he : e ∈ E) : mapFind m e.key = some e := by
  obtain ⟨s, hs, hms⟩ := h.find_of_mem he
  rw [mapFind, hs, Option.map_some, hms]

theorem mapFind_not_mem {m : UInt32 → MapEntry} {E : Set MapEntry} {orderId : UInt64}
    (h : Probing.Represents MapEntry.key emptyKey deletedKey mapSlot mapSize m E)
    (hid : ∀ e ∈ E, e.key ≠ orderId) (hempty : orderId ≠ emptyKey)
    (hdel : orderId ≠ deletedKey) : mapFind m orderId = none := by
  rw [mapFind, h.find_of_not_mem hid hempty hdel, Option.map_none]

theorem mapErase_represents {m : UInt32 → MapEntry} {E : Set MapEntry} {e : MapEntry}
    (h : Probing.Represents MapEntry.key emptyKey deletedKey mapSlot mapSize m E)
    (he : e ∈ E) :
    Probing.Represents MapEntry.key emptyKey deletedKey mapSlot mapSize
      (mapErase m e.key) {x | x ∈ E ∧ x.key ≠ e.key} := by
  obtain ⟨s, hs, hms⟩ := h.find_of_mem he
  rw [mapErase, hs]
  exact h.erase (by decide) hms rfl

theorem Blank.update {m : UInt32 → MapEntry} (h : Blank m) {e : MapEntry}
    (he : e.key ≠ emptyKey) (r : UInt32) : Blank (Function.update m r e) := by
  intro s hs
  by_cases hsr : s = r
  · subst hsr
    rw [Function.update_self] at hs
    exact absurd hs he
  · rw [Function.update_of_ne hsr] at hs ⊢
    exact h s hs

theorem Blank.erase {m : UInt32 → MapEntry} (h : Blank m) (orderId : UInt64) :
    Blank (mapErase m orderId) := by
  unfold mapErase
  split
  · rename_i s _
    exact h.update (e := { m s with key := deletedKey }) (by simp [deletedKey, emptyKey]) s
  · exact h

theorem Blank.insert {m : UInt32 → MapEntry} (h : Blank m) {orderId : UInt64}
    (hid : orderId ≠ emptyKey) (poolIdx : UInt32) (priceFp : Int64) (isBid : Bool) :
    Blank (mapInsert m orderId poolIdx priceFp isBid) := by
  unfold mapInsert
  split
  · rename_i s _
    exact h.update (e := ⟨orderId, poolIdx, priceFp, isBid⟩) hid s
  · exact h

end PersistentLOB

namespace Rep

variable {lob : PersistentLOB} {L : Layout}

theorem mem_indices_of_entry {e : MapEntry} (he : e ∈ L.entries lob.pool.nodes) :
    e.val ∈ L.indices := by
  obtain ⟨g, hg, hi, _⟩ := he.1
  exact Layout.mem_indices_of hg hi

/-- There is always a vacant slot: live slots carry distinct pool indices, and
the table has more slots than the pool. -/
theorem vacancy (h : Rep lob L) (orderId : UInt64) :
    ∃ s, Probing.vacancy MapEntry.key emptyKey deletedKey PersistentLOB.mapSlot mapSize
      lob.orderMap orderId = some s := by
  cases hv : Probing.vacancy MapEntry.key emptyKey deletedKey PersistentLOB.mapSlot mapSize
      lob.orderMap orderId with
  | some s => exact ⟨s, rfl⟩
  | none =>
      exfalso
      have hlive : ∀ j, j < mapSize → Probing.Live MapEntry.key emptyKey deletedKey
          (lob.orderMap (PersistentLOB.mapSlot orderId j)) := by
        intro j hj
        have := Probing.scan_eq_none.mp hv j hj
        rw [Nat.zero_add, Bool.or_eq_false_iff, decide_eq_false_iff_not,
          decide_eq_false_iff_not] at this
        exact this
      let f := fun j => (lob.orderMap (PersistentLOB.mapSlot orderId j)).val.toNat
      have hmaps : ∀ j ∈ Finset.range mapSize, f j ∈ Finset.range orderPoolSize := by
        intro j hj
        rw [Finset.mem_range] at hj ⊢
        exact h.lt_of_mem (List.mem_append_right _
          (mem_indices_of_entry (h.map.stored _ (hlive j hj))))
      have hinj : Set.InjOn f (Finset.range mapSize) := by
        intro i hi j hj hij
        rw [Finset.coe_range, Set.mem_Iio] at hi hj
        have hval := UInt32.toNat_inj.mp hij
        have hi' := (h.map.stored _ (hlive i hi)).2
        have hj' := (h.map.stored _ (hlive j hj)).2
        have hkey : (lob.orderMap (PersistentLOB.mapSlot orderId i)).key =
            (lob.orderMap (PersistentLOB.mapSlot orderId j)).key := by
          rw [hi', hj', hval]
        exact PersistentLOB.mapSlot_injOn hi hj (h.map.unique _ _ (hlive i hi) hkey)
      have hcard := Finset.card_le_card_of_injOn f hmaps hinj
      rw [Finset.card_range, Finset.card_range] at hcard
      exact absurd hcard (by decide)

theorem slot_of_orderId (h : Rep lob L) {i j : UInt32} (hi : i ∈ L.indices)
    (hj : j ∈ L.indices)
    (hid : (lob.pool.nodes i).orderId = (lob.pool.nodes j).orderId) : i = j :=
  List.inj_on_of_nodup_map h.distinct hi hj hid

end Rep

end VidhiArena.GameMaster
