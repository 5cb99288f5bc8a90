import Mathlib.Data.List.GetD

/-!
# Memory, byte by byte

A block of memory as a function from offsets to bytes. Scalars are stored and loaded as
the bytes that they are made of, so that what overlaps overwrites.
-/

namespace VidhiArena.Foundation

abbrev ByteMemory := Nat → UInt8

namespace ByteMemory

def store (m : ByteMemory) (offset : Nat) (bs : List UInt8) : ByteMemory :=
  fun i => if offset ≤ i then bs.getD (i - offset) (m i) else m i

def load (m : ByteMemory) (offset width : Nat) : List UInt8 := (List.range' offset width).map m

variable {m : ByteMemory} {offset offset' width : Nat} {bs : List UInt8}

theorem load_length : (m.load offset width).length = width := by
  rw [load, List.length_map, List.length_range']

/-- What was stored is loaded, the whole of it or the first bytes. -/
theorem load_store (hwidth : width ≤ bs.length) :
    (m.store offset bs).load offset width = bs.take width := by
  refine List.ext_getElem ?_ fun i hi hi' => ?_
  · rw [load_length, List.length_take]
    omega
  · rw [load_length] at hi
    rw [List.getElem_take]
    simp only [load, List.getElem_map, List.getElem_range', store, Nat.one_mul]
    rw [if_pos (Nat.le_add_right _ _), Nat.add_sub_cancel_left, List.getD_eq_getElem]

theorem load_store_of_disjoint
    (h : offset + width ≤ offset' ∨ offset' + bs.length ≤ offset) :
    (m.store offset' bs).load offset width = m.load offset width := by
  refine List.map_congr_left fun i hi => ?_
  obtain ⟨k, hk, rfl⟩ := List.mem_range'.mp hi
  unfold store
  split
  · rw [List.getD_eq_default]
    omega
  · rfl

theorem load_take {k : Nat} (hk : k ≤ width) : (m.load offset width).take k = m.load offset k := by
  rw [load, load, ← List.map_take, List.take_range'_of_length_ge hk]

/-! ## Several stores -/

/-- Offset and bytes. -/
abbrev Store := Nat × List UInt8

def storeAll (m : ByteMemory) (todo : List Store) : ByteMemory :=
  todo.foldl (fun m st => m.store st.1 st.2) m

def Apart (st st' : Store) : Prop :=
  st.1 + st.2.length ≤ st'.1 ∨ st'.1 + st'.2.length ≤ st.1

theorem load_storeAll_of_apart : ∀ {todo : List Store} {m : ByteMemory},
    (∀ st ∈ todo, Apart (offset, bs) st) →
      (m.storeAll todo).load offset bs.length = m.load offset bs.length
  | [], _, _ => rfl
  | st :: todo, m, h => by
      obtain ⟨hst, htodo⟩ := List.forall_mem_cons.mp h
      have hrest : ((m.store st.1 st.2).storeAll todo).load offset bs.length =
          (m.store st.1 st.2).load offset bs.length := load_storeAll_of_apart htodo
      exact hrest.trans (load_store_of_disjoint hst)

theorem load_storeAll : ∀ {todo : List Store} {m : ByteMemory}, todo.Pairwise Apart →
    (offset, bs) ∈ todo → (m.storeAll todo).load offset bs.length = bs
  | st :: todo, m, hapart, hmem => by
      obtain ⟨hst, htodo⟩ := List.pairwise_cons.mp hapart
      rcases List.mem_cons.mp hmem with rfl | hmem
      · have hrest : ((m.store offset bs).storeAll todo).load offset bs.length =
            (m.store offset bs).load offset bs.length := load_storeAll_of_apart hst
        rw [storeAll, List.foldl_cons]
        exact hrest.trans ((load_store (Nat.le_refl _)).trans List.take_length)
      · rw [storeAll, List.foldl_cons]
        exact load_storeAll htodo hmem

end ByteMemory

end VidhiArena.Foundation
