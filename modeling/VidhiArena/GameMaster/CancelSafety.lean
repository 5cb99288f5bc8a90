import VidhiArena.GameMaster.Refinement

/-!
# What `cancel` does to a reachable book

The Game Master hands the contestant's raw order word to `cancel`, so every
64-bit id has to be considered. All but one behave: a resting order leaves,
everything else is refused and changes nothing. The exception is the id that
marks never-used slots of the order map.
-/

namespace VidhiArena.GameMaster

open VidhiArena.Foundation

namespace Book

/-- The orders of one side with side and price. -/
def placedSide (isBid : Bool) (ls : List BookLevel) : List (Bool × Int64 × RestingOrder) :=
  ls.flatMap fun lv => lv.queue.map fun o => (isBid, lv.priceFp, o)

/-- Every resting order with its side and price, in priority order. -/
def placed (B : Book) : List (Bool × Int64 × RestingOrder) :=
  placedSide true B.bids ++ placedSide false B.asks

theorem placedSide_orders (isBid : Bool) (ls : List BookLevel) :
    (placedSide isBid ls).map (fun x => x.2.2) = priority ls := by
  simp [placedSide, priority, List.map_flatMap, Function.comp_def]

theorem placed_orders (B : Book) : B.placed.map (fun x => x.2.2) = B.orders := by
  rw [placed, List.map_append, placedSide_orders, placedSide_orders, orders]

theorem placedSide_removeOrder (isBid : Bool) (orderId : UInt64) : ∀ ls : List BookLevel,
    placedSide isBid (removeOrder orderId ls) =
      (placedSide isBid ls).filter fun x => x.2.2.orderId ≠ orderId
  | [] => rfl
  | lv :: ls => by
      have ih := placedSide_removeOrder isBid orderId ls
      have hhead : placedSide isBid (withoutOrder orderId lv).toList =
          (lv.queue.map fun o => (isBid, lv.priceFp, o)).filter
            fun x => x.2.2.orderId ≠ orderId := by
        rw [List.filter_map]
        unfold withoutOrder
        split
        · -- the order is here: what the filter leaves, or no level at all
          split
          · rename_i hnil
            simpa [placedSide] using hnil
          · simp [placedSide, Function.comp_def]
        · rename_i hany
          have hself : (lv.queue.filter fun o => o.orderId ≠ orderId) = lv.queue := by
            rw [List.filter_eq_self]
            intro o ho
            simp only [List.any_eq_true, not_exists, not_and, decide_eq_true_eq] at hany
            simpa using hany o ho
          simp only [Function.comp_def, hself]
          simp [placedSide]
      have hsplit : removeOrder orderId (lv :: ls) =
          (withoutOrder orderId lv).toList ++ removeOrder orderId ls := by
        unfold removeOrder
        rw [List.filterMap_cons]
        cases withoutOrder orderId lv <;> rfl
      have happ : ∀ xs ys : List BookLevel, placedSide isBid (xs ++ ys) =
          placedSide isBid xs ++ placedSide isBid ys := fun xs ys => List.flatMap_append
      rw [hsplit, happ, hhead, ih, ← List.filter_append]
      rfl

theorem placed_cancel {B : Book} {orderId : UInt64} (h : ∃ o ∈ B.orders, o.orderId = orderId) :
    (B.cancel orderId).1 = true ∧ (B.cancel orderId).2.placed =
      B.placed.filter fun x => x.2.2.orderId ≠ orderId := by
  have hany : (B.orders.any fun o => o.orderId = orderId) = true := by
    obtain ⟨o, ho, hid⟩ := h
    exact List.any_eq_true.mpr ⟨o, ho, by simpa using hid⟩
  rw [cancel, if_pos hany]
  refine ⟨rfl, ?_⟩
  rw [placed, placedSide_removeOrder, placedSide_removeOrder, ← List.filter_append]
  rfl

end Book

theorem filter_ne_of_nodup {α κ : Type} [DecidableEq κ] {f : α → κ} {l : List α} {k : κ}
    (hnd : (l.map f).Nodup) (hk : ∃ x ∈ l, f x = k) :
    ∃ pre x post, l = pre ++ x :: post ∧ f x = k ∧
      (l.filter fun y => f y ≠ k) = pre ++ post := by
  obtain ⟨x, hx, rfl⟩ := hk
  obtain ⟨pre, post, rfl⟩ := List.append_of_mem hx
  refine ⟨pre, x, post, rfl, rfl, ?_⟩
  have hperm : ((pre ++ x :: post).map f).Perm (f x :: (pre ++ post).map f) := by simp
  have hfresh := (List.nodup_cons.mp (hperm.nodup_iff.mp hnd)).1
  have hkeep : ∀ y ∈ pre ++ post, f y ≠ f x :=
    fun y hy heq => hfresh (heq ▸ List.mem_map_of_mem hy)
  rw [List.filter_append, List.filter_cons]
  simp only [ne_eq, not_true_eq_false, decide_false, Bool.false_eq_true, if_false]
  rw [← List.filter_append, List.filter_eq_self]
  intro y hy
  simpa using hkeep y hy

theorem Refines.orderIds_nodup {lob : PersistentLOB} {B : Book} (h : Refines lob B) :
    (B.orders.map RestingOrder.orderId).Nodup := by
  obtain ⟨L, hrep, rfl⟩ := h
  rw [Layout.view_orders, List.map_map]
  exact hrep.distinct

/-- What `cancel` owes its caller: a resting order leaves and nothing else
moves, or there is no such order and nothing happens at all. In both cases the
call is defined, so the pool was indexed inside its bounds. -/
def PersistentLOB.CancelExact (lob : PersistentLOB) (orderId : UInt64) : Prop :=
  (∃ lob' pre x post, lob.cancel orderId = .ok (true, lob') ∧
    lob.view.placed = pre ++ x :: post ∧ x.2.2.orderId = orderId ∧
    lob'.view.placed = pre ++ post) ∨
  (lob.cancel orderId = .ok (false, lob) ∧ ∀ o ∈ lob.view.orders, o.orderId ≠ orderId)

/-- Some slot of the order map was never used. -/
def PersistentLOB.HasEmptySlot (lob : PersistentLOB) : Prop :=
  ∃ s : UInt32, s.toNat < mapSize ∧ (lob.orderMap s).key = emptyKey

/-- Only the first `mapSize` slots exist, so the search is bounded. -/
instance (lob : PersistentLOB) : Decidable lob.HasEmptySlot :=
  decidable_of_iff (∃ i < mapSize, (lob.orderMap (UInt32.ofNat i)).key = emptyKey) (by
    constructor
    · rintro ⟨i, hi, hkey⟩
      refine ⟨UInt32.ofNat i, ?_, hkey⟩
      rwa [UInt32.toNat_ofNat_of_lt' (by unfold mapSize at hi; simp [UInt32.size]; omega)]
    · rintro ⟨s, hs, hkey⟩
      exact ⟨s.toNat, hs, by rwa [UInt32.ofNat_toNat]⟩)

/-- What a call needs to come back: an add finds the id counter below the marker,
and the marker is cancelled only when no slot of the order map carries it. -/
def PersistentLOB.Survives (lob : PersistentLOB) : BookOp → Prop
  | .addLimit .. => lob.nextOrderId ≠ emptyKey
  | .cancel id => ¬ (id = emptyKey ∧ lob.HasEmptySlot)
  | .marketOrder .. => True

instance : ∀ (lob : PersistentLOB) (op : BookOp), Decidable (lob.Survives op)
  | _, .addLimit .. => inferInstanceAs (Decidable (_ ≠ _))
  | _, .cancel _ => inferInstanceAs (Decidable (¬ _))
  | _, .marketOrder .. => inferInstanceAs (Decidable True)

theorem Refines.survives {lob : PersistentLOB} {B : Book} (h : Refines lob B) {op : BookOp}
    (hop : lob.Survives op) :
    ∃ lob', lob.apply op = .ok ((B.applyBounded op).1, lob') ∧
      Refines lob' (B.applyBounded op).2 := by
  by_cases hproper : op.Proper B
  · exact h.apply hproper
  · -- the marker, with every slot of the map in use
    obtain rfl : op = .cancel emptyKey := by
      cases op with
      | addLimit isBid priceFp volume participant =>
          obtain ⟨L, _, rfl⟩ := h
          exact absurd hop hproper
      | cancel id => exact congrArg BookOp.cancel (not_not.mp hproper)
      | marketOrder isBuy volume taker => exact absurd trivial hproper
    have hfull : lob.apply (.cancel emptyKey) = .ok (.cancelled false, lob) := by
      simp only [PersistentLOB.apply,
        PersistentLOB.cancel_emptyKey_full fun s hs hkey => hop ⟨rfl, s, hs, hkey⟩, ok_bind,
        pure_ok]
    have hnaive : B.cancel emptyKey = (false, B) := Book.cancel_absent h.orderId_ne
    refine ⟨lob, ?_, ?_⟩
    · rw [hfull]
      simp only [Book.applyBounded, Book.apply, hnaive]
    · simp only [Book.applyBounded, Book.apply, hnaive]
      exact h

theorem Refines.cancelExact {lob : PersistentLOB} {B : Book} (h : Refines lob B)
    {orderId : UInt64} (hid : orderId ≠ emptyKey) : lob.CancelExact orderId := by
  have hviewB := h.view_eq
  have hnd := h.orderIds_nodup
  obtain ⟨L, hrep, rfl⟩ := h
  by_cases hmem : ∃ o ∈ (L.view lob).orders, o.orderId = orderId
  · obtain ⟨lob', L', hcall, hrep', hview⟩ := hrep.cancel hid
    obtain ⟨htrue, hplaced⟩ := Book.placed_cancel hmem
    rw [← Book.placed_orders, List.map_map] at hnd
    have hin : ∃ x ∈ (L.view lob).placed, x.2.2.orderId = orderId := by
      obtain ⟨o, ho, hoid⟩ := hmem
      rw [← Book.placed_orders] at ho
      obtain ⟨x, hx, rfl⟩ := List.mem_map.mp ho
      exact ⟨x, hx, hoid⟩
    obtain ⟨pre, x, post, hsplit, hx, hfilter⟩ := filter_ne_of_nodup
      (f := fun x : Bool × Int64 × RestingOrder => x.2.2.orderId) hnd hin
    refine Or.inl ⟨lob', pre, x, post, ?_, ?_, hx, ?_⟩
    · rw [hcall, htrue]
    · rw [hviewB, hsplit]
    · rw [hrep'.view_eq, hview, hplaced, hfilter]
  · have habs : ∀ o ∈ (L.view lob).orders, o.orderId ≠ orderId :=
      fun o ho heq => hmem ⟨o, ho, heq⟩
    refine Or.inr ⟨(hrep.cancel_absent ?_ hid).1, ?_⟩
    · intro i hi
      exact habs (lob.pool.nodes i).resting
        (by rw [Layout.view_orders]; exact List.mem_map.mpr ⟨i, hi, rfl⟩)
    · rw [hviewB]
      exact habs

/-- Every id but one. In a state reached with fewer than `2^64 - 1` adds,
`cancel` does what it owes exactly when the id is not the empty marker or the
order map has no empty slot left. -/
theorem cancel_exact_iff {ops : List BookOp} {rs : List Reply} {lob : PersistentLOB}
    (hrun : PersistentLOB.run ops = .ok (rs, lob)) (hids : BookOp.adds ops < 2 ^ 64 - 1)
    (orderId : UInt64) :
    lob.CancelExact orderId ↔ ¬ (orderId = emptyKey ∧ lob.HasEmptySlot) := by
  obtain ⟨_, h⟩ := run_bounded hids hrun
  constructor
  · rintro hexact ⟨rfl, s, hs, hkey⟩
    obtain ⟨L, hrep, _⟩ := h
    have hfault := hrep.cancel_emptyKey hs hkey
    rcases hexact with ⟨lob', _, _, _, hcall, _⟩ | ⟨hcall, _⟩
    · rw [hfault] at hcall
      cases hcall
    · rw [hfault] at hcall
      cases hcall
  · intro hok
    by_cases hid : orderId = emptyKey
    · subst hid
      have hfull : ∀ s, s.toNat < mapSize → (lob.orderMap s).key ≠ emptyKey :=
        fun s hs hkey => hok ⟨rfl, s, hs, hkey⟩
      refine Or.inr ⟨PersistentLOB.cancel_emptyKey_full hfull, ?_⟩
      rw [h.view_eq]
      exact h.orderId_ne
    · exact h.cancelExact hid

/-- The two orders of the smallest book, one of them cancelled. -/
theorem cancel_exact_two_orders :
    ∃ rs lob, PersistentLOB.run [.addLimit true 100 5 contestant, .addLimit true 100 7 botMM] =
        .ok (rs, lob) ∧ lob.CancelExact 1 := by
  obtain ⟨lob, hrun, _⟩ := run_defined
    [.addLimit true 100 5 contestant, .addLimit true 100 7 botMM]
    (by decide) (by decide)
  exact ⟨_, lob, hrun, (cancel_exact_iff hrun (by decide) 1).mpr fun h =>
    absurd h.1 (by decide)⟩

/-- The exception is real: on the empty book, the id `-1` of an order word
makes `cancel` index the pool with `0xFFFFFFFF`. -/
theorem cancel_marker_faults :
    PersistentLOB.run [] = .ok ([], PersistentLOB.init) ∧
      PersistentLOB.init.cancel (-1 : Int64).toUInt64 = .error (.poolIndex nullIdx) ∧
      ¬ PersistentLOB.init.CancelExact (-1 : Int64).toUInt64 := by
  have hfault : PersistentLOB.init.cancel (-1 : Int64).toUInt64 =
      .error (.poolIndex nullIdx) := by
    obtain ⟨L, hrep, _⟩ := init_refines
    exact hrep.cancel_emptyKey (s := 0) (by decide) rfl
  refine ⟨rfl, hfault, ?_⟩
  rintro (⟨lob', _, _, _, hcall, _⟩ | ⟨hcall, _⟩)
  · rw [hfault] at hcall
    cases hcall
  · rw [hfault] at hcall
    cases hcall

end VidhiArena.GameMaster
