import Mathlib.Algebra.Order.BigOperators.Group.List
import VidhiArena.GameMaster.Isolation
import VidhiArena.GameMaster.PositiveVolumes

/-!
# Conservation, order by order

Every unit of volume that `add_limit` accepts is filled, withdrawn by a cancel or
still resting. The balance is kept for one id at a time: `Book.restingOn` is what
rests under it, `PersistentLOB.withdrawn` what its cancels have taken out, and
the fills that name it say the rest. One call keeps the balance
(`Book.Positive.call`), hence every run does.

That an id is never filled again once it is gone needs no argument of its own:
the later fills would have to come out of a balance of zero.
-/

namespace VidhiArena.GameMaster

open VidhiArena.Foundation

/-! ## What rests under an id -/

namespace Book

/-- The volume of the orders of `l` that carry the id `id`. -/
def volumeOn (l : List Placement) (id : UInt64) : Int :=
  (l.map fun x => if x.2.2.orderId = id then x.2.2.volume.toInt else 0).sum

def restingOn (B : Book) (id : UInt64) : Int := volumeOn B.placed id

theorem volumeOn_cons (x : Placement) (l : List Placement) (id : UInt64) :
    volumeOn (x :: l) id =
      (if x.2.2.orderId = id then x.2.2.volume.toInt else 0) + volumeOn l id := by
  rw [volumeOn, List.map_cons, List.sum_cons]
  rfl

theorem volumeOn_perm {l l' : List Placement} (h : l.Perm l') (id : UInt64) :
    volumeOn l id = volumeOn l' id :=
  (h.map _).sum_eq

theorem volumeOn_filter (l : List Placement) (id id' : UInt64) :
    volumeOn (l.filter fun x => x.2.2.orderId ≠ id) id' =
      if id' = id then 0 else volumeOn l id' := by
  induction l with
  | nil => simp [volumeOn]
  | cons x l ih =>
      by_cases hx : x.2.2.orderId = id
      · rw [List.filter_cons_of_neg (by simpa using hx), ih, volumeOn_cons]
        by_cases hid : id' = id
        · rw [if_pos hid, if_pos hid]
        · rw [if_neg hid, if_neg hid, if_neg (fun h => hid (h.symm.trans hx)), zero_add]
      · rw [List.filter_cons_of_pos (by simpa using hx), volumeOn_cons, volumeOn_cons, ih]
        by_cases hid : id' = id
        · rw [if_pos hid, if_pos hid, if_neg (fun h => hx (h.trans hid)), zero_add]
        · rw [if_neg hid, if_neg hid]

theorem restingOn_of_absent {B : Book} {id : UInt64} (h : B.Absent id) : B.restingOn id = 0 := by
  refine List.sum_eq_zero fun v hv => ?_
  obtain ⟨x, hx, rfl⟩ := List.mem_map.mp hv
  exact if_neg (h x hx)

/-- Every resting volume is positive. -/
def AllPositive (B : Book) : Prop := ∀ x ∈ B.placed, 0 < x.2.2.volume

theorem AllPositive.restingOn_nonneg {B : Book} (h : B.AllPositive) (id : UInt64) :
    0 ≤ B.restingOn id := by
  refine List.sum_nonneg fun v hv => ?_
  obtain ⟨x, hx, rfl⟩ := List.mem_map.mp hv
  split
  · exact le_of_lt (toInt_pos.mp (h x hx))
  · exact le_refl _

/-! ## The fills that name an id -/

def filledTo (fs : List MatchedFill) (id : UInt64) : Int := exactFilled (filledOn fs id)

theorem filledTo_nil (id : UInt64) : filledTo [] id = 0 := rfl

theorem filledTo_cons (f : MatchedFill) (fs : List MatchedFill) (id : UInt64) :
    filledTo (f :: fs) id =
      (if f.makerOrderId = id then f.volume.toInt else 0) + filledTo fs id := by
  unfold filledTo
  split
  · rename_i h
    rw [filledOn_cons_self h]
    simp [exactFilled]
  · rename_i h
    rw [filledOn_cons_of_ne h, zero_add]

theorem filledTo_append (fs fs' : List MatchedFill) (id : UInt64) :
    filledTo (fs ++ fs') id = filledTo fs id + filledTo fs' id := by
  simp [filledTo, filledOn_append, exactFilled]

theorem exactFilled_nonneg {fs : List MatchedFill} (h : ∀ f ∈ fs, 0 < f.volume) :
    0 ≤ exactFilled fs := by
  refine List.sum_nonneg fun v hv => ?_
  obtain ⟨f, hf, rfl⟩ := List.mem_map.mp hv
  exact le_of_lt (toInt_pos.mp (h f hf))

theorem filledTo_nonneg {fs : List MatchedFill} (h : ∀ f ∈ fs, 0 < f.volume) (id : UInt64) :
    0 ≤ filledTo fs id :=
  exactFilled_nonneg fun f hf => h f (List.mem_of_mem_filter hf)

theorem filledOn_eq_nil {fs : List MatchedFill} (h : ∀ f ∈ fs, 0 < f.volume) {id : UInt64}
    (hzero : filledTo fs id = 0) : filledOn fs id = [] := by
  cases hon : filledOn fs id with
  | nil => rfl
  | cons f gs =>
      have hmem : ∀ g ∈ f :: gs, 0 < g.volume :=
        fun g hg => h g (List.mem_of_mem_filter (hon ▸ hg))
      obtain ⟨hf, hgs⟩ := List.forall_mem_cons.mp hmem
      have hrest := exactFilled_nonneg hgs
      have hfirst := toInt_pos.mp hf
      rw [filledTo, hon, exactFilled, List.map_cons, List.sum_cons] at hzero
      rw [exactFilled] at hrest
      omega

/-! ## One call of the naive book -/

/-- A market order moves volume from what rests to what is filled. -/
theorem marketOrder_balance (isBuy : Bool) (taker : ParticipantID) (B : Book) (r : Int64)
    (hpos : B.AllPositive) :
    (B.marketOrder isBuy r taker).2.AllPositive ∧
      (∀ f ∈ (B.marketOrder isBuy r taker).1, 0 < f.volume) ∧
      ∀ id, B.restingOn id = filledTo (B.marketOrder isBuy r taker).1 id +
        (B.marketOrder isBuy r taker).2.restingOn id := by
  revert hpos
  refine market_rounds isBuy taker (fun B _ fs B' => B.AllPositive → B'.AllPositive ∧
    (∀ f ∈ fs, 0 < f.volume) ∧ ∀ id, B.restingOn id = filledTo fs id + B'.restingOn id)
    ?_ ?_ ?_ B r
  · intro B r _ hpos
    refine ⟨hpos, fun f hf => absurd hf List.not_mem_nil, fun id => ?_⟩
    rw [filledTo_nil, zero_add]
  · intro B r p ls fs B' _ hside ih hpos
    unfold AllPositive restingOn at ih ⊢
    rw [placed_dropEmpty hside] at ih
    exact ih hpos
  · intro B r p o q ls fs B' hr hside ih hpos
    obtain ⟨rest, hold, hnew⟩ := placed_fillHead (min r o.volume) hside
    have hmem : ∀ x ∈ (!isBuy, p, o) :: rest, 0 < x.2.2.volume :=
      fun x hx => hpos x (hold.mem_iff.mpr hx)
    obtain ⟨ho, hrest⟩ := List.forall_mem_cons.mp hmem
    have ho : 0 < o.volume := ho
    obtain ⟨hmin, -, hle⟩ := min_between hr ho
    have hleft := toInt_sub_between hmin hle
    have hpos₁ : (B.fillHead isBuy p o q ls (min r o.volume)).AllPositive := by
      intro x hx
      have hx := hnew.mem_iff.mp hx
      split at hx
      · exact hrest x hx
      · rename_i hfull
        rcases List.mem_cons.mp hx with rfl | hx
        · obtain ⟨hmin, hlt⟩ := min_of_survivor hfull
          show 0 < o.volume - min r o.volume
          rw [hmin]
          exact (sub_between hr hlt).1
        · exact hrest x hx
    obtain ⟨hpos', hfills, hbalance⟩ := ih hpos₁
    refine ⟨hpos', List.forall_mem_cons.mpr ⟨toInt_pos.mpr hmin, hfills⟩, fun id => ?_⟩
    -- what the head loses is what the fill says
    have hhead : B.restingOn id = (if o.orderId = id then (min r o.volume).toInt else 0) +
        (B.fillHead isBuy p o q ls (min r o.volume)).restingOn id := by
      rw [restingOn, restingOn, volumeOn_perm hold, volumeOn_perm hnew, volumeOn_cons]
      by_cases hfull : o.volume - min r o.volume = 0
      · rw [hfull, Int64.toInt_zero, eq_comm, sub_eq_zero] at hleft
        rw [if_pos hfull, hleft]
      · rw [if_neg hfull, volumeOn_cons]
        show (if o.orderId = id then o.volume.toInt else 0) + _ = _ + ((if o.orderId = id then
          (o.volume - min r o.volume).toInt else 0) + _)
        rw [hleft]
        split <;> omega
    rw [hhead, hbalance id, filledTo_cons]
    show _ = (if o.orderId = id then (min r o.volume).toInt else 0) + _ + _
    omega

end Book

/-! ## One call of the flat book -/

/-- The order that a call has placed: its id and its volume. -/
def BookOp.acceptedBy : BookOp × Reply → Option (UInt64 × Int64)
  | (.addLimit _ _ volume _, .orderId id) =>
      if id = nullOrderId then none else some (id, volume)
  | _ => none

/-- The orders that some calls have placed, in the order of the calls. -/
def BookHistory.accepted (h : BookHistory) : List (UInt64 × Int64) :=
  h.filterMap BookOp.acceptedBy

/-- An add asks for a positive volume. -/
def BookOp.PositiveAdd : BookOp → Prop
  | .addLimit _ _ volume _ => 0 < volume
  | _ => True

instance : ∀ op : BookOp, Decidable op.PositiveAdd
  | .addLimit .. => inferInstanceAs (Decidable (_ < _))
  | .cancel _ => inferInstanceAs (Decidable True)
  | .marketOrder .. => inferInstanceAs (Decidable True)

namespace PersistentLOB

/-- The memory holds a book whose resting volumes are positive. -/
def HoldsPositive (lob : PersistentLOB) : Prop := ∃ B, Refines lob B ∧ B.AllPositive

def restingOn (lob : PersistentLOB) (id : UInt64) : Int := lob.view.restingOn id

/-- What a call takes out under `id` without a fill: all of it, when it is a
cancel of `id` that succeeds. -/
def withdrawnBy (lob : PersistentLOB) (op : BookOp) (r : Reply) (id : UInt64) : Int :=
  if op = .cancel id ∧ r = .cancelled true then lob.restingOn id else 0

/-- The volume that the successful cancels of `id` take out along a run. -/
def withdrawn (lob : PersistentLOB) : List BookOp → UInt64 → Int
  | [], _ => 0
  | op :: ops, id =>
      match lob.apply op with
      | .ok (r, lob') => lob.withdrawnBy op r id + withdrawn lob' ops id
      | .error _ => 0

end PersistentLOB

/-- What one call does to the balance of every id. -/
structure CallBalance (lob : PersistentLOB) (op : BookOp) (r : Reply) (lob' : PersistentLOB) :
    Prop where
  holds : lob'.HoldsPositive
  fills : ∀ f ∈ r.matched, 0 < f.volume
  counter : lob.nextOrderId.toNat ≤ lob'.nextOrderId.toNat
  total : lob'.totalFills = lob.totalFills + Int64.ofNat r.matched.length
  /-- an id that has been issued: what rested was filled, withdrawn, or rests -/
  balance : ∀ id, id.toNat < lob.nextOrderId.toNat →
    lob.restingOn id = Book.filledTo r.matched id + lob.withdrawnBy op r id + lob'.restingOn id
  /-- an id that has not: nothing rests and nothing is filled -/
  unissued : ∀ id, lob.nextOrderId.toNat ≤ id.toNat →
    lob.restingOn id = 0 ∧ Book.filledTo r.matched id = 0
  placed : ∀ id v, BookOp.acceptedBy (op, r) = some (id, v) → id = lob.nextOrderId ∧
    id.toNat < lob'.nextOrderId.toNat ∧ lob'.restingOn id = v.toInt
  cancelled : ∀ id, op = .cancel id → r = .cancelled true →
    id.toNat < lob.nextOrderId.toNat ∧ lob'.restingOn id = 0

/-- An add is refused and places nothing, or it is given the next id. -/
theorem Book.addLimitBounded_cases {B : Book} {b : Bool} (p v : Int64) (who : ParticipantID)
    (hprices : ((B.side b).map BookLevel.priceFp).Nodup) :
    (B.addLimitBounded b p v who).2.totalFills = B.totalFills ∧
      ((B.addLimitBounded b p v who).1 = nullOrderId ∧
          (B.addLimitBounded b p v who).2.nextOrderId = B.nextOrderId ∧
          (B.addLimitBounded b p v who).2.placed.Perm B.placed ∨
        (B.addLimitBounded b p v who).1 = B.nextOrderId ∧
          (B.addLimitBounded b p v who).2.nextOrderId = B.nextOrderId + 1 ∧
          (B.addLimitBounded b p v who).2.placed.Perm
            ((b, p, ⟨B.nextOrderId, v, who⟩) :: B.placed)) := by
  unfold addLimitBounded
  split
  · exact ⟨rfl, Or.inl ⟨rfl, rfl, List.Perm.refl _⟩⟩
  · split
    · exact ⟨by cases b <;> rfl, Or.inl ⟨rfl, by cases b <;> rfl, placed_openLevel b p⟩⟩
    · exact ⟨by cases b <;> rfl, Or.inr ⟨rfl, rfl, placed_addLimit hprices⟩⟩

theorem Refines.absent_of_le {lob : PersistentLOB} {B : Book} (h : Refines lob B) {id : UInt64}
    (hid : B.nextOrderId.toNat ≤ id.toNat) : B.Absent id := by
  rintro x hx rfl
  exact absurd (h.toNat_lt_next hx) (not_lt.mpr hid)

theorem Refines.restingOn_eq {lob : PersistentLOB} {B : Book} (h : Refines lob B) (id : UInt64) :
    lob.restingOn id = B.restingOn id := by
  rw [PersistentLOB.restingOn, h.view_eq]

theorem Refines.total_eq {lob : PersistentLOB} {B : Book} (h : Refines lob B) :
    lob.totalFills = B.totalFills :=
  congrArg Book.totalFills h.view_eq

theorem Refines.restingOn_unissued {lob : PersistentLOB} {B : Book} (h : Refines lob B)
    {id : UInt64} (hid : lob.nextOrderId.toNat ≤ id.toNat) : lob.restingOn id = 0 := by
  rw [h.next_eq] at hid
  rw [h.restingOn_eq]
  exact Book.restingOn_of_absent (h.absent_of_le hid)

theorem Refines.next_ne_null {lob : PersistentLOB} {B : Book} (h : Refines lob B) :
    B.nextOrderId ≠ nullOrderId := by
  obtain ⟨L, hrep, rfl⟩ := h
  intro heq
  have hpos := hrep.counter
  rw [show lob.nextOrderId = nullOrderId from heq] at hpos
  exact absurd hpos (by decide)

theorem CallBalance.addLimit {lob lob' : PersistentLOB} {B : Book} {b : Bool} {p v : Int64}
    {who : ParticipantID} (h : Refines lob B) (hpos : B.AllPositive) (hv : 0 < v)
    (hnext : B.nextOrderId ≠ emptyKey)
    (h' : Refines lob' (B.applyBounded (.addLimit b p v who)).2) :
    CallBalance lob (.addLimit b p v who) (B.applyBounded (.addLimit b p v who)).1 lob' := by
  obtain ⟨htotal, hcases⟩ := B.addLimitBounded_cases p v who (h.prices_sorted b).nodup
  have hreply : (B.applyBounded (.addLimit b p v who)).1 =
      .orderId (B.addLimitBounded b p v who).1 := rfl
  have hbook : (B.applyBounded (.addLimit b p v who)).2 = (B.addLimitBounded b p v who).2 := rfl
  rw [hbook] at h'
  rw [hreply]
  have hzero : ∀ (r : Reply) (id : UInt64), lob.withdrawnBy (.addLimit b p v who) r id = 0 :=
    fun r id => if_neg fun hc => by cases hc.1
  have hunissued : ∀ id : UInt64, lob.nextOrderId.toNat ≤ id.toNat → lob.restingOn id = 0 ∧
      Book.filledTo [] id = 0 := fun id hid => ⟨h.restingOn_unissued hid, rfl⟩
  rcases hcases with ⟨hid, hcount, hperm⟩ | ⟨hid, hcount, hperm⟩
  · -- refused
    refine ⟨⟨_, h', fun x hx => hpos x (hperm.mem_iff.mp hx)⟩,
      (fun f hf => absurd hf List.not_mem_nil), ?_, ?_, fun id _ => ?_, hunissued, ?_,
      (fun id hop => by cases hop)⟩
    · rw [h'.next_eq, hcount, h.next_eq]
    · rw [h'.total_eq, htotal, h.total_eq]
      exact (Int64.add_zero _).symm
    · rw [hzero, h.restingOn_eq, h'.restingOn_eq, Book.restingOn, Book.restingOn,
        Book.volumeOn_perm hperm]
      exact (zero_add _).symm
    · intro id v' hacc
      rw [hid] at hacc
      cases hacc
  · -- placed under the next id
    have hmono := Rep.toNat_next hnext
    refine ⟨⟨_, h', fun x hx => ?_⟩, (fun f hf => absurd hf List.not_mem_nil), ?_, ?_,
      fun id hlt => ?_, hunissued, ?_, (fun id hop => by cases hop)⟩
    · rcases List.mem_cons.mp (hperm.mem_iff.mp hx) with rfl | hx
      · exact hv
      · exact hpos x hx
    · rw [h'.next_eq, hcount, h.next_eq, hmono]
      exact Nat.le_succ _
    · rw [h'.total_eq, htotal, h.total_eq]
      exact (Int64.add_zero _).symm
    · have hne : B.nextOrderId ≠ id := by
        rintro rfl
        rw [h.next_eq] at hlt
        exact lt_irrefl _ hlt
      rw [hzero, h.restingOn_eq, h'.restingOn_eq, Book.restingOn, Book.restingOn,
        Book.volumeOn_perm hperm, Book.volumeOn_cons, if_neg hne, zero_add]
      exact (zero_add _).symm
    · intro id v' hacc
      rw [hid] at hacc
      simp only [BookOp.acceptedBy, if_neg h.next_ne_null, Option.some.injEq,
        Prod.mk.injEq] at hacc
      obtain ⟨rfl, rfl⟩ := hacc
      refine ⟨h.next_eq.symm, ?_, ?_⟩
      · rw [h'.next_eq, hcount, hmono]
        exact Nat.lt_succ_self _
      · have hfresh := Book.restingOn_of_absent (h.absent_of_le (le_refl _))
        rw [h'.restingOn_eq, Book.restingOn, Book.volumeOn_perm hperm, Book.volumeOn_cons,
          if_pos rfl]
        show _ + B.restingOn B.nextOrderId = _
        rw [hfresh, add_zero]

theorem CallBalance.cancel {lob lob' : PersistentLOB} {B : Book} {id : UInt64}
    (h : Refines lob B) (hpos : B.AllPositive)
    (h' : Refines lob' (B.applyBounded (.cancel id)).2) :
    CallBalance lob (.cancel id) (B.applyBounded (.cancel id)).1 lob' := by
  have hreply : (B.applyBounded (.cancel id)).1 = .cancelled (B.cancel id).1 := rfl
  have hbook : (B.applyBounded (.cancel id)).2 = (B.cancel id).2 := rfl
  rw [hbook] at h'
  rw [hreply]
  have hframe : (B.cancel id).2.nextOrderId = B.nextOrderId ∧
      (B.cancel id).2.totalFills = B.totalFills := by
    unfold Book.cancel
    split <;> exact ⟨rfl, rfl⟩
  have hcounter : lob.nextOrderId.toNat ≤ lob'.nextOrderId.toNat := by
    rw [h.next_eq, h'.next_eq, hframe.1]
  have htotal : lob'.totalFills = lob.totalFills + Int64.ofNat 0 := by
    rw [h.total_eq, h'.total_eq, hframe.2]
    exact (Int64.add_zero _).symm
  have hunissued : ∀ id : UInt64, lob.nextOrderId.toNat ≤ id.toNat → lob.restingOn id = 0 ∧
      Book.filledTo [] id = 0 := fun id hid => ⟨h.restingOn_unissued hid, rfl⟩
  by_cases hex : ∃ o ∈ B.orders, o.orderId = id
  · obtain ⟨hok, hplaced⟩ := Book.placed_cancel hex
    have hrest : ∀ id', lob'.restingOn id' = if id' = id then 0 else lob.restingOn id' := by
      intro id'
      rw [h'.restingOn_eq, h.restingOn_eq, Book.restingOn, hplaced]
      exact Book.volumeOn_filter _ _ _
    refine ⟨⟨_, h', fun x hx => ?_⟩, (fun f hf => absurd hf List.not_mem_nil), hcounter, htotal,
      fun id' _ => ?_, hunissued, (fun _ _ hacc => by cases hacc), fun id' hop _ => ?_⟩
    · rw [hplaced] at hx
      exact hpos x (List.mem_of_mem_filter hx)
    · rw [hok, hrest, PersistentLOB.withdrawnBy]
      show _ = 0 + _ + _
      by_cases hid : id' = id
      · subst hid
        simp
      · have hne : ¬ (BookOp.cancel id = .cancel id' ∧ Reply.cancelled true = .cancelled true) :=
          fun hc => hid (BookOp.cancel.inj hc.1).symm
        rw [if_neg hne, if_neg hid]
        simp
    · cases hop
      refine ⟨?_, by rw [hrest, if_pos rfl]⟩
      obtain ⟨o, ho, rfl⟩ := hex
      rw [← Book.placed_orders] at ho
      obtain ⟨x, hx, rfl⟩ := List.mem_map.mp ho
      rw [h.next_eq]
      exact h.toNat_lt_next hx
  · -- nothing to cancel
    have habsent : ∀ o ∈ B.orders, o.orderId ≠ id := fun o ho heq => hex ⟨o, ho, heq⟩
    have hsame : B.cancel id = (false, B) := Book.cancel_absent habsent
    rw [hsame] at h' ⊢
    refine ⟨⟨_, h', hpos⟩, (fun f hf => absurd hf List.not_mem_nil), hcounter, htotal,
      fun id' _ => ?_, hunissued, (fun _ _ hacc => by cases hacc), (fun _ _ hr => by cases hr)⟩
    rw [h.restingOn_eq, h'.restingOn_eq, PersistentLOB.withdrawnBy,
      if_neg (fun hc => by cases hc.2)]
    show _ = 0 + 0 + _
    simp

theorem CallBalance.marketOrder {lob lob' : PersistentLOB} {B : Book} {isBuy : Bool} {v : Int64}
    {taker : ParticipantID} (h : Refines lob B) (hpos : B.AllPositive)
    (h' : Refines lob' (B.applyBounded (.marketOrder isBuy v taker)).2) :
    CallBalance lob (.marketOrder isBuy v taker)
      (B.applyBounded (.marketOrder isBuy v taker)).1 lob' := by
  have hreply : (B.applyBounded (.marketOrder isBuy v taker)).1 =
      .fills (B.marketOrder isBuy v taker).1 := rfl
  have hbook : (B.applyBounded (.marketOrder isBuy v taker)).2 =
      (B.marketOrder isBuy v taker).2 := rfl
  rw [hbook] at h'
  rw [hreply]
  obtain ⟨hpos', hfills, hbalance⟩ := Book.marketOrder_balance isBuy taker B v hpos
  have hzero : ∀ (r : Reply) (id : UInt64),
      lob.withdrawnBy (.marketOrder isBuy v taker) r id = 0 :=
    fun r id => if_neg fun hc => by cases hc.1
  refine ⟨⟨_, h', hpos'⟩, hfills, ?_, ?_, fun id _ => ?_, fun id hid => ?_,
    (fun _ _ hacc => by cases hacc), (fun _ hop => by cases hop)⟩
  · rw [h.next_eq, h'.next_eq]
    cases isBuy <;> exact le_refl _
  · rw [h.total_eq, h'.total_eq]
    rfl
  · rw [hzero, add_zero, h.restingOn_eq, h'.restingOn_eq]
    exact hbalance id
  · -- a balance of zero on both sides
    have hnone := h.restingOn_unissued hid
    refine ⟨hnone, ?_⟩
    rw [h.restingOn_eq, hbalance id] at hnone
    have hfilled := Book.filledTo_nonneg hfills id
    have hleft := hpos'.restingOn_nonneg id
    show Book.filledTo (B.marketOrder isBuy v taker).1 id = 0
    omega

theorem PersistentLOB.HoldsPositive.call {lob lob' : PersistentLOB} {op : BookOp} {r : Reply}
    (h : lob.HoldsPositive) (hop : op.PositiveAdd) (hids : IdsLast lob op)
    (hcall : lob.apply op = .ok (r, lob')) : CallBalance lob op r lob' := by
  obtain ⟨B, href, hpos⟩ := h
  have hnext := href.idsLast hids
  obtain ⟨rfl, href'⟩ := href.apply_of_ok hnext hcall
  cases op with
  | addLimit b p v who => exact CallBalance.addLimit href hpos hop (hnext rfl) href'
  | cancel id => exact CallBalance.cancel href hpos href'
  | marketOrder isBuy v taker => exact CallBalance.marketOrder href hpos href'

/-! ## Runs -/

/-- What a run does to the balance of every id. -/
structure RunBalance (lob : PersistentLOB) (ops : List BookOp) (rs : List Reply)
    (lob' : PersistentLOB) : Prop where
  holds : lob'.HoldsPositive
  fills : ∀ f ∈ BookHistory.fills (ops.zip rs), 0 < f.volume
  counter : lob.nextOrderId.toNat ≤ lob'.nextOrderId.toNat
  total : lob'.totalFills =
    lob.totalFills + Int64.ofNat (BookHistory.fills (ops.zip rs)).length
  withdrawn_nonneg : ∀ id, 0 ≤ lob.withdrawn ops id
  balance : ∀ id, id.toNat < lob.nextOrderId.toNat →
    lob.restingOn id = Book.filledTo (BookHistory.fills (ops.zip rs)) id +
      lob.withdrawn ops id + lob'.restingOn id
  /-- every order placed on the way has its own, later id, and its own balance -/
  sorted : (BookHistory.accepted (ops.zip rs)).Pairwise fun x y => x.1.toNat < y.1.toNat
  accepted : ∀ id v, (id, v) ∈ BookHistory.accepted (ops.zip rs) →
    lob.nextOrderId.toNat ≤ id.toNat ∧ id.toNat < lob'.nextOrderId.toNat ∧
    v.toInt = Book.filledTo (BookHistory.fills (ops.zip rs)) id + lob.withdrawn ops id +
      lob'.restingOn id
  cancelled : ∀ id, (BookOp.cancel id, Reply.cancelled true) ∈ ops.zip rs →
    id.toNat < lob'.nextOrderId.toNat ∧ lob'.restingOn id = 0

theorem PersistentLOB.HoldsPositive.restingOn_nonneg {lob : PersistentLOB}
    (h : lob.HoldsPositive) (id : UInt64) : 0 ≤ lob.restingOn id := by
  obtain ⟨B, href, hpos⟩ := h
  rw [href.restingOn_eq]
  exact hpos.restingOn_nonneg id

/-- Nothing rests, so nothing is filled and nothing rests later. -/
theorem RunBalance.closed {lob lob' : PersistentLOB} {ops : List BookOp} {rs : List Reply}
    (h : RunBalance lob ops rs lob') {id : UInt64} (hid : id.toNat < lob.nextOrderId.toNat)
    (hzero : lob.restingOn id = 0) :
    Book.filledOn (BookHistory.fills (ops.zip rs)) id = [] ∧ lob'.restingOn id = 0 := by
  have hbalance := h.balance id hid
  have hfilled := Book.filledTo_nonneg h.fills id
  have hwithdrawn := h.withdrawn_nonneg id
  have hleft := h.holds.restingOn_nonneg id
  refine ⟨Book.filledOn_eq_nil h.fills ?_, ?_⟩
  · omega
  · omega

theorem RunBalance.nil {lob : PersistentLOB} (h : lob.HoldsPositive) :
    RunBalance lob [] [] lob := by
  refine ⟨h, (fun f hf => absurd hf List.not_mem_nil), le_refl _, (Int64.add_zero _).symm,
    fun id => le_refl _, fun id _ => ?_, List.Pairwise.nil, (fun id v hx => absurd hx List.not_mem_nil),
    (fun id hx => absurd hx List.not_mem_nil)⟩
  show lob.restingOn id = 0 + 0 + lob.restingOn id
  omega

theorem PersistentLOB.withdrawn_cons {lob lob₁ : PersistentLOB} {op : BookOp} {r : Reply}
    (hcall : lob.apply op = .ok (r, lob₁)) (ops : List BookOp) (id : UInt64) :
    lob.withdrawn (op :: ops) id = lob.withdrawnBy op r id + lob₁.withdrawn ops id := by
  rw [withdrawn, hcall]

theorem CallBalance.withdrawnBy_unissued {lob lob₁ : PersistentLOB} {op : BookOp} {r : Reply}
    (h : CallBalance lob op r lob₁) {id : UInt64} (hid : lob.nextOrderId.toNat ≤ id.toNat) :
    lob.withdrawnBy op r id = 0 := by
  unfold PersistentLOB.withdrawnBy
  split
  · exact (h.unissued id hid).1
  · rfl

theorem RunBalance.cons {lob lob₁ lob' : PersistentLOB} {op : BookOp} {r : Reply}
    {ops : List BookOp} {rs : List Reply} (hpos : lob.HoldsPositive)
    (hcall : lob.apply op = .ok (r, lob₁)) (h₁ : CallBalance lob op r lob₁)
    (h : RunBalance lob₁ ops rs lob') : RunBalance lob (op :: ops) (r :: rs) lob' := by
  have hfills : BookHistory.fills ((op :: ops).zip (r :: rs)) =
      r.matched ++ BookHistory.fills (ops.zip rs) := rfl
  have hwithdrawn := PersistentLOB.withdrawn_cons hcall ops
  have hnonneg : ∀ id, 0 ≤ lob.withdrawnBy op r id := by
    intro id
    unfold PersistentLOB.withdrawnBy
    split
    · exact hpos.restingOn_nonneg id
    · exact le_refl _
  have hcounter := le_trans h₁.counter h.counter
  -- an order placed later has met neither the fills nor the cancel of this call
  have hlater : ∀ id v, (id, v) ∈ BookHistory.accepted (ops.zip rs) →
      lob.nextOrderId.toNat ≤ id.toNat ∧ id.toNat < lob'.nextOrderId.toNat ∧
      v.toInt = Book.filledTo (r.matched ++ BookHistory.fills (ops.zip rs)) id +
        lob.withdrawn (op :: ops) id + lob'.restingOn id := by
    intro id v hmem
    obtain ⟨hge, hlt, hsum⟩ := h.accepted id v hmem
    have hge := le_trans h₁.counter hge
    refine ⟨hge, hlt, ?_⟩
    rw [Book.filledTo_append, hwithdrawn, (h₁.unissued id hge).2, h₁.withdrawnBy_unissued hge,
      zero_add, zero_add]
    exact hsum
  -- the order that this call has placed, if any
  have hfirst : ∀ id v, BookOp.acceptedBy (op, r) = some (id, v) →
      lob.nextOrderId.toNat ≤ id.toNat ∧ id.toNat < lob₁.nextOrderId.toNat ∧
      v.toInt = Book.filledTo (r.matched ++ BookHistory.fills (ops.zip rs)) id +
        lob.withdrawn (op :: ops) id + lob'.restingOn id := by
    intro id v hacc
    obtain ⟨hnext, hlt, hrest⟩ := h₁.placed id v hacc
    have hge : lob.nextOrderId.toNat ≤ id.toNat := by rw [hnext]
    refine ⟨hge, hlt, ?_⟩
    rw [Book.filledTo_append, hwithdrawn, (h₁.unissued id hge).2, h₁.withdrawnBy_unissued hge,
      zero_add, zero_add, ← hrest]
    exact h.balance id hlt
  have hacc : ∀ x ∈ BookHistory.accepted ((op :: ops).zip (r :: rs)),
      BookOp.acceptedBy (op, r) = some x ∨ x ∈ BookHistory.accepted (ops.zip rs) := by
    intro x hx
    obtain ⟨c, hc, hx⟩ := List.mem_filterMap.mp hx
    rcases List.mem_cons.mp hc with rfl | hc
    · exact Or.inl hx
    · exact Or.inr (List.mem_filterMap.mpr ⟨c, hc, hx⟩)
  refine ⟨h.holds, ?_, hcounter, ?_, ?_, ?_, ?_, ?_, ?_⟩
  · rw [hfills]
    exact List.forall_mem_append.mpr ⟨h₁.fills, h.fills⟩
  · rw [hfills, h.total, h₁.total, List.length_append, Int64.ofNat_add, Int64.add_assoc]
  · intro id
    rw [hwithdrawn]
    exact add_nonneg (hnonneg id) (h.withdrawn_nonneg id)
  · intro id hid
    rw [hfills, Book.filledTo_append, hwithdrawn, h₁.balance id hid,
      h.balance id (lt_of_lt_of_le hid h₁.counter)]
    omega
  · show (List.filterMap BookOp.acceptedBy ((op, r) :: ops.zip rs)).Pairwise _
    cases hone : BookOp.acceptedBy (op, r) with
    | none =>
        rw [List.filterMap_cons_none hone]
        exact h.sorted
    | some x =>
        rw [List.filterMap_cons_some hone]
        refine List.pairwise_cons.mpr ⟨fun y hy => ?_, h.sorted⟩
        exact lt_of_lt_of_le (h₁.placed x.1 x.2 hone).2.1 (h.accepted y.1 y.2 hy).1
  · intro id v hmem
    rw [hfills]
    rcases hacc _ hmem with hone | hmem
    · obtain ⟨hge, hlt, hsum⟩ := hfirst id v hone
      exact ⟨hge, lt_of_lt_of_le hlt h.counter, hsum⟩
    · exact hlater id v hmem
  · intro id hmem
    rcases List.mem_cons.mp hmem with heq | hmem
    · cases heq
      obtain ⟨hlt, hzero⟩ := h₁.cancelled id rfl rfl
      have hlt := lt_of_lt_of_le hlt h₁.counter
      exact ⟨lt_of_lt_of_le hlt h.counter, (h.closed hlt hzero).2⟩
    · exact h.cancelled id hmem

theorem PersistentLOB.HoldsPositive.run : ∀ {ops : List BookOp} {lob lob' : PersistentLOB}
    {rs : List Reply}, lob.HoldsPositive → (∀ op ∈ ops, op.PositiveAdd) →
    AdmittedFrom PersistentLOB.apply IdsLast lob ops →
    runFrom PersistentLOB.apply lob ops = .ok (rs, lob') → RunBalance lob ops rs lob' := by
  intro ops
  induction ops with
  | nil =>
      intro lob lob' rs h _ _ hrun
      cases hrun
      exact RunBalance.nil h
  | cons op ops ih =>
      rintro lob lob' rs h hops ⟨hids, hrest⟩ hrun
      obtain ⟨⟨r, lob₁⟩, hcall, hrun⟩ := bind_eq_ok.mp hrun
      obtain ⟨⟨rs₁, lob₂⟩, hrun₁, hrun⟩ := bind_eq_ok.mp hrun
      cases hrun
      obtain ⟨hop, hops⟩ := List.forall_mem_cons.mp hops
      simp only [hcall] at hrest
      have h₁ := h.call hop hids hcall
      exact RunBalance.cons h hcall h₁ (ih h₁.holds hops hrest hrun₁)

/-! ## Conservation -/

/-- The books balance, order by order, after the calls `ops` with the replies `rs`. -/
structure Conserved (ops : List BookOp) (rs : List Reply) (lob : PersistentLOB) : Prop where
  fresh : ((BookHistory.accepted (ops.zip rs)).map Prod.fst).Nodup
  /-- an order that nobody has cancelled: filled or resting -/
  kept : ∀ id v, (id, v) ∈ BookHistory.accepted (ops.zip rs) →
    (BookOp.cancel id, Reply.cancelled true) ∉ ops.zip rs →
    v.toInt = Book.filledTo (BookHistory.fills (ops.zip rs)) id + lob.restingOn id
  /-- an order that has been cancelled: filled or withdrawn -/
  withdrawn : ∀ id v, (id, v) ∈ BookHistory.accepted (ops.zip rs) →
    (BookOp.cancel id, Reply.cancelled true) ∈ ops.zip rs →
    v.toInt = Book.filledTo (BookHistory.fills (ops.zip rs)) id +
      PersistentLOB.init.withdrawn ops id
  /-- no fill names an order that was cancelled or filled completely before -/
  closed : ∀ pre post rs₁ lob₁ rs₂, ops = pre ++ post → PersistentLOB.run pre = .ok (rs₁, lob₁) →
    runFrom PersistentLOB.apply lob₁ post = .ok (rs₂, lob) →
    ∀ id v, (id, v) ∈ BookHistory.accepted (pre.zip rs₁) →
      (BookOp.cancel id, Reply.cancelled true) ∈ pre.zip rs₁ ∨
        Book.filledTo (BookHistory.fills (pre.zip rs₁)) id = v.toInt →
      Book.filledOn (BookHistory.fills (post.zip rs₂)) id = []
  total : (BookHistory.fills (ops.zip rs)).length < 2 ^ 63 →
    lob.totalFills.toInt = (BookHistory.fills (ops.zip rs)).length

theorem PersistentLOB.withdrawn_eq_zero : ∀ {ops : List BookOp} {lob lob' : PersistentLOB}
    {rs : List Reply} {id : UInt64}, runFrom PersistentLOB.apply lob ops = .ok (rs, lob') →
    (BookOp.cancel id, Reply.cancelled true) ∉ ops.zip rs → lob.withdrawn ops id = 0 := by
  intro ops
  induction ops with
  | nil => exact fun _ _ => rfl
  | cons op ops ih =>
      intro lob lob' rs id hrun hnone
      obtain ⟨⟨r, lob₁⟩, hcall, hrun⟩ := bind_eq_ok.mp hrun
      obtain ⟨⟨rs₁, lob₂⟩, hrun₁, hrun⟩ := bind_eq_ok.mp hrun
      cases hrun
      rw [withdrawn_cons hcall, ih hrun₁ fun hmem => hnone (List.mem_cons_of_mem _ hmem),
        add_zero]
      refine if_neg ?_
      rintro ⟨rfl, rfl⟩
      exact hnone List.mem_cons_self

theorem PersistentLOB.HoldsPositive.init : PersistentLOB.init.HoldsPositive :=
  ⟨Book.empty, init_refines, fun _ hx => absurd hx List.not_mem_nil⟩

/-- Conservation over whole runs, while ids last: every add finds the id
counter below the marker. -/
theorem orders_conserved {ops : List BookOp} {rs : List Reply} {lob : PersistentLOB}
    (hpos : ∀ op ∈ ops, op.PositiveAdd)
    (hids : AdmittedFrom PersistentLOB.apply IdsLast PersistentLOB.init ops)
    (hrun : PersistentLOB.run ops = .ok (rs, lob)) : Conserved ops rs lob := by
  have hbalance := PersistentLOB.HoldsPositive.init.run hpos hids hrun
  refine ⟨?_, fun id v hmem hnone => ?_, fun id v hmem hcancel => ?_, ?_, fun hfew => ?_⟩
  · refine List.Pairwise.map _ (fun x y hlt heq => ?_) hbalance.sorted
    rw [heq] at hlt
    exact lt_irrefl _ hlt
  · rw [(hbalance.accepted id v hmem).2.2, PersistentLOB.withdrawn_eq_zero hrun hnone, add_zero]
  · rw [(hbalance.accepted id v hmem).2.2, (hbalance.cancelled id hcancel).2, add_zero]
  · rintro pre post rs₁ lob₁ rs₂ rfl hpre hpost id v hmem hdone
    obtain ⟨hpos₁, hpos₂⟩ := List.forall_mem_append.mp hpos
    have hfirst := PersistentLOB.HoldsPositive.init.run hpos₁ hids.of_append hpre
    have hsecond := hfirst.holds.run hpos₂ (hids.rest hpre) hpost
    obtain ⟨-, hlt, hsum⟩ := hfirst.accepted id v hmem
    refine (hsecond.closed hlt ?_).1
    rcases hdone with hcancel | hfilled
    · exact (hfirst.cancelled id hcancel).2
    · have hwithdrawn := hfirst.withdrawn_nonneg id
      have hleft := hfirst.holds.restingOn_nonneg id
      omega
  · have htotal := hbalance.total
    rw [show PersistentLOB.init.totalFills = 0 from rfl, Int64.zero_add] at htotal
    rw [htotal]
    exact Int64.toInt_ofNat_of_lt hfew

/-- Fewer than `2^64 - 1` calls of `add_limit` do not use up the ids. -/
theorem Refines.idsLast_run : ∀ {ops : List BookOp} {lob : PersistentLOB} {B : Book},
    Refines lob B → B.nextOrderId.toNat + BookOp.adds ops < 2 ^ 64 →
    AdmittedFrom PersistentLOB.apply IdsLast lob ops := by
  intro ops
  induction ops with
  | nil => exact fun _ _ => trivial
  | cons op ops ih =>
      intro lob B h hids
      rw [BookOp.adds_cons, ← Nat.add_assoc] at hids
      have hnext : op.isAdd = true → B.nextOrderId ≠ emptyKey := by
        intro hadd
        cases op with
        | addLimit b p v who => exact BookOp.proper_of_counter hids (by simp)
        | cancel id => cases hadd
        | marketOrder isBuy v taker => cases hadd
      refine ⟨fun hadd => h.next_eq ▸ hnext hadd, ?_⟩
      cases hcall : lob.apply op with
      | error e => trivial
      | ok c => exact ih (h.apply_of_ok hnext hcall).2 (B.applyBounded_counter op hids)

/-- An order is filled in part, what is left of it is cancelled, and its slot goes
to the next one. -/
theorem orders_conserved_partial_fill :
    let ops := [BookOp.addLimit false 100 5 botMM, .marketOrder true 2 contestant, .cancel 1,
      .addLimit false 101 4 botMM]
    ∃ rs lob, PersistentLOB.run ops = .ok (rs, lob) ∧ Conserved ops rs lob := by
  intro ops
  obtain ⟨lob, hrun, _⟩ := run_defined ops (by decide) (by decide)
  exact ⟨_, lob, hrun, orders_conserved (by decide) (init_refines.idsLast_run (by decide)) hrun⟩

/-! ## When the counters run out

`next_order_id` has 64 bits and `total_fills` 63. -/

theorem fills_zip {ops : List BookOp} {rs : List Reply} (h : rs.length = ops.length) :
    BookHistory.fills (ops.zip rs) = rs.flatMap Reply.matched := by
  calc BookHistory.fills (ops.zip rs)
      = ((ops.zip rs).map Prod.snd).flatMap Reply.matched :=
        (List.flatMap_map ..).symm
    _ = rs.flatMap Reply.matched := by rw [List.map_snd_zip (le_of_eq h)]

theorem mem_cycles {α : Type} {n : Nat} {op : α} {ops : List α}
    (h : op ∈ (List.replicate n ops).flatten) : op ∈ ops := by
  obtain ⟨c, hc, hop⟩ := List.mem_flatten.mp h
  rwa [(List.mem_replicate.mp hc).2] at hop

theorem positiveAdd_cycles (n : Nat) :
    ∀ op ∈ (List.replicate n restAndTake).flatten, op.PositiveAdd := by
  have hcycle : ∀ op ∈ restAndTake, op.PositiveAdd := by decide
  exact fun op hop => hcycle op (mem_cycles hop)

theorem adds_cycles : ∀ n : Nat, BookOp.adds (List.replicate n restAndTake).flatten = n
  | 0 => rfl
  | n + 1 => by
      rw [List.replicate_succ, List.flatten_cons, BookOp.adds_append, adds_cycles n]
      exact Nat.add_comm 1 n

theorem proper_cycles {n : Nat} :
    ∀ op ∈ (List.replicate n restAndTake).flatten, op ≠ .cancel emptyKey := by
  have hmarker : ∀ op ∈ restAndTake, op ≠ .cancel emptyKey := by decide
  exact fun op hop => hmarker op (mem_cycles hop)

/-- The flat book goes through any number of cycles that the ids last for. -/
theorem run_cycles {n : Nat} (hn : n < 2 ^ 64 - 1) :
    ∃ lob last fills, PersistentLOB.run (List.replicate n restAndTake).flatten =
        .ok ((Book.run (List.replicate n restAndTake).flatten).1, lob) ∧
      Refines lob ⟨[], [], 1 + UInt64.ofNat n, last, fills⟩ := by
  obtain ⟨hadm, last, fills, hend⟩ := cycles_restAndTake noBids_room 1 n 1 0 0
  obtain ⟨lob, hrun, href⟩ := run_defined _ (by rw [adds_cycles]; exact hn) proper_cycles
  have hsame : Book.runBounded (List.replicate n restAndTake).flatten =
      Book.run (List.replicate n restAndTake).flatten := Book.run_unbounded hadm
  rw [hsame] at hrun href
  refine ⟨lob, last, fills, hrun, ?_⟩
  have hend : (Book.run (List.replicate n restAndTake).flatten).2 =
    ⟨[], [], 1 + UInt64.ofNat n, last, fills⟩ := hend
  rwa [hend] at href

theorem matched_cycles : ∀ (n : Nat) (k : UInt64) (last fills : Int64),
    ((traceFrom Book.apply ⟨[], [], k, last, fills⟩
      (List.replicate n restAndTake).flatten).1.flatMap Reply.matched).length = n
  | 0, _, _, _ => rfl
  | n + 1, k, last, fills => by
      have hfirst : (traceFrom Book.apply ⟨[], [], k, last, fills⟩ restAndTake).2 =
        ⟨[], [], k + 1, 1, fills + 1⟩ := traceFrom_restAndTake [] 1 k last fills
      have hmin : min (1 : Int64) 1 = 1 := by decide
      have hone : ((traceFrom Book.apply ⟨[], [], k, last, fills⟩ restAndTake).1.flatMap
          Reply.matched).length = 1 := by
        simp [hmin, restAndTake, traceFrom, Book.apply, Book.addLimit, Book.openLevel,
          Book.hasLevel, Book.insertLevel, Book.enqueue, Book.side, Book.setSide,
          Book.marketOrder, Book.matchLevels, Book.matchQueue, Reply.matched]
      rw [List.replicate_succ, List.flatten_cons, traceFrom_append, hfirst, List.flatMap_append,
        List.length_append, hone, matched_cycles n (k + 1) 1 (fills + 1)]
      exact Nat.add_comm 1 n

/-- An add to a level that has just been opened, whatever the id counter says. -/
theorem PersistentLOB.addLimit_opened {lob : PersistentLOB} {b : Bool} {p : Int64} (v : Int64)
    (who : ParticipantID) {k : Nat} {side : LOBSide} {i : UInt32} {rest : List UInt32}
    (hside : (lob.side b).getOrCreate p = some (k, side))
    (hlevel : side.levels.getD k default = ⟨p, 0, nullIdx, nullIdx, 0⟩)
    (hfree : lob.pool.freeStack = i :: rest) (hi : i.toNat < orderPoolSize) :
    ∃ lob', lob.apply (.addLimit b p v who) = .ok (.orderId lob.nextOrderId, lob') ∧
      lob'.nextOrderId = lob.nextOrderId + 1 ∧
      lob'.pool = ⟨Function.update lob.pool.nodes i ⟨lob.nextOrderId, v, who, nullIdx⟩, rest⟩ ∧
      lob'.side b = side.setLevel k ⟨p, 0 + v, i, i, 0 + 1⟩ ∧
      lob'.side (!b) = lob.side (!b) := by
  have hne : i ≠ nullIdx := by
    rintro rfl
    exact absurd hi (by decide)
  refine ⟨{ lob.setSide b (side.setLevel k ⟨p, 0 + v, i, i, 0 + 1⟩) with
    pool := ⟨Function.update lob.pool.nodes i ⟨lob.nextOrderId, v, who, nullIdx⟩, rest⟩
    nextOrderId := lob.nextOrderId + 1
    orderMap := PersistentLOB.mapInsert lob.orderMap lob.nextOrderId i p b }, ?_, rfl, rfl, ?_⟩
  · simp only [PersistentLOB.apply, PersistentLOB.addLimit, hside, OrderPool.alloc, hfree,
      if_neg hne, OrderPool.set, if_pos hi, ok_bind, PersistentLOB.appendNode, hlevel, if_true,
      pure_ok]
  · cases b <;> exact ⟨rfl, rfl⟩

theorem Rep.free_three {lob : PersistentLOB} {L : Layout} (h : Rep lob L)
    (hroom : L.indices.length + 3 ≤ orderPoolSize) :
    ∃ i j k rest, lob.pool.freeStack = i :: j :: k :: rest ∧ i.toNat < orderPoolSize ∧
      j.toNat < orderPoolSize ∧ k.toNat < orderPoolSize := by
  have hlt : ∀ i ∈ lob.pool.freeStack, i.toNat < orderPoolSize := fun i hi =>
    (OrderPool.mem_freeIndices (le_refl _)).mp
      (h.partition.mem_iff.mp (List.mem_append_left _ hi))
  have hlen := h.length_partition
  match hstack : lob.pool.freeStack with
  | [] | [_] | [_, _] =>
      rw [hstack] at hlen
      simp only [List.length_nil, List.length_cons] at hlen
      omega
  | i :: j :: k :: rest =>
      rw [hstack] at hlt
      exact ⟨i, j, k, rest, rfl, hlt i (by simp), hlt j (by simp), hlt k (by simp)⟩

theorem Refines.free_of_empty {lob : PersistentLOB} {B : Book} (h : Refines lob B)
    (hbids : B.bids = []) (hasks : B.asks = []) :
    lob.bids = ⟨[], true⟩ ∧ lob.asks = ⟨[], false⟩ ∧
      ∃ i j k rest, lob.pool.freeStack = i :: j :: k :: rest ∧ i.toNat < orderPoolSize ∧
        j.toNat < orderPoolSize ∧ k.toNat < orderPoolSize := by
  obtain ⟨L, hrep, rfl⟩ := h
  have hnone : ∀ b, L.side b = [] := by
    intro b
    have hview := Layout.view_side L lob b
    cases b
    · rw [show (L.view lob).side false = [] from hasks] at hview
      exact List.map_eq_nil_iff.mp hview.symm
    · rw [show (L.view lob).side true = [] from hbids] at hview
      exact List.map_eq_nil_iff.mp hview.symm
  have hindices : L.indices = [] := by
    have hb : L.bids = [] := hnone true
    have ha : L.asks = [] := hnone false
    simp [Layout.indices, hb, ha]
  have hbook : ∀ b, lob.side b = ⟨[], b⟩ := fun b => by rw [hrep.sides b, hnone b]; rfl
  exact ⟨hbook true, hbook false, hrep.free_three (by rw [hindices]; decide)⟩

/-- Three orders that nothing takes. -/
def restThree : List BookOp :=
  [.addLimit false 1 1 botMM, .addLimit true 1 1 botMM, .addLimit false 2 1 botMM]

/-- On an empty book the counter goes over the marker, and over zero. -/
theorem run_restThree {lob : PersistentLOB} {B : Book} (h : Refines lob B)
    (hbids : B.bids = []) (hasks : B.asks = []) :
    ∃ lob', runFrom PersistentLOB.apply lob restThree = .ok ([.orderId lob.nextOrderId,
      .orderId (lob.nextOrderId + 1), .orderId (lob.nextOrderId + 1 + 1)], lob') := by
  obtain ⟨hb, ha, i, j, k, rest, hfree, hi, hj, hk⟩ := h.free_of_empty hbids hasks
  have hopen : ∀ b, LOBSide.getOrCreate ⟨[], b⟩ 1 =
      some (0, ⟨[⟨1, 0, nullIdx, nullIdx, 0⟩], b⟩) := fun b => by cases b <;> rfl
  have hside : ∀ b, lob.side b = ⟨[], b⟩ := by
    intro b
    cases b
    · exact ha
    · exact hb
  obtain ⟨lob₁, hcall₁, hnext₁, hpool₁, hasks₁, hbids₁⟩ :=
    PersistentLOB.addLimit_opened 1 botMM ((hside false).symm ▸ hopen false) rfl hfree hi
  have hbids₁ : lob₁.side true = ⟨[], true⟩ := hbids₁.trans (hside true)
  obtain ⟨lob₂, hcall₂, hnext₂, hpool₂, -, hasks₂⟩ :=
    PersistentLOB.addLimit_opened 1 botMM (hbids₁.symm ▸ hopen true) rfl (congrArg _ hpool₁) hj
  have hasks₂ : lob₂.side false = ⟨[⟨1, 0 + 1, i, i, 0 + 1⟩], false⟩ := hasks₂.trans hasks₁
  have hopen₃ : LOBSide.getOrCreate ⟨[⟨1, 0 + 1, i, i, 0 + 1⟩], false⟩ 2 =
      some (1, ⟨[⟨1, 0 + 1, i, i, 0 + 1⟩, ⟨2, 0, nullIdx, nullIdx, 0⟩], false⟩) := by
    have hne : (1 : Int64) ≠ 2 := by decide
    have hbefore : LOBSide.before false 1 2 = true := by decide
    have hafter : LOBSide.before false 2 1 = false := by decide
    simp [LOBSide.getOrCreate, LOBSide.find, LOBSide.findLoop, LOBSide.insert, maxPriceLevels,
      hne, hbefore, hafter]
  obtain ⟨lob₃, hcall₃, -⟩ :=
    PersistentLOB.addLimit_opened 1 botMM (hasks₂.symm ▸ hopen₃) rfl (congrArg _ hpool₂) hk
  refine ⟨lob₃, ?_⟩
  simp only [restThree, runFrom, hcall₁, hcall₂, hcall₃, ok_bind, pure_ok, hnext₁, hnext₂]

/-- Ids come back: the first order of a run and the last one of `restThree`
behind `2^64 - 2` cycles share an id. -/
theorem ids_come_back {n : Nat} (hn : n = 2 ^ 64 - 2) :
    ∃ rs lob, PersistentLOB.run ((List.replicate n restAndTake).flatten ++ restThree) =
        .ok (rs, lob) ∧
      ¬ ((BookHistory.accepted (((List.replicate n restAndTake).flatten ++ restThree).zip rs)).map
        Prod.fst).Nodup := by
  obtain ⟨lob, last, fills, hrun, href⟩ := run_cycles (n := n) (by omega)
  obtain ⟨lob', hthree⟩ := run_restThree href rfl rfl
  have hnext : lob.nextOrderId = emptyKey := by
    rw [href.next_eq]
    subst hn
    show 1 + UInt64.ofNat (2 ^ 64 - 2) = emptyKey
    decide
  have hcycles : (Book.run (List.replicate n restAndTake).flatten).1.length =
      (List.replicate n restAndTake).flatten.length := traceFrom_length ..
  refine ⟨_, lob', runFrom_trans hrun hthree, fun hnodup => ?_⟩
  rw [List.zip_append hcycles.symm, BookHistory.accepted, List.filterMap_append,
    List.map_append, hnext] at hnodup
  refine (List.nodup_append.mp hnodup).2.2 1 ?_ 1 ?_ rfl
  · -- the first id of the first cycle
    obtain ⟨m, rfl⟩ : ∃ m, n = m + 1 := ⟨2 ^ 64 - 3, by omega⟩
    refine List.mem_map.mpr ⟨(1, 1), ?_, rfl⟩
    refine List.mem_filterMap.mpr ⟨(.addLimit false 1 1 botMM, .orderId 1), ?_, rfl⟩
    exact List.mem_cons_self
  · decide

theorem fills_outnumber_total {n : Nat} (hn : n = 2 ^ 63) :
    ∃ rs lob, PersistentLOB.run (List.replicate n restAndTake).flatten = .ok (rs, lob) ∧
      lob.totalFills.toInt ≠
        (BookHistory.fills ((List.replicate n restAndTake).flatten.zip rs)).length := by
  obtain ⟨lob, last, fills, hrun, -⟩ := run_cycles (n := n) (by omega)
  have hlength : (Book.run (List.replicate n restAndTake).flatten).1.length =
      (List.replicate n restAndTake).flatten.length := traceFrom_length ..
  refine ⟨_, lob, hrun, ?_⟩
  rw [fills_zip hlength]
  show lob.totalFills.toInt ≠ ((traceFrom Book.apply Book.empty
    (List.replicate n restAndTake).flatten).1.flatMap Reply.matched).length
  rw [Book.empty, matched_cycles, hn]
  have := lob.totalFills.toInt_lt
  omega

/-- Both counters wrap, in runs whose adds are all of positive volume. -/
theorem counters_wrap :
    (let ops := (List.replicate (2 ^ 64 - 2) restAndTake).flatten ++ restThree;
      (∀ op ∈ ops, op.PositiveAdd) ∧ ∃ rs lob, PersistentLOB.run ops = .ok (rs, lob) ∧
        ¬ ((BookHistory.accepted (ops.zip rs)).map Prod.fst).Nodup) ∧
    (let ops := (List.replicate (2 ^ 63) restAndTake).flatten;
      (∀ op ∈ ops, op.PositiveAdd) ∧ ∃ rs lob, PersistentLOB.run ops = .ok (rs, lob) ∧
        lob.totalFills.toInt ≠ (BookHistory.fills (ops.zip rs)).length) := by
  have hthree : ∀ op ∈ restThree, op.PositiveAdd := by decide
  exact ⟨⟨List.forall_mem_append.mpr ⟨positiveAdd_cycles _, hthree⟩, ids_come_back rfl⟩,
    positiveAdd_cycles _, fills_outnumber_total rfl⟩

end VidhiArena.GameMaster
