import VidhiArena.GameMaster.Fills
import VidhiArena.GameMaster.TickLoop

/-!
# Isolation of the participants

Ids are small consecutive integers shared by everybody, and `cancel` carries no
owner: step 6 passes on whatever id the contestant writes. `Isolated` is the law
that an order of somebody else loses volume only to fills. The contestant's adds
and market orders keep it; a cancel keeps it exactly when the order that it names
is the contestant's own, or none.

The tracking of one order through a call (`Book.CallTracks`) and through a
program does not depend on who makes the calls.
-/

namespace VidhiArena.GameMaster

open VidhiArena.Foundation

/-! ## One call -/

namespace Book

variable {B : Book}

/-- What a call does to each order, given the fills in its reply. -/
structure CallTracks (B : Book) (op : BookOp) (fs : List MatchedFill) (B' : Book) : Prop where
  tracked : ∀ x ∈ B.placed, op ≠ .cancel x.2.2.orderId →
    B'.Kept (filledOn fs x.2.2.orderId) x ∨ B'.Spent (filledOn fs x.2.2.orderId) x
  cancelled : ∀ id, op = .cancel id → B'.Absent id ∧ filledOn fs id = []
  absent : ∀ id, B.Absent id → id ≠ B.nextOrderId → B'.Absent id ∧ filledOn fs id = []
  fresh : ∀ y ∈ B'.placed, y.2.2.orderId = B.nextOrderId →
    ∃ b p v, op = .addLimit b p v y.2.2.participant

theorem callTracks (hids : (B.placed.map fun x => x.2.2.orderId).Nodup)
    (hprices : ∀ b, ((B.side b).map BookLevel.priceFp).Nodup) (hfresh : B.Absent B.nextOrderId)
    (op : BookOp) :
    CallTracks B op (B.applyBounded op).1.matched (B.applyBounded op).2 := by
  cases op with
  | addLimit b p v who =>
      have hmatched : (B.applyBounded (.addLimit b p v who)).1.matched = [] := rfl
      rw [hmatched]
      have hadd := placed_addLimitBounded p v who (hprices b)
      have hmem : ∀ x ∈ B.placed, x ∈ (B.applyBounded (.addLimit b p v who)).2.placed := by
        intro x hx
        rcases hadd with h | h
        · exact h.mem_iff.mpr hx
        · exact h.mem_iff.mpr (List.mem_cons_of_mem _ hx)
      have hback : ∀ x ∈ (B.applyBounded (.addLimit b p v who)).2.placed,
          x = (b, p, ⟨B.nextOrderId, v, who⟩) ∨ x ∈ B.placed := by
        intro x hx
        rcases hadd with h | h
        · exact Or.inr (h.mem_iff.mp hx)
        · exact List.mem_cons.mp (h.mem_iff.mp hx)
      refine ⟨fun x hx _ => Or.inl (kept_nil (hmem x hx)), (fun id h => nomatch h),
        fun id habs hne => ⟨fun x hx => ?_, rfl⟩, fun y hy hid => ?_⟩
      · rcases hback x hx with rfl | hx
        · exact hne.symm
        · exact habs x hx
      · rcases hback y hy with rfl | hy
        · exact ⟨b, p, v, rfl⟩
        · exact absurd hid (hfresh y hy)
  | cancel id =>
      have hmatched : (B.applyBounded (.cancel id)).1.matched = [] := rfl
      rw [hmatched]
      have hplaced : ∀ x, x ∈ (B.applyBounded (.cancel id)).2.placed ↔
          x ∈ B.placed ∧ x.2.2.orderId ≠ id := by
        intro x
        show x ∈ (B.cancel id).2.placed ↔ _
        by_cases hex : ∃ o ∈ B.orders, o.orderId = id
        · rw [(placed_cancel hex).2, List.mem_filter, decide_eq_true_eq]
        · have habsent : ∀ o ∈ B.orders, o.orderId ≠ id := fun o ho heq => hex ⟨o, ho, heq⟩
          rw [cancel_absent habsent]
          refine ⟨fun hx => ⟨hx, habsent x.2.2 ?_⟩, And.left⟩
          rw [← placed_orders]
          exact List.mem_map_of_mem hx
      refine ⟨fun x hx hop => Or.inl (kept_nil ((hplaced x).mpr ⟨hx, ?_⟩)), ?_,
        fun id' habs _ => ⟨fun x hx => habs x ((hplaced x).mp hx).1, rfl⟩, fun y hy hid => ?_⟩
      · rintro rfl
        exact hop rfl
      · rintro id' heq
        cases heq
        exact ⟨fun x hx => ((hplaced x).mp hx).2, rfl⟩
      · exact absurd hid (hfresh y ((hplaced y).mp hy).1)
  | marketOrder isBuy r taker =>
      obtain ⟨htracked, habsent⟩ := market_tracked isBuy taker B r hids
      refine ⟨fun x hx _ => htracked x hx, fun id h => (by cases h), fun id habs _ => habsent id habs,
        fun y hy hid => ?_⟩
      exact absurd hid ((habsent B.nextOrderId hfresh).1 y hy)

end Book

theorem Refines.callTracks {lob : PersistentLOB} {B : Book} (h : Refines lob B) (op : BookOp) :
    Book.CallTracks B op (B.applyBounded op).1.matched (B.applyBounded op).2 := by
  refine Book.callTracks h.placed_nodup (fun b => (h.prices_sorted b).nodup) ?_ op
  intro x hx
  refine h.fresh x.2.2 ?_
  rw [← Book.placed_orders]
  exact List.mem_map_of_mem hx

/-! ## Programs -/

section Programs

variable {α : Type} {p : BookProg α} {lob lob' : PersistentLOB} {B B' : Book} {a : α}
  {h : BookHistory}

theorem BookHistory.fills_cons (c : BookOp × Reply) (h : BookHistory) :
    BookHistory.fills (c :: h) = c.2.matched ++ BookHistory.fills h := rfl

theorem Book.filledOn_append (fs fs' : List MatchedFill) (id : UInt64) :
    Book.filledOn (fs ++ fs') id = Book.filledOn fs id ++ Book.filledOn fs' id :=
  List.filter_append ..

/-- Ids last: an add finds the id counter below the marker. -/
def IdsLast (lob : PersistentLOB) (op : BookOp) : Prop :=
  op.isAdd = true → lob.nextOrderId ≠ emptyKey

theorem Refines.idsLast (href : Refines lob B) {op : BookOp} (h : IdsLast lob op) :
    op.isAdd = true → B.nextOrderId ≠ emptyKey :=
  href.next_eq ▸ h

theorem nextOrderId_mono {op : BookOp} (hadd : op.isAdd = true → B.nextOrderId ≠ emptyKey) :
    B.nextOrderId.toNat ≤ (B.applyBounded op).2.nextOrderId.toNat := by
  rcases B.applyBounded_nextOrderId op with heq | ⟨hop, heq⟩
  · rw [heq]
  · rw [heq, Rep.toNat_next (hadd hop)]
    exact Nat.le_succ _

/-- An id that has been issued and is not resting never comes back. -/
theorem absent_run : ∀ {lob lob' : PersistentLOB} {B : Book} {a : α} {h : BookHistory},
    Refines lob B → Prog.AdmittedIn PersistentLOB.apply IdsLast p lob →
    p.run PersistentLOB.apply lob = .ok (a, h, lob') →
    ∀ id, B.Absent id → id.toNat < B.nextOrderId.toNat →
      lob'.view.Absent id ∧ Book.filledOn (BookHistory.fills h) id = [] := by
  induction p with
  | ret a =>
      intro lob lob' B a' h href _ hrun id habs _
      cases hrun
      rw [href.view_eq]
      exact ⟨habs, rfl⟩
  | read k ih => exact fun {lob _ _ _ _} href hadm hrun => ih lob href hadm hrun
  | call op k ih =>
      rintro lob lob' B a h href ⟨hids, hrest⟩ hrun id habs hlt
      obtain ⟨⟨r, lob₁⟩, hcall, hrun⟩ := bind_eq_ok.mp hrun
      obtain ⟨⟨a', h', lob₂⟩, hrun', hrun⟩ := bind_eq_ok.mp hrun
      cases hrun
      have hadd := href.idsLast hids
      obtain ⟨rfl, href₁⟩ := href.apply_of_ok hadd hcall
      have hne : id ≠ B.nextOrderId := by
        rintro rfl
        exact lt_irrefl _ hlt
      obtain ⟨habs₁, hnone₁⟩ := (href.callTracks op).absent id habs hne
      have hlt₁ := lt_of_lt_of_le hlt (nextOrderId_mono hadd)
      obtain ⟨habs', hnone'⟩ := ih _ href₁ (hrest _ _ hcall) hrun' id habs₁ hlt₁
      refine ⟨habs', ?_⟩
      rw [BookHistory.fills_cons, Book.filledOn_append, hnone₁, hnone']
      rfl

/-- A cancel names no resting order of somebody else; and the marker only when no
slot of the order map carries it. -/
def SparesOthers (lob : PersistentLOB) : BookOp → Prop
  | .cancel id => (∀ o ∈ lob.view.orders, o.orderId = id → o.participant = contestant) ∧
      ¬ (id = emptyKey ∧ lob.HasEmptySlot)
  | _ => True

/-- Isolation: an order of somebody else still rests with what the fills
against it have left of it, or it is gone and the fills have taken all of it. -/
def Isolated (lob : PersistentLOB) (h : BookHistory) (lob' : PersistentLOB) : Prop :=
  ∀ x ∈ lob.view.placed, x.2.2.participant ≠ contestant →
    lob'.view.Kept (Book.filledOn (BookHistory.fills h) x.2.2.orderId) x ∨
      lob'.view.Spent (Book.filledOn (BookHistory.fills h) x.2.2.orderId) x

theorem tracked_of_spares (href : Refines lob B) {op : BookOp} (hspares : SparesOthers lob op)
    {x : Placement} (hx : x ∈ B.placed) (hother : x.2.2.participant ≠ contestant) :
    (B.applyBounded op).2.Kept
        (Book.filledOn (B.applyBounded op).1.matched x.2.2.orderId) x ∨
      (B.applyBounded op).2.Spent
        (Book.filledOn (B.applyBounded op).1.matched x.2.2.orderId) x := by
  refine (href.callTracks op).tracked x hx ?_
  rintro rfl
  refine hother (hspares.1 x.2.2 ?_ rfl)
  rw [href.view_eq, ← Book.placed_orders]
  exact List.mem_map_of_mem hx

theorem Refines.toNat_lt_next (href : Refines lob B) {x : Placement} (hx : x ∈ B.placed) :
    x.2.2.orderId.toNat < B.nextOrderId.toNat := by
  obtain ⟨L, hrep, rfl⟩ := href
  have hmem : x.2.2 ∈ (L.view lob).orders := by
    rw [← Book.placed_orders]
    exact List.mem_map_of_mem hx
  rw [Layout.view_orders] at hmem
  obtain ⟨i, hi, heq⟩ := List.mem_map.mp hmem
  rw [← heq]
  exact (hrep.issued i hi).2

theorem isolated_of_spares :
    ∀ {lob lob' : PersistentLOB} {B : Book} {a : α} {h : BookHistory}, Refines lob B →
    Prog.AdmittedIn PersistentLOB.apply IdsLast p lob →
    Prog.AdmittedIn PersistentLOB.apply SparesOthers p lob →
    p.run PersistentLOB.apply lob = .ok (a, h, lob') → Isolated lob h lob' := by
  induction p with
  | ret a =>
      intro lob lob' B a' h _ _ _ hrun x hx _
      cases hrun
      exact Or.inl (Book.kept_nil hx)
  | read k ih => exact fun {lob _ _ _ _} href hadm hspares hrun => ih lob href hadm hspares hrun
  | call op k ih =>
      rintro lob lob' B a h href ⟨hids, hadm⟩ ⟨hspares, hrest⟩ hrun x hx hother
      obtain ⟨⟨r, lob₁⟩, hcall, hrun⟩ := bind_eq_ok.mp hrun
      obtain ⟨⟨a', h', lob₂⟩, hrun', hrun⟩ := bind_eq_ok.mp hrun
      cases hrun
      rw [href.view_eq] at hx
      have hadd := href.idsLast hids
      obtain ⟨rfl, href₁⟩ := href.apply_of_ok hadd hcall
      have hisolated := ih _ href₁ (hadm _ _ hcall) (hrest _ _ hcall) hrun'
      rw [BookHistory.fills_cons, Book.filledOn_append]
      rcases tracked_of_spares href hspares hx hother with hkept | ⟨hgone, hfs, hall⟩
      · refine Book.kept_or_spent_trans hkept fun y hy hid => ?_
        -- what is left of `x` is the only order under its id
        have hsame : y.2.2.participant ≠ contestant := by
          rw [List.inj_on_of_nodup_map href₁.placed_nodup hy hkept.1 hid]
          exact hother
        rw [← href₁.view_eq] at hy
        exact hid ▸ hisolated y hy hsame
      · obtain ⟨hgone', hnone⟩ := absent_run href₁ (hadm _ _ hcall) hrun' x.2.2.orderId hgone
          (lt_of_lt_of_le (href.toNat_lt_next hx) (nextOrderId_mono hadd))
        rw [hnone, List.append_nil]
        exact Or.inr ⟨hgone', hfs, hall⟩

theorem Book.of_append_fills {B B' : Book} {fs fs' : List MatchedFill} {x : Placement}
    (hkept : B.Kept fs x) (h : B'.Kept (fs ++ fs') x ∨ B'.Spent (fs ++ fs') x) :
    B'.Kept fs' (x.1, x.2.1, { x.2.2 with volume := x.2.2.volume - Book.filledVolume fs }) ∨
      B'.Spent fs' (x.1, x.2.1, { x.2.2 with volume := x.2.2.volume - Book.filledVolume fs }) := by
  have hsum : x.2.2.volume - Book.filledVolume fs - Book.filledVolume fs' =
      x.2.2.volume - Book.filledVolume (fs ++ fs') := by
    rw [Book.filledVolume_append]
    grind
  rcases h with ⟨hmem, hne⟩ | ⟨hgone, hfs, hall⟩
  · refine Or.inl ⟨?_, fun hfs' => ?_⟩
    · show (x.1, x.2.1, { x.2.2 with volume :=
        x.2.2.volume - Book.filledVolume fs - Book.filledVolume fs' }) ∈ B'.placed
      rw [hsum]
      exact hmem
    · show x.2.2.volume - Book.filledVolume fs - Book.filledVolume fs' ≠ 0
      rw [hsum]
      exact hne (by simp [hfs'])
  · refine Or.inr ⟨hgone, ?_, ?_⟩
    · -- with no later fill the earlier ones would have taken everything
      rintro rfl
      rw [List.append_nil] at hfs hall
      refine hkept.2 hfs ?_
      rw [hall]
      grind
    · show Book.filledVolume fs' = x.2.2.volume - Book.filledVolume fs
      rw [Book.filledVolume_append] at hall
      rw [← hall]
      grind

/-- A cancel that comes back has not met an empty slot under the marker. -/
theorem Refines.not_marker (href : Refines lob B) {id : UInt64} {r : Reply}
    (hcall : lob.apply (.cancel id) = .ok (r, lob')) :
    ¬ (id = emptyKey ∧ lob.HasEmptySlot) := by
  rintro ⟨rfl, s, hs, hkey⟩
  obtain ⟨L, hrep, _⟩ := href
  simp only [PersistentLOB.apply, hrep.cancel_emptyKey hs hkey, error_bind] at hcall
  cases hcall

/-- An order that rests after a call of the contestant, and is not its own, is
what is left of an order from before. -/
theorem Book.CallTracks.origin {op : BookOp} {fs : List MatchedFill}
    (htracks : Book.CallTracks B op fs B') (hop : op.By (· = contestant))
    (hnodup : (B'.placed.map fun y => y.2.2.orderId).Nodup) {y : Placement} (hy : y ∈ B'.placed)
    (hother : y.2.2.participant ≠ contestant) :
    ∃ x ∈ B.placed, B'.Kept (Book.filledOn fs x.2.2.orderId) x ∧
      y = (x.1, x.2.1, { x.2.2 with
        volume := x.2.2.volume - Book.filledVolume (Book.filledOn fs x.2.2.orderId) }) := by
  have hexists : ∃ x ∈ B.placed, x.2.2.orderId = y.2.2.orderId := by
    by_contra hnone
    have habs : B.Absent y.2.2.orderId := fun x hx heq => hnone ⟨x, hx, heq⟩
    by_cases hnext : y.2.2.orderId = B.nextOrderId
    · obtain ⟨b, p, v, rfl⟩ := htracks.fresh y hy hnext
      exact hother hop
    · exact (htracks.absent _ habs hnext).1 y hy rfl
  obtain ⟨x, hx, hid⟩ := hexists
  have hcancel : op ≠ .cancel x.2.2.orderId :=
    fun h => (htracks.cancelled _ h).1 y hy hid.symm
  rcases htracks.tracked x hx hcancel with hkept | ⟨hgone, _⟩
  · exact ⟨x, hx, hkept, List.inj_on_of_nodup_map hnodup hy hkept.1 hid.symm⟩
  · exact absurd hid.symm (hgone y hy)

/-- A program that leaves the others isolated has spared them, if it adds for
the contestant only. -/
theorem spares_of_isolated :
    ∀ {lob lob' : PersistentLOB} {B : Book} {a : α} {h : BookHistory}, Refines lob B →
    Prog.AdmittedIn PersistentLOB.apply IdsLast p lob → p.All (BookOp.By (· = contestant)) →
    p.run PersistentLOB.apply lob = .ok (a, h, lob') → Isolated lob h lob' →
    Prog.AdmittedIn PersistentLOB.apply SparesOthers p lob := by
  induction p with
  | ret a => exact fun _ _ _ _ _ => trivial
  | read k ih =>
      exact fun {lob _ _ _ _} href hadm hown hrun hiso => ih lob href hadm (hown lob) hrun hiso
  | call op k ih =>
      rintro lob lob' B a h href ⟨hids, hadm⟩ ⟨hop, hown⟩ hrun hiso
      obtain ⟨⟨r, lob₁⟩, hcall, hrun⟩ := bind_eq_ok.mp hrun
      obtain ⟨⟨a', h', lob₂⟩, hrun', hrun⟩ := bind_eq_ok.mp hrun
      cases hrun
      have hadd := href.idsLast hids
      obtain ⟨rfl, href₁⟩ := href.apply_of_ok hadd hcall
      have htracks := href.callTracks op
      unfold Isolated at hiso
      simp only [BookHistory.fills_cons, Book.filledOn_append] at hiso
      rw [href.view_eq] at hiso
      refine ⟨?_, fun o₁ s₁ hcall' => ?_⟩
      · cases op with
        | addLimit b p v who => trivial
        | marketOrder isBuy v taker => trivial
        | cancel id =>
            refine ⟨fun o ho hid => ?_, href.not_marker hcall⟩
            by_contra hother
            rw [href.view_eq, ← Book.placed_orders] at ho
            obtain ⟨x, hx, rfl⟩ := List.mem_map.mp ho
            -- the order is gone, and no fill has touched it
            obtain ⟨hgone, hnone⟩ := htracks.cancelled id rfl
            obtain ⟨hgone', hnone'⟩ := absent_run href₁ (hadm _ _ hcall) hrun' id hgone
              (lt_of_lt_of_le (hid ▸ href.toNat_lt_next hx) (nextOrderId_mono hadd))
            rcases hiso x hx hother with ⟨hmem, -⟩ | ⟨-, hfs, -⟩
            · exact hgone' _ hmem hid
            · rw [hid, hnone, hnone'] at hfs
              exact hfs rfl
      · rw [hcall] at hcall'
        cases hcall'
        refine ih _ href₁ (hadm _ _ hcall) (hown _) hrun' fun y hy hother => ?_
        rw [href₁.view_eq] at hy
        obtain ⟨x, hx, hkept, rfl⟩ := htracks.origin hop href₁.placed_nodup hy hother
        exact Book.of_append_fills hkept (hiso x hx hother)

end Programs

/-! ## Step 6 -/

section Counter

variable {α : Type} {p : BookProg α}

theorem idsLast_of_adds : ∀ {n : Nat} {lob : PersistentLOB} {B : Book},
    p.AtMost BookOp.isAdd n → Refines lob B → B.nextOrderId.toNat + n < 2 ^ 64 →
    Prog.AdmittedIn PersistentLOB.apply IdsLast p lob := by
  induction p with
  | ret a => exact fun _ _ _ => trivial
  | read k ih => exact fun {_ lob _} hadds href hroom => ih lob (hadds lob) href hroom
  | call op k ih =>
      rintro n lob B ⟨m, hm, hk⟩ href hroom
      have hone : BookOp.adds [op] = if op.isAdd then 1 else 0 := List.countP_singleton
      have hlast : op.isAdd = true → B.nextOrderId ≠ emptyKey := by
        intro hadd heq
        rw [if_pos hadd] at hm
        rw [heq, show emptyKey.toNat = 2 ^ 64 - 1 from rfl] at hroom
        omega
      refine ⟨fun hadd => href.next_eq ▸ hlast hadd, fun r lob₁ hcall => ?_⟩
      obtain ⟨_, href₁⟩ := href.apply_of_ok hlast hcall
      exact ih r (hk r) href₁ (B.applyBounded_counter op (by omega))

theorem counter_of_adds : ∀ {n m : Nat} {lob lob' : PersistentLOB} {B : Book} {a : α}
    {h : BookHistory}, p.AtMost BookOp.isAdd n → Refines lob B →
    B.nextOrderId.toNat + n + m < 2 ^ 64 → p.run PersistentLOB.apply lob = .ok (a, h, lob') →
    ∃ B', Refines lob' B' ∧ B'.nextOrderId.toNat + m < 2 ^ 64 := by
  induction p with
  | ret a =>
      intro n m lob lob' B a' h _ href hroom hrun
      cases hrun
      exact ⟨B, href, by omega⟩
  | read k ih =>
      exact fun {_ _ lob _ _ _ _} hadds href hroom hrun => ih lob (hadds lob) href hroom hrun
  | call op k ih =>
      rintro n m lob lob' B a h hadds href hroom hrun
      obtain ⟨hids, -⟩ := idsLast_of_adds hadds href (by omega)
      obtain ⟨l, hl, hk⟩ := hadds
      obtain ⟨⟨r, lob₁⟩, hcall, hrun⟩ := bind_eq_ok.mp hrun
      obtain ⟨⟨a', h', lob₂⟩, hrest, hrun⟩ := bind_eq_ok.mp hrun
      cases hrun
      have hone : BookOp.adds [op] = if op.isAdd then 1 else 0 := List.countP_singleton
      obtain ⟨_, href₁⟩ := href.apply_of_ok (href.idsLast hids) hcall
      refine ih r (hk r) href₁ ?_ hrest
      rw [Nat.add_assoc]
      exact B.applyBounded_counter op (by omega)

end Counter

theorem processOrders_adds (ws : List OrderWord) :
    (processOrders ws).AtMost BookOp.isAdd ws.length := by
  induction ws with
  | nil => trivial
  | cons w ws ih =>
      have hrest : ∀ f : List MatchedFill, Prog.AtMost BookOp.isAdd
          (processOrders ws >>= fun fs => pure (f ++ fs)) ws.length :=
        fun f => Prog.atMost_bind (n := 0) ih fun _ => trivial
      show Prog.AtMost BookOp.isAdd (w.dispatch >>= _) (ws.length + 1)
      rw [Nat.add_comm]
      refine Prog.atMost_bind ?_ hrest
      rcases w.dispatch_cases with h | ⟨isBid, h⟩ | ⟨isBuy, h⟩ | h
      · rw [h]
        trivial
      · rw [h]
        exact ⟨0, le_refl _, fun _ => trivial⟩
      · rw [h]
        exact ⟨0, Nat.zero_le _, fun _ => trivial⟩
      · rw [h]
        exact ⟨0, Nat.zero_le _, fun _ => trivial⟩

theorem Refines.defined_of_spares {lob : PersistentLOB} (href : ∃ B, Refines lob B) {op : BookOp}
    (hadm : IdsLast lob op ∧ SparesOthers lob op) :
    ∃ r lob', lob.apply op = .ok (r, lob') ∧ ∃ B, Refines lob' B := by
  obtain ⟨B, href⟩ := href
  obtain ⟨hids, hspares⟩ := hadm
  have hsurvives : lob.Survives op := by
    cases op with
    | addLimit b p v who => exact hids rfl
    | cancel id => exact hspares.2
    | marketOrder isBuy v taker => trivial
  obtain ⟨lob', hcall, href'⟩ := href.survives hsurvives
  exact ⟨_, lob', hcall, _, href'⟩

/-- The contestant's words leave the others isolated exactly when no CANCEL that
is executed names, at its turn, a resting order of somebody else (or the marker,
while the order map has a slot that was never used). -/
theorem contestant_isolated_iff {ops : List BookOp} {rs : List Reply} {lob : PersistentLOB}
    (hrun : PersistentLOB.run ops = .ok (rs, lob)) (ws : List OrderWord)
    (hids : BookOp.adds ops + ws.length < 2 ^ 64 - 1) :
    (∃ fs h lob', (processOrders ws).run PersistentLOB.apply lob = .ok (fs, h, lob') ∧
        Isolated lob h lob') ↔
      Prog.AdmittedIn PersistentLOB.apply SparesOthers (processOrders ws) lob := by
  obtain ⟨_, href⟩ := run_bounded (by omega) hrun
  have hlast : Prog.AdmittedIn PersistentLOB.apply IdsLast (processOrders ws) lob := by
    refine idsLast_of_adds (processOrders_adds ws) href (Book.traceFrom_counter ?_)
    rw [show Book.empty.nextOrderId.toNat = 1 from rfl]
    omega
  constructor
  · rintro ⟨fs, h, lob', hwords, hiso⟩
    exact spares_of_isolated href hlast (processOrders_by ws) hwords hiso
  · intro hspares
    obtain ⟨fs, h, lob', hwords, _⟩ := Prog.run_defined (fun lob => ∃ B, Refines lob B)
      (fun _ _ href hadm => Refines.defined_of_spares href hadm) ⟨_, href⟩ (hlast.and hspares)
    exact ⟨fs, h, lob', hwords, isolated_of_spares href hlast hspares hwords⟩

/-- The quotes of the market maker, one of them hit by the contestant. -/
theorem contestant_isolated_market_sell :
    ∃ rs lob fs h lob', PersistentLOB.run [.addLimit true 100000000 100 botMM,
        .addLimit false 100100000 100 botMM] = .ok (rs, lob) ∧
      (processOrders [⟨4, 0, 30, 0⟩]).run PersistentLOB.apply lob = .ok (fs, h, lob') ∧
      Isolated lob h lob' := by
  obtain ⟨lob, hrun, _⟩ := run_defined [.addLimit true 100000000 100 botMM,
    .addLimit false 100100000 100 botMM] (by decide) (by decide)
  obtain ⟨fs, h, lob', hwords, hiso⟩ :=
    (contestant_isolated_iff hrun [⟨4, 0, 30, 0⟩] (by decide)).mpr
      ⟨trivial, fun r _ _ => by cases r <;> trivial⟩
  exact ⟨_, lob, fs, h, lob', hrun, hwords, hiso⟩

/-- The contestant's CANCEL takes down the market maker's bid: it writes the
id 1, and the order is gone without a fill. -/
theorem contestant_cancels_others :
    ∃ rs lob fs h lob', PersistentLOB.run [.addLimit true 100000000 100 botMM,
        .addLimit false 100100000 100 botMM] = .ok (rs, lob) ∧
      (processOrders [⟨5, 0, 0, 1⟩]).run PersistentLOB.apply lob = .ok (fs, h, lob') ∧
      (true, 100000000, ⟨1, 100, botMM⟩) ∈ lob.view.placed ∧ BookHistory.fills h = [] ∧
      (∀ o ∈ lob'.view.orders, o.orderId ≠ 1) ∧ ¬ Isolated lob h lob' := by
  obtain ⟨lob, hrun, href⟩ := run_defined [.addLimit true 100000000 100 botMM,
    .addLimit false 100100000 100 botMM] (by decide) (by decide)
  have hproper : BookOp.Proper (Book.runBounded [.addLimit true 100000000 100 botMM,
    .addLimit false 100100000 100 botMM]).2 (.cancel 1) := by
    show (1 : UInt64) ≠ emptyKey
    decide
  obtain ⟨lob', hcall, href'⟩ := href.apply hproper
  have hplaced : (true, 100000000, ⟨1, 100, botMM⟩) ∈ lob.view.placed := by
    rw [href.view_eq]
    decide
  have hgone : ∀ x ∈ lob'.view.placed, x.2.2.orderId ≠ 1 := by
    rw [href'.view_eq]
    decide
  have hwords : (processOrders [⟨5, 0, 0, 1⟩]).run PersistentLOB.apply lob =
      .ok ([], [(.cancel 1, .cancelled true)], lob') := by
    show (Prog.run PersistentLOB.apply (.call (.cancel 1) fun r => _) lob) = _
    simp only [Prog.run, hcall, ok_bind]
    rfl
  refine ⟨_, lob, _, _, lob', hrun, hwords, hplaced, rfl, ?_, fun hiso => ?_⟩
  · intro o ho
    rw [← Book.placed_orders] at ho
    obtain ⟨x, hx, rfl⟩ := List.mem_map.mp ho
    exact hgone x hx
  · rcases hiso _ hplaced (by decide) with ⟨hmem, -⟩ | ⟨-, hfs, -⟩
    · exact hgone _ hmem rfl
    · exact hfs rfl

end VidhiArena.GameMaster
