import Mathlib.Data.List.Induction
import VidhiArena.Browser.JsEngine

/-!
# Records of placed orders

A participant that writes down the id of every order it places, with enough to find the
order again, has a *ledger*. The ledger is sound if it has every resting order of the
participant, and if what it says of an id is true of the order that rests under it. Then
the participant has no more orders at rest than records.

Calls keep a ledger sound: orders that go do no harm, and an order that is added has an id
that nobody has had. The latter needs ids that differ, and the counter of the code stays at
`2^53` once it is there.
-/

namespace VidhiArena.Browser.Js

open Foundation OrderedMap

variable {N : Numbers} {b b' : Book N}

/-- How a participant records its orders. -/
structure Ledger (N : Numbers) where
  who : Name
  Rec : Type
  id : Rec → Nat
  /-- what the record says about its order -/
  At : Rec → Resting N → Prop

/-- Up to here the counter gives every order an id of its own. -/
def MAX_EXACT : Nat := 2 ^ 53

namespace Ledger

variable {L : Ledger N} {recs recs' : List L.Rec}

/-- While ids are exact. -/
structure Tracked (L : Ledger N) (recs : List L.Rec) (b : Book N) : Prop where
  ids : (b.resting.map Resting.id).Nodup
  issued : ∀ r ∈ b.resting, r.id ≤ b.added
  /-- every resting order of the participant is on record -/
  held : ∀ r ∈ b.resting, r.participantId = L.who → ∃ x ∈ recs, L.id x = r.id
  /-- and what the records say is true -/
  placed : ∀ x ∈ recs, ∀ r ∈ b.resting, r.id = L.id x → L.At x r
  recorded : ∀ x ∈ recs, L.id x ≤ b.added

structure Sound (L : Ledger N) (recs : List L.Rec) (b : Book N) : Prop where
  keyed : b.Keyed
  next : b.nextOrderId = min (b.added + 1) MAX_EXACT
  tracked : b.added ≤ MAX_EXACT → L.Tracked recs b

/-! ### The cap -/

theorem length_le_of_injOn {α β : Type} [DecidableEq β] {l : List α} {l' : List β} {f : α → β}
    (hnodup : (l.map f).Nodup) (hsub : ∀ x ∈ l, f x ∈ l') : l.length ≤ l'.length := by
  have hperm : (l.map f).Subperm l' := List.subperm_of_subset hnodup fun y hy => by
    obtain ⟨x, hx, rfl⟩ := List.mem_map.mp hy
    exact hsub x hx
  simpa using hperm.length_le

theorem Tracked.cap (h : L.Tracked recs b) : (b.restingOf L.who).length ≤ recs.length := by
  have hnodup : ((b.restingOf L.who).map Resting.id).Nodup :=
    h.ids.sublist (List.filter_sublist.map _)
  have hlength : (recs.map L.id).length = recs.length := List.length_map ..
  rw [← hlength]
  refine length_le_of_injOn hnodup fun r hr => ?_
  obtain ⟨hmem, hwho⟩ := List.mem_filter.mp hr
  obtain ⟨x, hx, hid⟩ := h.held r hmem (of_decide_eq_true hwho)
  exact List.mem_map.mpr ⟨x, hx, hid⟩

/-! ### Calls -/

theorem sound_new (L : Ledger N) : L.Sound [] (Book.new : Book N) where
  keyed := fun side => by cases side <;> exact List.nodup_nil
  next := rfl
  tracked := fun _ =>
    { ids := List.nodup_nil
      issued := fun _ h => absurd h List.not_mem_nil
      held := fun _ h => absurd h List.not_mem_nil
      placed := fun _ h => absurd h List.not_mem_nil
      recorded := fun _ h => absurd h List.not_mem_nil }

theorem Sound.thin (h : L.Sound recs b) (ht : b.Thinned b') : L.Sound recs b' where
  keyed := ht.keyed
  next := by rw [ht.nextOrderId, ht.added, h.next]
  tracked := fun hexact => by
    obtain ⟨ids, issued, held, placed, recorded⟩ := h.tracked (ht.added ▸ hexact)
    have hmem : ∀ {r}, r ∈ b'.resting → r ∈ b.resting := fun hr => ht.resting.subset hr
    exact
      { ids := ids.sublist (ht.resting.map _)
        issued := fun r hr => ht.added ▸ issued r (hmem hr)
        held := fun r hr => held r (hmem hr)
        placed := fun x hx r hr => placed x hx r (hmem hr)
        recorded := fun x hx => ht.added ▸ recorded x hx }

theorem Sound.drop (h : L.Sound recs b) (hsub : ∀ x ∈ recs', x ∈ recs)
    (hkeep : b.added ≤ MAX_EXACT → ∀ x ∈ recs, x ∉ recs' →
      ∀ r ∈ b.resting, r.participantId = L.who → r.id ≠ L.id x) : L.Sound recs' b where
  keyed := h.keyed
  next := h.next
  tracked := fun hexact => by
    obtain ⟨ids, issued, held, placed, recorded⟩ := h.tracked hexact
    refine ⟨ids, issued, fun r hr hwho => ?_, fun x hx => placed x (hsub x hx),
      fun x hx => recorded x (hsub x hx)⟩
    obtain ⟨x, hx, hid⟩ := held r hr hwho
    by_cases hx' : x ∈ recs'
    · exact ⟨x, hx', hid⟩
    · exact absurd hid.symm (hkeep hexact x hx hx' r hr hwho)

theorem added_addOrder (b : Book N) (side : Side) (price volume : N.Num) (who : Name) :
    (b.addOrder side price volume who).2.added = b.added + 1 := by
  cases side <;> rfl

theorem next_addOrder (h : L.Sound recs b) (side : Side) (price volume : N.Num) (who : Name) :
    (b.addOrder side price volume who).2.nextOrderId =
      min ((b.addOrder side price volume who).2.added + 1) MAX_EXACT := by
  have hincr : (b.addOrder side price volume who).2.nextOrderId =
      PersistentLOB.incr b.nextOrderId := by cases side <;> rfl
  rw [hincr, added_addOrder, h.next, PersistentLOB.incr]
  show _ = min (b.added + 1 + 1) (2 ^ 53)
  unfold MAX_EXACT
  split <;> omega

/-- An added order has a new id, and so is mistaken for no other. -/
theorem Sound.add (h : L.Sound recs b) {side : Side} {price volume : N.Num} {who : Name}
    (hsub : ∀ x ∈ recs, x ∈ recs')
    (hnew : ∀ x ∈ recs', x ∈ recs ∨ L.id x = b.nextOrderId ∧
      L.At x ⟨side, N.key price, b.nextOrderId, who⟩)
    (hheld : who = L.who → ∃ x ∈ recs', L.id x = b.nextOrderId) :
    L.Sound recs' (b.addOrder side price volume who).2 where
  keyed := Book.addOrder_keyed h.keyed side price volume who
  next := next_addOrder h ..
  tracked := fun hexact => by
    rw [added_addOrder] at hexact
    obtain ⟨ids, issued, held, placed, recorded⟩ := h.tracked (by omega)
    have hid : b.nextOrderId = b.added + 1 := by rw [h.next, min_eq_left hexact]
    have hperm := Book.addOrder_resting h.keyed side price volume who
    have hmem := fun {r} => hperm.mem_iff (a := r)
    have hold : ∀ r ∈ b.resting, r.id ≠ b.nextOrderId := fun r hr => by
      have := issued r hr
      omega
    refine
      { ids := ?_
        issued := ?_
        held := ?_
        placed := ?_
        recorded := ?_ }
    · refine (hperm.map Resting.id).nodup_iff.mpr (List.nodup_cons.mpr ⟨?_, ids⟩)
      rintro hin
      obtain ⟨r, hr, hrid⟩ := List.mem_map.mp hin
      exact hold r hr hrid
    · intro r hr
      rw [added_addOrder]
      rcases List.mem_cons.mp (hmem.mp hr) with rfl | hr
      · exact hid.le
      · exact (issued r hr).trans (Nat.le_succ _)
    · intro r hr hwho
      rcases List.mem_cons.mp (hmem.mp hr) with rfl | hr
      · exact hheld hwho
      · obtain ⟨x, hx, hxid⟩ := held r hr hwho
        exact ⟨x, hsub x hx, hxid⟩
    · intro x hx r hr hrid
      rcases List.mem_cons.mp (hmem.mp hr) with rfl | hr
      · rcases hnew x hx with hx | ⟨-, hat⟩
        · have := recorded x hx
          simp only [hid] at hrid
          omega
        · exact hat
      · rcases hnew x hx with hx | ⟨hxid, -⟩
        · exact placed x hx r hr hrid
        · exact absurd (hrid.trans hxid) (hold r hr)
    · intro x hx
      rw [added_addOrder]
      rcases hnew x hx with hx | ⟨hxid, -⟩
      · exact (recorded x hx).trans (Nat.le_succ _)
      · rw [hxid, hid]

theorem Sound.apply (h : L.Sound recs b) (base : N.Num) {c : Call N} (hc : c.By (· ≠ L.who)) :
    L.Sound recs (b.apply base c) := by
  cases c with
  | addOrder side price volume who =>
      exact h.add (fun _ hx => hx) (fun _ hx => .inl hx) fun hwho => absurd hwho hc
  | cancelOrder side price orderId => exact h.thin (Book.cancelOrder_thinned h.keyed ..)
  | marketOrder side volume => exact h.thin (Book.takeLevels_thinned _ _ _ _ h.keyed)

theorem Sound.botCalls (hwho : L.who = CONTESTANT ∨ L.who = NoiseTrader.id) (base : N.Num)
    (calls : List (BotCall N)) :
    ∀ {b : Book N}, L.Sound recs b → L.Sound recs (Js.botCalls base b calls) := by
  induction calls with
  | nil => exact fun h => h
  | cons c calls ih =>
      intro b h
      refine ih (h.apply base ?_)
      obtain ⟨c, hc⟩ := c
      cases c with
      | addOrder side price volume who =>
          rcases hwho with hwho | hwho
          · exact fun heq => hc.1 (heq.trans hwho)
          · exact fun heq => hc.2 (heq.trans hwho)
      | cancelOrder side price orderId => trivial
      | marketOrder side volume => trivial

end Ledger

end VidhiArena.Browser.Js
