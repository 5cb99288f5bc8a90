import VidhiArena.Foundation.Faulting

/-!
# Visits

Computations that carry a state along and may give up, such as a walk over a tree that
numbers what it meets. `Checks fine err x is` says of such a computation that it examines
`is` and nothing else: it gives up with the error of one that is not fine, if there is one.
The rules follow the computation.
-/

namespace VidhiArena.Foundation

section Visits

variable {σ ε α β ι : Type}

theorem visit_bind (x : StateT σ (Except ε) α) (f : α → StateT σ (Except ε) β) (s : σ) :
    (x >>= f) s = x s >>= fun r => f r.1 r.2 := rfl

theorem visit_bind_ok {x : StateT σ (Except ε) α} {f : α → StateT σ (Except ε) β} {s s'' : σ}
    {b : β} : (x >>= f) s = .ok (b, s'') ↔ ∃ a s', x s = .ok (a, s') ∧ f a s' = .ok (b, s'') := by
  constructor
  · intro h
    obtain ⟨⟨a, s'⟩, hx, hf⟩ := bind_eq_ok.mp h
    exact ⟨a, s', hx, hf⟩
  · rintro ⟨a, s', hx, hf⟩
    exact bind_eq_ok.mpr ⟨(a, s'), hx, hf⟩

theorem visit_lift_ok {x : Except ε α} {s s' : σ} {a : α} :
    (StateT.lift x : StateT σ (Except ε) α) s = .ok (a, s') ↔ x = .ok a ∧ s = s' := by
  cases x with
  | error e => exact iff_of_false nofun fun h => nomatch h.1
  | ok b =>
      constructor
      · intro h
        cases h
        exact ⟨rfl, rfl⟩
      · rintro ⟨h, rfl⟩
        cases h
        rfl

/-- What the computation gives up for, if anything. -/
def Checks (fine : ι → Prop) (err : ι → ε) (x : StateT σ (Except ε) α) (is : List ι) : Prop :=
  ∀ s, (∃ r, x s = .ok r) ∧ (∀ i ∈ is, fine i) ∨ ∃ i ∈ is, ¬ fine i ∧ x s = .error (err i)

variable {fine : ι → Prop} {err : ι → ε} {is js : List ι}

theorem checks_pure (a : α) : Checks fine err (pure a : StateT σ (Except ε) α) [] :=
  fun s => .inl ⟨⟨(a, s), rfl⟩, fun _ hi => absurd hi List.not_mem_nil⟩

theorem Checks.bind {x : StateT σ (Except ε) α} {f : α → StateT σ (Except ε) β}
    (hx : Checks fine err x is) (hf : ∀ a s s', x s = .ok (a, s') → Checks fine err (f a) js) :
    Checks fine err (x >>= f) (is ++ js) := by
  intro s
  rcases hx s with ⟨⟨⟨a, s'⟩, hok⟩, his⟩ | ⟨i, hi, hfine, herr⟩
  · rw [visit_bind, hok, ok_bind]
    rcases hf a s s' hok s' with ⟨hdone, hjs⟩ | ⟨j, hj, hfine, herr⟩
    · refine .inl ⟨hdone, fun i hi => ?_⟩
      rcases List.mem_append.mp hi with hi | hi
      · exact his i hi
      · exact hjs i hi
    · exact .inr ⟨j, List.mem_append_right is hj, hfine, herr⟩
  · rw [visit_bind, herr]
    exact .inr ⟨i, List.mem_append_left js hi, hfine, rfl⟩

theorem Checks.map {x : StateT σ (Except ε) α} (hx : Checks fine err x is) {f : α → β} :
    Checks fine err (x >>= fun a => pure (f a)) is := by
  have h := hx.bind fun a _ _ _ => checks_pure (f a)
  rwa [List.append_nil] at h

theorem Checks.defined_iff {x : StateT σ (Except ε) α} (h : Checks fine err x is) (s : σ) :
    (∃ r, x s = .ok r) ↔ ∀ i ∈ is, fine i := by
  rcases h s with ⟨hok, his⟩ | ⟨i, hi, hfine, herr⟩
  · exact iff_of_true hok his
  · refine iff_of_false ?_ fun his => hfine (his i hi)
    rintro ⟨r, hok⟩
    rw [herr] at hok
    cases hok

end Visits

end VidhiArena.Foundation
