import Mathlib.Data.List.Forall2

/-!
# Computations that may fault, and runs of faulting machines

`Except ε` read as a partial machine: `.ok` is a defined outcome, `.error` the
point at which the behaviour of the program is no longer defined. `runFrom`
feeds a list of inputs to such a machine and collects its outputs.

`runFrom_sim` is the simulation rule: if every step of the machine, taken
inside the invariant `R` on an input that the abstract state admits, is the
abstract step, then every admitted run is the abstract run, and it does not
fault.
-/

namespace VidhiArena.Foundation

variable {ε α β : Type}

@[simp] theorem ok_bind (a : α) (f : α → Except ε β) : ((.ok a : Except ε α) >>= f) = f a := rfl

@[simp] theorem error_bind (e : ε) (f : α → Except ε β) :
    ((.error e : Except ε α) >>= f) = .error e := rfl

@[simp] theorem pure_ok (a : α) : (pure a : Except ε α) = .ok a := rfl

theorem bind_eq_ok {x : Except ε α} {f : α → Except ε β} {r : β} :
    x >>= f = .ok r ↔ ∃ a, x = .ok a ∧ f a = .ok r := by
  cases x with
  | error e => simp
  | ok a => simp

theorem map_eq_ok {x : Except ε α} {f : α → β} {b : β} (h : x.map f = .ok b) :
    ∃ a, x = .ok a ∧ f a = b := by
  cases x with
  | error e => cases h
  | ok a => exact ⟨a, rfl, Except.ok.inj h⟩

section Runs

variable {σ τ ι ω : Type}

/-- Feed the inputs one by one; stop at the first fault. -/
def runFrom (step : σ → ι → Except ε (ω × σ)) : σ → List ι → Except ε (List ω × σ)
  | s, [] => .ok ([], s)
  | s, i :: is => do
      let (o, s) ← step s i
      let (os, s) ← runFrom step s is
      return (o :: os, s)

/-- The run of a machine that never faults. -/
def traceFrom (step : τ → ι → ω × τ) : τ → List ι → List ω × τ
  | t, [] => ([], t)
  | t, i :: is =>
      let (o, t) := step t i
      let (os, t) := traceFrom step t is
      (o :: os, t)

/-- Every input of the list is admitted in the abstract state that it meets. -/
def Admitted (step : τ → ι → ω × τ) (adm : τ → ι → Prop) : τ → List ι → Prop
  | _, [] => True
  | t, i :: is => adm t i ∧ Admitted step adm (step t i).2 is

theorem Admitted.of_append {step : τ → ι → ω × τ} {adm : τ → ι → Prop} :
    ∀ {t : τ} {is js : List ι}, Admitted step adm t (is ++ js) → Admitted step adm t is
  | _, [], _, _ => trivial
  | _, _ :: _, _, ⟨hadm, hrest⟩ => ⟨hadm, hrest.of_append⟩

theorem Admitted.append {step : τ → ι → ω × τ} {adm : τ → ι → Prop} :
    ∀ {t : τ} {is js : List ι}, Admitted step adm t is →
      Admitted step adm (traceFrom step t is).2 js → Admitted step adm t (is ++ js)
  | _, [], _, _, h => h
  | _, _ :: _, _, ⟨hadm, hrest⟩, h => ⟨hadm, hrest.append h⟩

theorem runFrom_append (step : σ → ι → Except ε (ω × σ)) : ∀ (is js : List ι) (s : σ),
    runFrom step s (is ++ js) = (do
      let (os, s) ← runFrom step s is
      let (os', s) ← runFrom step s js
      return (os ++ os', s))
  | [], js, s => by
      cases h : runFrom step s js <;> simp [runFrom, h]
  | i :: is, js, s => by
      simp only [List.cons_append, runFrom]
      cases hs : step s i with
      | error e => simp
      | ok r =>
          obtain ⟨o, s'⟩ := r
          simp only [ok_bind, runFrom_append step is js s']
          cases h₁ : runFrom step s' is with
          | error e => simp
          | ok r₁ =>
              obtain ⟨os, s₁⟩ := r₁
              simp only [ok_bind, pure_ok]
              cases h₂ : runFrom step s₁ js <;> simp

theorem traceFrom_append (step : τ → ι → ω × τ) : ∀ (is js : List ι) (t : τ),
    traceFrom step t (is ++ js) =
      ((traceFrom step t is).1 ++ (traceFrom step (traceFrom step t is).2 js).1,
        (traceFrom step (traceFrom step t is).2 js).2)
  | [], _, _ => rfl
  | i :: is, js, t => by
      simp only [List.cons_append, traceFrom, traceFrom_append step is js]

theorem traceFrom_length (step : τ → ι → ω × τ) : ∀ (is : List ι) (t : τ),
    (traceFrom step t is).1.length = is.length
  | [], _ => rfl
  | _ :: is, _ => congrArg Nat.succ (traceFrom_length step is _)

/-- Two machines that never fault, step by step; `g` and `f` bring the outputs together. -/
theorem traceFrom_sim {σ ω' ρ : Type} {step : τ → ι → ω × τ} {step' : σ → ι → ω' × σ}
    (R : τ → σ → Prop) (g : ω → ρ) (f : ω' → ρ)
    (hstep : ∀ t s i, R t s → g (step t i).1 = f (step' s i).1 ∧ R (step t i).2 (step' s i).2) :
    ∀ (is : List ι) {t : τ} {s : σ}, R t s →
      (traceFrom step t is).1.map g = (traceFrom step' s is).1.map f ∧
        R (traceFrom step t is).2 (traceFrom step' s is).2
  | [], _, _, h => ⟨rfl, h⟩
  | i :: is, t, s, h => by
      obtain ⟨hout, hnext⟩ := hstep t s i h
      obtain ⟨houts, hend⟩ := traceFrom_sim R g f hstep is hnext
      exact ⟨congrArg₂ List.cons hout houts, hend⟩

theorem runFrom_sim {step : σ → ι → Except ε (ω × σ)} {astep : τ → ι → ω × τ}
    {R : σ → τ → Prop} (adm : τ → ι → Prop)
    (hstep : ∀ s t i, R s t → adm t i →
      ∃ s', step s i = .ok ((astep t i).1, s') ∧ R s' (astep t i).2) :
    ∀ (is : List ι) (s : σ) (t : τ), R s t → Admitted astep adm t is →
      ∃ s', runFrom step s is = .ok ((traceFrom astep t is).1, s') ∧
        R s' (traceFrom astep t is).2
  | [], s, _, hR, _ => ⟨s, rfl, hR⟩
  | i :: is, s, t, hR, ⟨hadm, hrest⟩ => by
      obtain ⟨s₁, hs₁, hR₁⟩ := hstep s t i hR hadm
      obtain ⟨s', hs', hR'⟩ := runFrom_sim adm hstep is s₁ (astep t i).2 hR₁ hrest
      refine ⟨s', ?_, hR'⟩
      simp only [runFrom, hs₁, ok_bind, hs', pure_ok, traceFrom]

/-- The invariant rule: what every admissible step keeps, every run keeps. -/
theorem runFrom_inv {step : σ → ι → Except ε (ω × σ)} {Inv : σ → Prop} {adm : σ → ι → Prop}
    (hstep : ∀ s i o s', Inv s → adm s i → step s i = .ok (o, s') → Inv s') :
    ∀ (is : List ι) (s : σ) {os : List ω} {s' : σ}, Inv s →
      (∀ pre i post s₁ os₁, is = pre ++ i :: post →
        runFrom step s pre = .ok (os₁, s₁) → adm s₁ i) →
      runFrom step s is = .ok (os, s') → Inv s'
  | [], s, os, s', hi, _, h => by
      cases h
      exact hi
  | i :: is, s, os, s', hi, hadm, h => by
      obtain ⟨⟨o, s₁⟩, hs, h⟩ := bind_eq_ok.mp h
      obtain ⟨⟨os₁, s₂⟩, hrun, h⟩ := bind_eq_ok.mp h
      cases h
      have hi₁ : Inv s₁ := hstep s i o s₁ hi (hadm [] i is s [] rfl rfl) hs
      refine runFrom_inv hstep is s₁ hi₁ ?_ hrun
      intro pre j post s₃ os₃ heq hpre
      refine hadm (i :: pre) j post s₃ (o :: os₃) (by rw [heq]; rfl) ?_
      simp only [runFrom, hs, ok_bind, hpre, pure_ok]

/-- Every input that the machine takes is admitted in the state that it meets. -/
def AdmittedFrom (step : σ → ι → Except ε (ω × σ)) (adm : σ → ι → Prop) : σ → List ι → Prop
  | _, [] => True
  | s, i :: is => adm s i ∧
      match step s i with
      | .ok r => AdmittedFrom step adm r.2 is
      | .error _ => True

instance AdmittedFrom.decidable (step : σ → ι → Except ε (ω × σ)) (adm : σ → ι → Prop)
    [∀ s i, Decidable (adm s i)] :
    ∀ (s : σ) (is : List ι), Decidable (AdmittedFrom step adm s is)
  | _, [] => inferInstanceAs (Decidable True)
  | s, i :: is =>
      have : Decidable (match step s i with
          | .ok r => AdmittedFrom step adm r.2 is
          | .error _ => True) :=
        match step s i with
        | .ok r => AdmittedFrom.decidable step adm r.2 is
        | .error _ => inferInstanceAs (Decidable True)
      inferInstanceAs (Decidable (_ ∧ _))

theorem admittedFrom_true {step : σ → ι → Except ε (ω × σ)} : ∀ (is : List ι) {s : σ},
    AdmittedFrom step (fun _ _ => True) s is
  | [], _ => trivial
  | i :: is, s => by
      refine ⟨trivial, ?_⟩
      cases step s i with
      | error e => trivial
      | ok r => exact admittedFrom_true is

theorem AdmittedFrom.of_append {step : σ → ι → Except ε (ω × σ)} {adm : σ → ι → Prop} :
    ∀ {s : σ} {is js : List ι}, AdmittedFrom step adm s (is ++ js) → AdmittedFrom step adm s is
  | _, [], _, _ => trivial
  | s, i :: is, js, ⟨hadm, hrest⟩ => by
      refine ⟨hadm, ?_⟩
      cases hs : step s i with
      | error e => trivial
      | ok r =>
          simp only [hs] at hrest
          exact hrest.of_append

theorem AdmittedFrom.rest {step : σ → ι → Except ε (ω × σ)} {adm : σ → ι → Prop} :
    ∀ {s s₁ : σ} {is js : List ι} {os : List ω}, AdmittedFrom step adm s (is ++ js) →
      runFrom step s is = .ok (os, s₁) → AdmittedFrom step adm s₁ js
  | _, _, [], _, _, h, hrun => by
      cases hrun
      exact h
  | s, s₁, i :: is, js, os, ⟨_, hrest⟩, hrun => by
      obtain ⟨⟨o, s₂⟩, hs, hrun⟩ := bind_eq_ok.mp hrun
      obtain ⟨⟨os₂, s₃⟩, hrun', hrun⟩ := bind_eq_ok.mp hrun
      cases hrun
      simp only [hs] at hrest
      exact hrest.rest hrun'

theorem runFrom_trans {step : σ → ι → Except ε (ω × σ)} {s s₁ s' : σ} {is js : List ι}
    {os os' : List ω} (h : runFrom step s is = .ok (os, s₁))
    (h' : runFrom step s₁ js = .ok (os', s')) :
    runFrom step s (is ++ js) = .ok (os ++ os', s') := by
  simp only [runFrom_append, h, h', ok_bind, pure_ok]

theorem AdmittedFrom.append {step : σ → ι → Except ε (ω × σ)} {adm : σ → ι → Prop} :
    ∀ {s s₁ : σ} {is js : List ι} {os : List ω}, AdmittedFrom step adm s is →
      runFrom step s is = .ok (os, s₁) → AdmittedFrom step adm s₁ js →
      AdmittedFrom step adm s (is ++ js)
  | _, _, [], _, _, _, hrun, h => by
      cases hrun
      exact h
  | s, s₁, i :: is, js, os, ⟨hadm, hrest⟩, hrun, h => by
      obtain ⟨⟨o, s₂⟩, hs, hrun⟩ := bind_eq_ok.mp hrun
      obtain ⟨⟨os₂, s₃⟩, hrun', hrun⟩ := bind_eq_ok.mp hrun
      cases hrun
      refine ⟨hadm, ?_⟩
      simp only [hs] at hrest ⊢
      exact hrest.append hrun' h

/-- The progress rule: if every admitted step is defined and keeps the
invariant, so does every admitted run. -/
theorem runFrom_defined {step : σ → ι → Except ε (ω × σ)} {adm : σ → ι → Prop} (Inv : σ → Prop)
    (hstep : ∀ s i, Inv s → adm s i → ∃ o s', step s i = .ok (o, s') ∧ Inv s') :
    ∀ (is : List ι) (s : σ), Inv s → AdmittedFrom step adm s is →
      ∃ os s', runFrom step s is = .ok (os, s') ∧ Inv s'
  | [], s, hi, _ => ⟨[], s, rfl, hi⟩
  | i :: is, s, hi, ⟨hadm, hrest⟩ => by
      obtain ⟨o, s₁, hs, hi₁⟩ := hstep s i hi hadm
      simp only [hs] at hrest
      obtain ⟨os, s', hrun, hi'⟩ := runFrom_defined Inv hstep is s₁ hi₁ hrest
      refine ⟨o :: os, s', ?_, hi'⟩
      simp only [runFrom, hs, ok_bind, hrun, pure_ok]

/-- The step rule: what every admitted step guarantees of its input and output
holds all along the run. -/
theorem runFrom_steps {step : σ → ι → Except ε (ω × σ)} {adm : σ → ι → Prop} (Inv : σ → Prop)
    (Q : ι → ω → Prop)
    (hstep : ∀ s i o s', Inv s → adm s i → step s i = .ok (o, s') → Inv s' ∧ Q i o) :
    ∀ (is : List ι) (s : σ) {os : List ω} {s' : σ}, Inv s → AdmittedFrom step adm s is →
      runFrom step s is = .ok (os, s') → Inv s' ∧ List.Forall₂ Q is os
  | [], _, os, _, hi, _, hrun => by
      cases hrun
      exact ⟨hi, List.Forall₂.nil⟩
  | i :: is, s, os, s', hi, ⟨hadm, hrest⟩, hrun => by
      obtain ⟨⟨o, s₁⟩, hs, hrun⟩ := bind_eq_ok.mp hrun
      obtain ⟨⟨os₁, s₂⟩, hrun', hrun⟩ := bind_eq_ok.mp hrun
      cases hrun
      obtain ⟨hi₁, hq⟩ := hstep s i o s₁ hi hadm hs
      simp only [hs] at hrest
      obtain ⟨hi', hqs⟩ := runFrom_steps Inv Q hstep is s₁ hi₁ hrest hrun'
      exact ⟨hi', List.Forall₂.cons hq hqs⟩

/-- An invariant with an exact condition, for machines that fault: along a run that
ends it holds in every state if and only if every step is admitted. `Base` is what
the steps keep anyway. -/
theorem runFrom_inv_iff {step : σ → ι → Except ε (ω × σ)} {adm : σ → ι → Prop}
    {Base Inv : σ → Prop} (hstep : ∀ s i o s', Base s → Inv s → step s i = .ok (o, s') →
      Base s' ∧ (Inv s' ↔ adm s i)) :
    ∀ (is : List ι) {s s' : σ} {os : List ω}, Base s → Inv s →
      runFrom step s is = .ok (os, s') →
      ((∀ pre os₁ s₁, pre <+: is → runFrom step s pre = .ok (os₁, s₁) → Inv s₁) ↔
        AdmittedFrom step adm s is)
  | [], s, _, _, _, hi, _ => by
      refine ⟨fun _ => trivial, fun _ pre os₁ s₁ hpre hrun => ?_⟩
      rw [List.prefix_nil.mp hpre] at hrun
      cases hrun
      exact hi
  | i :: is, s, _, _, hb, hi, hrun => by
      obtain ⟨⟨o, s₁⟩, hs, hrun⟩ := bind_eq_ok.mp hrun
      obtain ⟨⟨os₂, s₂⟩, hrest, -⟩ := bind_eq_ok.mp hrun
      obtain ⟨hb₁, hiff⟩ := hstep s i o s₁ hb hi hs
      simp only [AdmittedFrom, hs]
      constructor
      · intro h
        have hfirst : Inv s₁ := h [i] [o] s₁ ⟨is, rfl⟩ (by simp only [runFrom, hs, ok_bind, pure_ok])
        refine ⟨hiff.mp hfirst, (runFrom_inv_iff hstep is hb₁ hfirst hrest).mp ?_⟩
        intro pre os₁ s₃ hpre hpost
        refine h (i :: pre) (o :: os₁) s₃ (List.cons_prefix_cons.mpr ⟨rfl, hpre⟩) ?_
        simp only [runFrom, hs, ok_bind, hpost, pure_ok]
      · rintro ⟨hadm, hadms⟩ pre os₁ s₃ hpre hpost
        cases pre with
        | nil =>
            cases hpost
            exact hi
        | cons j pre =>
            obtain ⟨rfl, htail⟩ := List.cons_prefix_cons.mp hpre
            obtain ⟨⟨o', s₄⟩, hs', hpost⟩ := bind_eq_ok.mp hpost
            obtain ⟨⟨os₄, s₅⟩, hpost, heq⟩ := bind_eq_ok.mp hpost
            cases hs.symm.trans hs'
            cases heq
            have hfirst := hiff.mpr hadm
            exact (runFrom_inv_iff hstep is hb₁ hfirst hrest).mpr hadms pre _ _ htail hpost

/-! ## Machines without output -/

/-- Every input of the list is admitted in the state that it meets. -/
def Along (step : τ → ι → τ) (adm : τ → ι → Prop) : τ → List ι → Prop
  | _, [] => True
  | t, i :: is => adm t i ∧ Along step adm (step t i) is

instance Along.decidable (step : τ → ι → τ) (adm : τ → ι → Prop)
    [∀ t i, Decidable (adm t i)] : ∀ (t : τ) (is : List ι), Decidable (Along step adm t is)
  | _, [] => inferInstanceAs (Decidable True)
  | t, i :: is =>
      have := Along.decidable step adm (step t i) is
      inferInstanceAs (Decidable (_ ∧ _))

theorem along_append {step : τ → ι → τ} {adm : τ → ι → Prop} :
    ∀ {t : τ} {is js : List ι},
      Along step adm t (is ++ js) ↔ Along step adm t is ∧ Along step adm (is.foldl step t) js
  | _, [], _ => by simp [Along]
  | t, i :: is, js => by
      have ih : Along step adm (step t i) (is ++ js) ↔ _ := along_append
      simp only [List.cons_append, Along, List.foldl_cons, ih, and_assoc]

theorem foldl_inv {step : τ → ι → τ} {adm : τ → ι → Prop} (Inv : τ → Prop)
    (hstep : ∀ t i, Inv t → adm t i → Inv (step t i)) :
    ∀ (is : List ι) (t : τ), Inv t → Along step adm t is → Inv (is.foldl step t)
  | [], _, hi, _ => hi
  | i :: is, t, hi, ⟨hadm, hrest⟩ => foldl_inv Inv hstep is (step t i) (hstep t i hi hadm) hrest

/-- The step rule for machines with output: what every admitted step guarantees of its
input and output holds all along the run. -/
theorem traceFrom_steps {step : τ → ι → ω × τ} {adm : τ → ι → Prop} (Inv : τ → Prop)
    (Q : ι → ω → Prop)
    (hstep : ∀ t i, Inv t → adm t i → Inv (step t i).2 ∧ Q i (step t i).1) :
    ∀ (is : List ι) (t : τ), Inv t → Along (fun t i => (step t i).2) adm t is →
      Inv (traceFrom step t is).2 ∧ List.Forall₂ Q is (traceFrom step t is).1
  | [], _, hi, _ => ⟨hi, List.Forall₂.nil⟩
  | i :: is, t, hi, ⟨hadm, hrest⟩ => by
      obtain ⟨hi₁, hq⟩ := hstep t i hi hadm
      obtain ⟨hi', hqs⟩ := traceFrom_steps Inv Q hstep is (step t i).2 hi₁ hrest
      exact ⟨hi', List.Forall₂.cons hq hqs⟩

theorem traceFrom_foldl (step : τ → ι → ω × τ) : ∀ (is : List ι) (t : τ),
    (traceFrom step t is).2 = is.foldl (fun t i => (step t i).2) t
  | [], _ => rfl
  | i :: is, t => traceFrom_foldl step is (step t i).2

theorem along_of_forall {step : τ → ι → τ} {P : ι → Prop} : ∀ {is : List ι} {t : τ},
    (∀ i ∈ is, P i) → Along step (fun _ i => P i) t is
  | [], _, _ => trivial
  | _ :: _, _, h => ⟨h _ List.mem_cons_self,
      along_of_forall fun i hi => h i (List.mem_cons_of_mem _ hi)⟩

theorem along_iff {step : τ → ι → τ} {adm : τ → ι → Prop} : ∀ {is : List ι} {t : τ},
    Along step adm t is ↔ ∀ pre i, pre ++ [i] <+: is → adm (pre.foldl step t) i
  | [], t => by
      refine iff_of_true trivial fun pre i hpre => ?_
      exact absurd (List.prefix_nil.mp hpre) (by simp)
  | j :: is, t => by
      rw [Along, along_iff]
      constructor
      · rintro ⟨hfirst, hrest⟩ pre i hpre
        cases pre with
        | nil =>
            obtain ⟨rfl, -⟩ := List.cons_prefix_cons.mp hpre
            exact hfirst
        | cons k pre =>
            obtain ⟨rfl, hpost⟩ := List.cons_prefix_cons.mp hpre
            exact hrest pre i hpost
      · intro h
        exact ⟨h [] j (List.cons_prefix_cons.mpr ⟨rfl, List.nil_prefix⟩),
          fun pre i hpre => h (j :: pre) i (List.cons_prefix_cons.mpr ⟨rfl, hpre⟩)⟩

/-- An observation with an exact condition, along runs in a domain: what the invariant says
of the outside holds in every state if and only if every step is admitted. -/
theorem foldl_obs_iff_along {step : τ → ι → τ} {dom adm : τ → ι → Prop} {Inv Obs : τ → Prop}
    (hobs : ∀ t, Inv t → Obs t) (hstep : ∀ t i, Inv t → dom t i → adm t i → Inv (step t i))
    (hadm : ∀ t i, Inv t → dom t i → Obs (step t i) → adm t i) :
    ∀ (is : List ι) {t : τ}, Inv t → Along step dom t is →
      ((∀ pre, pre <+: is → Obs (pre.foldl step t)) ↔ Along step adm t is)
  | [], t, hi, _ => by
      refine ⟨fun _ => trivial, fun _ pre hpre => ?_⟩
      rw [List.prefix_nil.mp hpre]
      exact hobs t hi
  | i :: is, t, hi, ⟨hdom, hrestdom⟩ => by
      constructor
      · intro h
        have hfirst := hadm t i hi hdom (h [i] ⟨is, rfl⟩)
        refine ⟨hfirst, (foldl_obs_iff_along hobs hstep hadm is (hstep t i hi hdom hfirst)
          hrestdom).mp ?_⟩
        exact fun pre hpre => h (i :: pre) (List.cons_prefix_cons.mpr ⟨rfl, hpre⟩)
      · rintro ⟨hfirst, hrest⟩ pre hpre
        cases pre with
        | nil => exact hobs t hi
        | cons j pre =>
            obtain ⟨rfl, hpost⟩ := List.cons_prefix_cons.mp hpre
            exact (foldl_obs_iff_along hobs hstep hadm is (hstep t j hi hdom hfirst)
              hrestdom).mpr hrest pre hpost

theorem foldl_obs_iff {step : τ → ι → τ} {adm : τ → ι → Prop} {Inv Obs : τ → Prop}
    (hobs : ∀ t, Inv t → Obs t) (hstep : ∀ t i, Inv t → adm t i → Inv (step t i))
    (hadm : ∀ t i, Inv t → Obs (step t i) → adm t i) (is : List ι) {t : τ} (hi : Inv t) :
    (∀ pre, pre <+: is → Obs (pre.foldl step t)) ↔ Along step adm t is :=
  foldl_obs_iff_along hobs (fun t i h _ => hstep t i h) (fun t i h _ => hadm t i h) is hi
    (along_of_forall fun _ _ => trivial)

theorem foldl_inv_iff {step : τ → ι → τ} {adm : τ → ι → Prop} {Inv : τ → Prop}
    (hstep : ∀ t i, Inv t → (Inv (step t i) ↔ adm t i)) (is : List ι) {t : τ} (hi : Inv t) :
    (∀ pre, pre <+: is → Inv (pre.foldl step t)) ↔ Along step adm t is :=
  foldl_obs_iff (fun _ h => h) (fun t i h => (hstep t i h).mpr) (fun t i h => (hstep t i h).mp) is
    hi

end Runs

end VidhiArena.Foundation
