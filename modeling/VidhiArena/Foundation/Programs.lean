import VidhiArena.Foundation.Faulting

/-!
# Programs that call a machine

A program reads the state of a machine and calls it; what it does next depends
on what it has read and on the replies. `Prog.run` executes a program against a
faulting machine and keeps the history of its calls.

`run_bind` takes a sequence apart. `run_replay` says that the history is a run of
the machine, so what holds of every admitted run holds of every program; and
`run_defined` is the progress rule. `Ensures` is a postcondition of the admitted
executions, with a rule for each constructor and one for sequences. `All` speaks
about the calls in the text of a program, whatever the replies, and `AtMost`
counts them. A program that reads nothing can be served by any machine (`serve`), and
`serve_sim` compares two of them.
-/

namespace VidhiArena.Foundation

inductive Prog (σ ι ω α : Type) : Type where
  | ret (a : α)
  | read (k : σ → Prog σ ι ω α)
  | call (i : ι) (k : ω → Prog σ ι ω α)

namespace Prog

variable {ε σ ι ω α β : Type}

def andThen : Prog σ ι ω α → (α → Prog σ ι ω β) → Prog σ ι ω β
  | ret a, f => f a
  | read k, f => read fun s => (k s).andThen f
  | call i k, f => call i fun o => (k o).andThen f

instance : Monad (Prog σ ι ω) where
  pure := ret
  bind := andThen

@[simp] theorem pure_eq (a : α) : (pure a : Prog σ ι ω α) = ret a := rfl

@[simp] theorem ret_bind (a : α) (f : α → Prog σ ι ω β) : ret a >>= f = f a := rfl

@[simp] theorem read_bind (k : σ → Prog σ ι ω α) (f : α → Prog σ ι ω β) :
    read k >>= f = read fun s => k s >>= f := rfl

@[simp] theorem call_bind (i : ι) (k : ω → Prog σ ι ω α) (f : α → Prog σ ι ω β) :
    call i k >>= f = call i fun o => k o >>= f := rfl

@[simp] theorem bind_ret (p : Prog σ ι ω α) : p >>= ret = p := by
  induction p with
  | ret a => rfl
  | read k ih => exact congrArg read (funext ih)
  | call i k ih => exact congrArg (call i) (funext ih)

/-! ## Execution -/

/-- The calls that a program has made, with their replies. -/
abbrev History (ι ω : Type) := List (ι × ω)

/-- The result, the history and the state that a program leaves. -/
def run (step : σ → ι → Except ε (ω × σ)) :
    Prog σ ι ω α → σ → Except ε (α × History ι ω × σ)
  | ret a, s => .ok (a, [], s)
  | read k, s => run step (k s) s
  | call i k, s => do
      let (o, s) ← step s i
      let (a, h, s) ← run step (k o) s
      return (a, (i, o) :: h, s)

variable {step : σ → ι → Except ε (ω × σ)} {adm : σ → ι → Prop}

theorem run_bind (p : Prog σ ι ω α) (f : α → Prog σ ι ω β) : ∀ s : σ,
    run step (p >>= f) s = (do
      let (a, h, s) ← run step p s
      let (b, h', s) ← run step (f a) s
      return (b, h ++ h', s)) := by
  induction p with
  | ret a =>
      intro s
      simp only [ret_bind, run, ok_bind]
      cases run step (f a) s <;> rfl
  | read k ih => exact fun s => ih s s
  | call i k ih =>
      intro s
      simp only [call_bind, run]
      cases step s i with
      | error e => rfl
      | ok r =>
          simp only [ok_bind, ih]
          cases run step (k r.1) r.2 with
          | error e => rfl
          | ok r₁ =>
              simp only [ok_bind, pure_ok]
              cases run step (f r₁.1) r₁.2.2 <;> rfl

theorem run_bind_eq_ok {p : Prog σ ι ω α} {f : α → Prog σ ι ω β} {s s' : σ} {b : β}
    {h : History ι ω} : run step (p >>= f) s = .ok (b, h, s') ↔
      ∃ a h₁ s₁ h₂, run step p s = .ok (a, h₁, s₁) ∧ run step (f a) s₁ = .ok (b, h₂, s') ∧
        h = h₁ ++ h₂ := by
  rw [run_bind, bind_eq_ok]
  constructor
  · rintro ⟨⟨a, h₁, s₁⟩, hp, hrest⟩
    obtain ⟨⟨b', h₂, s₂⟩, hf, hrest⟩ := bind_eq_ok.mp hrest
    cases hrest
    exact ⟨a, h₁, s₁, h₂, hp, hf, rfl⟩
  · rintro ⟨a, h₁, s₁, h₂, hp, hf, rfl⟩
    refine ⟨(a, h₁, s₁), hp, ?_⟩
    simp only [hf, ok_bind, pure_ok]

theorem run_replay {p : Prog σ ι ω α} : ∀ {s s' : σ} {a : α} {h : History ι ω},
    run step p s = .ok (a, h, s') →
      runFrom step s (h.map Prod.fst) = .ok (h.map Prod.snd, s') := by
  induction p with
  | ret a =>
      intro s s' a' h hrun
      cases hrun
      rfl
  | read k ih => exact fun {s _ _ _} hrun => ih s hrun
  | call i k ih =>
      intro s s' a h hrun
      obtain ⟨⟨o, s₁⟩, hstep, hrun⟩ := bind_eq_ok.mp hrun
      obtain ⟨⟨a', h', s₂⟩, hrest, hrun⟩ := bind_eq_ok.mp hrun
      cases hrun
      simp only [List.map_cons, runFrom, hstep, ok_bind, ih o hrest, pure_ok]

/-! ## Admitted programs -/

/-- Every call that the program makes is admitted in the state that it meets. -/
def AdmittedIn (step : σ → ι → Except ε (ω × σ)) (adm : σ → ι → Prop) :
    Prog σ ι ω α → σ → Prop
  | ret _, _ => True
  | read k, s => AdmittedIn step adm (k s) s
  | call i k, s => adm s i ∧ ∀ o s', step s i = .ok (o, s') → AdmittedIn step adm (k o) s'

/-- What follows a call is decided where the call leads. -/
def decideNext {r : Except ε (ω × σ)} {Q : ω → σ → Prop} [∀ o s, Decidable (Q o s)] :
    Decidable (∀ o s', r = .ok (o, s') → Q o s') :=
  match r with
  | .error _ => .isTrue fun _ _ h => nomatch h
  | .ok (o, s) => decidable_of_iff (Q o s)
      ⟨fun h _ _ heq => by cases heq; exact h, fun h => h o s rfl⟩

instance AdmittedIn.decidable (step : σ → ι → Except ε (ω × σ)) (adm : σ → ι → Prop)
    [∀ s i, Decidable (adm s i)] :
    ∀ (p : Prog σ ι ω α) (s : σ), Decidable (AdmittedIn step adm p s)
  | ret _, _ => inferInstanceAs (Decidable True)
  | read k, s => AdmittedIn.decidable step adm (k s) s
  | call i k, s =>
      have : ∀ o s', Decidable (AdmittedIn step adm (k o) s') :=
        fun o s' => AdmittedIn.decidable step adm (k o) s'
      have : Decidable (∀ o s', step s i = .ok (o, s') → AdmittedIn step adm (k o) s') :=
        decideNext
      inferInstanceAs (Decidable (adm s i ∧ _))

theorem admittedIn_bind {p : Prog σ ι ω α} {f : α → Prog σ ι ω β} : ∀ {s : σ},
    AdmittedIn step adm (p >>= f) s ↔
      AdmittedIn step adm p s ∧
        ∀ a h s', run step p s = .ok (a, h, s') → AdmittedIn step adm (f a) s' := by
  induction p with
  | ret a =>
      intro s
      simp only [ret_bind, AdmittedIn, true_and, run]
      constructor
      · rintro hf a' h' s' heq
        cases heq
        exact hf
      · exact fun hf => hf a [] s rfl
  | read k ih => exact fun {s} => ih s
  | call i k ih =>
      intro s
      simp only [call_bind, AdmittedIn, ih]
      constructor
      · rintro ⟨hadm, hrest⟩
        refine ⟨⟨hadm, fun o s' hs => (hrest o s' hs).1⟩, ?_⟩
        rintro a h s' hrun
        obtain ⟨⟨o, s₁⟩, hs, hrun⟩ := bind_eq_ok.mp hrun
        obtain ⟨⟨a', h', s₂⟩, hk, hrun⟩ := bind_eq_ok.mp hrun
        cases hrun
        exact (hrest o s₁ hs).2 _ _ _ hk
      · rintro ⟨⟨hadm, hrest⟩, hf⟩
        refine ⟨hadm, fun o s' hs => ⟨hrest o s' hs, fun a h s₂ hk => ?_⟩⟩
        refine hf a ((i, o) :: h) s₂ ?_
        simp only [run, hs, hk, ok_bind, pure_ok]

theorem AdmittedIn.imp {adm' : σ → ι → Prop} (himp : ∀ s i, adm s i → adm' s i)
    {p : Prog σ ι ω α} : ∀ {s : σ}, AdmittedIn step adm p s → AdmittedIn step adm' p s := by
  induction p with
  | ret a => exact fun _ => trivial
  | read k ih => exact fun {s} h => ih s h
  | call i k ih => exact fun ⟨hadm, hrest⟩ => ⟨himp _ _ hadm, fun o s' hs => ih o (hrest o s' hs)⟩

theorem AdmittedIn.and {adm' : σ → ι → Prop} {p : Prog σ ι ω α} : ∀ {s : σ},
    AdmittedIn step adm p s → AdmittedIn step adm' p s →
      AdmittedIn step (fun s i => adm s i ∧ adm' s i) p s := by
  induction p with
  | ret a => exact fun _ _ => trivial
  | read k ih => exact fun {s} h h' => ih s h h'
  | call i k ih =>
      rintro s ⟨hadm, hrest⟩ ⟨hadm', hrest'⟩
      exact ⟨⟨hadm, hadm'⟩, fun o s' hs => ih o (hrest o s' hs) (hrest' o s' hs)⟩

theorem AdmittedIn.replay {p : Prog σ ι ω α} : ∀ {s s' : σ} {a : α} {h : History ι ω},
    AdmittedIn step adm p s → run step p s = .ok (a, h, s') →
      AdmittedFrom step adm s (h.map Prod.fst) := by
  induction p with
  | ret a =>
      intro s s' a' h _ hrun
      cases hrun
      trivial
  | read k ih => exact fun {s _ _ _} hadm hrun => ih s hadm hrun
  | call i k ih =>
      rintro s s' a h ⟨hadm, hrest⟩ hrun
      obtain ⟨⟨o, s₁⟩, hstep, hrun⟩ := bind_eq_ok.mp hrun
      obtain ⟨⟨a', h', s₂⟩, hrun', hrun⟩ := bind_eq_ok.mp hrun
      cases hrun
      refine ⟨hadm, ?_⟩
      simp only [hstep]
      exact ih o (hrest o s₁ hstep) hrun'

theorem AdmittedIn.of_replay {p : Prog σ ι ω α} : ∀ {s s' : σ} {a : α} {h : History ι ω},
    run step p s = .ok (a, h, s') → AdmittedFrom step adm s (h.map Prod.fst) →
      AdmittedIn step adm p s := by
  induction p with
  | ret a => exact fun _ _ => trivial
  | read k ih => exact fun {s _ _ _} hrun hadm => ih s hrun hadm
  | call i k ih =>
      intro s s' a h hrun hadm
      obtain ⟨⟨o, s₁⟩, hstep, hrun⟩ := bind_eq_ok.mp hrun
      obtain ⟨⟨a', h', s₂⟩, hrun', hrun⟩ := bind_eq_ok.mp hrun
      cases hrun
      obtain ⟨hi, hrest⟩ := hadm
      simp only [hstep] at hrest
      refine ⟨hi, fun o₁ s₃ hstep' => ?_⟩
      cases hstep.symm.trans hstep'
      exact ih o hrun' hrest

theorem run_defined (Inv : σ → Prop)
    (hstep : ∀ s i, Inv s → adm s i → ∃ o s', step s i = .ok (o, s') ∧ Inv s')
    {p : Prog σ ι ω α} : ∀ {s : σ}, Inv s → AdmittedIn step adm p s →
      ∃ a h s', run step p s = .ok (a, h, s') ∧ Inv s' := by
  induction p with
  | ret a => exact fun {s} hi _ => ⟨a, [], s, rfl, hi⟩
  | read k ih => exact fun {s} hi hadm => ih s hi hadm
  | call i k ih =>
      rintro s hi ⟨hadm, hrest⟩
      obtain ⟨o, s₁, hs, hi₁⟩ := hstep s i hi hadm
      obtain ⟨a, h, s', hrun, hi'⟩ := ih o hi₁ (hrest o s₁ hs)
      refine ⟨a, (i, o) :: h, s', ?_, hi'⟩
      simp only [run, hs, ok_bind, hrun, pure_ok]

theorem run_steps (Inv : σ → Prop) (Q : ι → ω → Prop)
    (hstep : ∀ s i o s', Inv s → adm s i → step s i = .ok (o, s') → Inv s' ∧ Q i o)
    {p : Prog σ ι ω α} {s s' : σ} {a : α} {h : History ι ω} (hi : Inv s)
    (hadm : AdmittedIn step adm p s) (hrun : run step p s = .ok (a, h, s')) :
    Inv s' ∧ ∀ c ∈ h, Q c.1 c.2 := by
  obtain ⟨hi', hq⟩ := runFrom_steps Inv Q hstep _ s hi (hadm.replay hrun) (run_replay hrun)
  refine ⟨hi', fun c hc => ?_⟩
  rw [List.forall₂_map_left_iff, List.forall₂_map_right_iff, List.forall₂_same] at hq
  exact hq c hc

/-! ## Machines that cannot fault -/

/-- Execution against a machine that answers every call. -/
def exec (step : σ → ι → ω × σ) : Prog σ ι ω α → σ → α × History ι ω × σ
  | ret a, s => (a, [], s)
  | read k, s => exec step (k s) s
  | call i k, s =>
      let r := step s i
      let r' := exec step (k r.1) r.2
      (r'.1, (i, r.1) :: r'.2.1, r'.2.2)

section Exec

variable {step : σ → ι → ω × σ}

theorem exec_bind (p : Prog σ ι ω α) (f : α → Prog σ ι ω β) : ∀ s : σ,
    exec step (p >>= f) s =
      ((exec step (f (exec step p s).1) (exec step p s).2.2).1,
        (exec step p s).2.1 ++ (exec step (f (exec step p s).1) (exec step p s).2.2).2.1,
        (exec step (f (exec step p s).1) (exec step p s).2.2).2.2) := by
  induction p with
  | ret a => exact fun _ => rfl
  | read k ih => exact fun s => ih s s
  | call i k ih =>
      intro s
      simp only [call_bind, exec, ih, List.cons_append]

theorem exec_replay {p : Prog σ ι ω α} : ∀ s : σ,
    traceFrom step s ((exec step p s).2.1.map Prod.fst) =
      ((exec step p s).2.1.map Prod.snd, (exec step p s).2.2) := by
  induction p with
  | ret a => exact fun _ => rfl
  | read k ih => exact fun s => ih s s
  | call i k ih =>
      intro s
      simp only [exec, List.map_cons, traceFrom, ih]

theorem exec_foldl (p : Prog σ ι ω α) (s : σ) :
    (exec step p s).2.2 = ((exec step p s).2.1.map Prod.fst).foldl (fun s i => (step s i).2) s := by
  rw [← traceFrom_foldl, exec_replay]

theorem exec_steps {adm : σ → ι → Prop} (Inv : σ → Prop) (Q : ι → ω → Prop)
    (hstep : ∀ s i, Inv s → adm s i → Inv (step s i).2 ∧ Q i (step s i).1)
    {p : Prog σ ι ω α} {s : σ} (hi : Inv s)
    (hadm : Along (fun s i => (step s i).2) adm s ((exec step p s).2.1.map Prod.fst)) :
    Inv (exec step p s).2.2 ∧ ∀ c ∈ (exec step p s).2.1, Q c.1 c.2 := by
  obtain ⟨hi', hq⟩ := traceFrom_steps Inv Q hstep _ s hi hadm
  rw [exec_replay] at hi' hq
  refine ⟨hi', fun c hc => ?_⟩
  rw [List.forall₂_map_left_iff, List.forall₂_map_right_iff, List.forall₂_same] at hq
  exact hq c hc

end Exec

/-! ## Postconditions -/

/-- Partial correctness: an execution from `s` whose calls are all admitted
ends, if it ends, with a result and a state that satisfy `Q`. -/
def Ensures (step : σ → ι → Except ε (ω × σ)) (adm : σ → ι → Prop) (Q : α → σ → Prop)
    (p : Prog σ ι ω α) (s : σ) : Prop :=
  AdmittedIn step adm p s → ∀ a h s', run step p s = .ok (a, h, s') → Q a s'

section Ensures

variable {Q Q' : α → σ → Prop} {R : β → σ → Prop}

theorem ensures_ret {a : α} {s : σ} (h : Q a s) : Ensures step adm Q (ret a) s := by
  rintro _ a' h' s' hrun
  cases hrun
  exact h

theorem ensures_call {i : ι} {k : ω → Prog σ ι ω α} {s : σ}
    (h : adm s i → ∀ o s', step s i = .ok (o, s') → Ensures step adm Q (k o) s') :
    Ensures step adm Q (call i k) s := by
  rintro ⟨hadm, hrest⟩ a h' s' hrun
  obtain ⟨⟨o, s₁⟩, hstep, hrun⟩ := bind_eq_ok.mp hrun
  obtain ⟨⟨a', h'', s₂⟩, hrun', hrun⟩ := bind_eq_ok.mp hrun
  cases hrun
  exact h hadm o s₁ hstep (hrest o s₁ hstep) _ _ _ hrun'

theorem ensures_bind {p : Prog σ ι ω α} {f : α → Prog σ ι ω β} {s : σ}
    (hp : Ensures step adm Q p s) (hf : ∀ a s', Q a s' → Ensures step adm R (f a) s') :
    Ensures step adm R (p >>= f) s := by
  intro hadm b h s' hrun
  obtain ⟨hadmp, hadmf⟩ := admittedIn_bind.mp hadm
  obtain ⟨a, h₁, s₁, h₂, hp', hf', rfl⟩ := run_bind_eq_ok.mp hrun
  exact hf a s₁ (hp hadmp a h₁ s₁ hp') (hadmf a h₁ s₁ hp') b h₂ s' hf'

theorem ensures_ite {c : Prop} [Decidable c] {p q : Prog σ ι ω α} {s : σ}
    (hp : c → Ensures step adm Q p s) (hq : ¬ c → Ensures step adm Q q s) :
    Ensures step adm Q (if c then p else q) s := by
  split
  · exact hp ‹_›
  · exact hq ‹_›

theorem ensures_when {c : Prop} [Decidable c] {p : Prog σ ι ω α} {a : α} {k : α → Prog σ ι ω β}
    {s : σ} (hp : c → Ensures step adm Q p s) (ha : ¬ c → Q a s)
    (hk : ∀ a s', Q a s' → Ensures step adm R (k a) s') :
    Ensures step adm R (if c then p >>= k else k a) s :=
  ensures_ite (fun hc => ensures_bind (hp hc) hk) fun hc => hk a s (ha hc)

theorem ensures_skip {c : Prop} [Decidable c] {p : Prog σ ι ω α} {a : α} {k : α → Prog σ ι ω β}
    {s : σ} (hk : ∀ a s', Ensures step adm R (k a) s') :
    Ensures step adm R (if c then p >>= k else k a) s :=
  ensures_when (Q := fun _ _ => True) (fun _ _ _ _ _ _ => trivial) (fun _ => trivial)
    fun a s' _ => hk a s'

theorem admittedIn_true (p : Prog σ ι ω α) : ∀ s : σ,
    AdmittedIn step (fun _ _ => True) p s := by
  induction p with
  | ret a => exact fun _ => trivial
  | read k ih => exact fun s => ih s s
  | call i k ih => exact fun s => ⟨trivial, fun o s' _ => ih o s'⟩

theorem Ensures.of_run {p : Prog σ ι ω α} {s s' : σ} {a : α} {h : History ι ω}
    (hp : Ensures step (fun _ _ => True) Q p s) (hrun : run step p s = .ok (a, h, s')) : Q a s' :=
  hp (admittedIn_true p s) a h s' hrun

theorem Ensures.imp {p : Prog σ ι ω α} {s : σ} (h : Ensures step adm Q p s)
    (himp : ∀ a s', Q a s' → Q' a s') : Ensures step adm Q' p s :=
  fun hadm a h' s' hrun => himp a s' (h hadm a h' s' hrun)

end Ensures

/-! ## Obligations -/

/-- An execution from `s` whose calls are all admitted meets `obl` at every call, and ends,
if it ends, with a result and a state that satisfy `Q`. -/
def Meets (step : σ → ι → Except ε (ω × σ)) (adm obl : σ → ι → Prop) (Q : α → σ → Prop)
    (p : Prog σ ι ω α) (s : σ) : Prop :=
  AdmittedIn step adm p s →
    AdmittedIn step obl p s ∧ ∀ a h s', run step p s = .ok (a, h, s') → Q a s'

section Meets

variable {obl : σ → ι → Prop} {Q : α → σ → Prop} {R : β → σ → Prop}

theorem meets_ret {a : α} {s : σ} (h : Q a s) : Meets step adm obl Q (ret a) s := by
  refine fun _ => ⟨trivial, fun a' h' s' hrun => ?_⟩
  cases hrun
  exact h

theorem meets_bind {p : Prog σ ι ω α} {f : α → Prog σ ι ω β} {s : σ}
    (hp : Meets step adm obl Q p s) (hf : ∀ a s', Q a s' → Meets step adm obl R (f a) s') :
    Meets step adm obl R (p >>= f) s := by
  intro hadm
  obtain ⟨hadmp, hadmf⟩ := admittedIn_bind.mp hadm
  obtain ⟨hobl, hq⟩ := hp hadmp
  refine ⟨admittedIn_bind.mpr ⟨hobl, fun a h s' hrun => ?_⟩, fun b h s' hrun => ?_⟩
  · exact (hf a s' (hq a h s' hrun) (hadmf a h s' hrun)).1
  · obtain ⟨a, h₁, s₁, h₂, hp', hf', rfl⟩ := run_bind_eq_ok.mp hrun
    exact (hf a s₁ (hq a h₁ s₁ hp') (hadmf a h₁ s₁ hp')).2 b h₂ s' hf'

theorem meets_when {c : Prop} [Decidable c] {p : Prog σ ι ω α} {a : α} {k : α → Prog σ ι ω β}
    {s : σ} (hp : c → Meets step adm obl Q p s) (ha : ¬ c → Q a s)
    (hk : ∀ a s', Q a s' → Meets step adm obl R (k a) s') :
    Meets step adm obl R (if c then p >>= k else k a) s := by
  split
  · rename_i hc
    exact meets_bind (hp hc) hk
  · rename_i hc
    exact hk a s (ha hc)

theorem Meets.imp {p : Prog σ ι ω α} {s : σ} {Q' : α → σ → Prop} (h : Meets step adm obl Q p s)
    (himp : ∀ a s', Q a s' → Q' a s') : Meets step adm obl Q' p s := by
  intro hadm
  obtain ⟨hobl, hq⟩ := h hadm
  exact ⟨hobl, fun a h' s' hrun => himp a s' (hq a h' s' hrun)⟩

theorem Meets.and {p : Prog σ ι ω α} {s : σ} {Q' : α → σ → Prop}
    (h : Meets step adm obl Q p s) (h' : Ensures step adm Q' p s) :
    Meets step adm obl (fun a s => Q a s ∧ Q' a s) p s := by
  intro hadm
  obtain ⟨hobl, hq⟩ := h hadm
  exact ⟨hobl, fun a h s' hrun => ⟨hq a h s' hrun, h' hadm a h s' hrun⟩⟩

end Meets

/-! ## The calls in the text of a program -/

/-- Every call of the program satisfies `P`, whatever it reads and is told. -/
def All (P : ι → Prop) : Prog σ ι ω α → Prop
  | ret _ => True
  | read k => ∀ s, All P (k s)
  | call i k => P i ∧ ∀ o, All P (k o)

variable {P : ι → Prop}

theorem all_bind {p : Prog σ ι ω α} {f : α → Prog σ ι ω β} (hp : All P p)
    (hf : ∀ a, All P (f a)) : All P (p >>= f) := by
  induction p with
  | ret a => exact hf a
  | read k ih => exact fun s => ih s (hp s)
  | call i k ih => exact ⟨hp.1, fun o => ih o (hp.2 o)⟩

theorem all_ite {c : Prop} [Decidable c] {p q : Prog σ ι ω α} (hp : All P p) (hq : All P q) :
    All P (if c then p else q) := by
  split
  · exact hp
  · exact hq

theorem all_when {c : Prop} [Decidable c] {p : Prog σ ι ω α} {a : α} {k : α → Prog σ ι ω β}
    (hp : All P p) (hk : ∀ a, All P (k a)) : All P (if c then p >>= k else k a) :=
  all_ite (all_bind hp hk) (hk a)

theorem All.imp {p : Prog σ ι ω α} {P' : ι → Prop} (himp : ∀ i, P i → P' i) (h : All P p) :
    All P' p := by
  induction p with
  | ret a => trivial
  | read k ih => exact fun s => ih s (h s)
  | call i k ih => exact ⟨himp i h.1, fun o => ih o (h.2 o)⟩

theorem All.admitted {p : Prog σ ι ω α} : ∀ {s : σ}, All P p →
    AdmittedIn step (fun _ i => P i) p s := by
  induction p with
  | ret a => exact fun _ => trivial
  | read k ih => exact fun {s} h => ih s (h s)
  | call i k ih => exact fun h => ⟨h.1, fun o _ _ => ih o (h.2 o)⟩

theorem All.history {p : Prog σ ι ω α} : ∀ {s s' : σ} {a : α} {h : History ι ω},
    All P p → run step p s = .ok (a, h, s') → ∀ c ∈ h, P c.1 := by
  induction p with
  | ret a =>
      intro s s' a' h _ hrun
      cases hrun
      exact fun c hc => absurd hc List.not_mem_nil
  | read k ih => exact fun {s _ _ _} hall hrun => ih s (hall s) hrun
  | call i k ih =>
      rintro s s' a h ⟨hi, hk⟩ hrun
      obtain ⟨⟨o, s₁⟩, hstep, hrun⟩ := bind_eq_ok.mp hrun
      obtain ⟨⟨a', h', s₂⟩, hrest, hrun⟩ := bind_eq_ok.mp hrun
      cases hrun
      exact List.forall_mem_cons.mpr ⟨hi, ih o (hk o) hrest⟩

theorem All.exec {step : σ → ι → ω × σ} {p : Prog σ ι ω α} : ∀ {s : σ}, All P p →
    ∀ c ∈ (Prog.exec step p s).2.1, P c.1 := by
  induction p with
  | ret a => exact fun _ c hc => absurd hc List.not_mem_nil
  | read k ih => exact fun {s} hall => ih s (hall s)
  | call i k ih =>
      rintro s ⟨hi, hk⟩
      exact List.forall_mem_cons.mpr ⟨hi, ih _ (hk _)⟩

/-! ## Programs that see only the replies -/

section Serve

variable {τ τ' : Type}

/-- Execution of a program that does not read the machine. -/
def serve (step : τ → ι → ω × τ) : Prog Unit ι ω α → τ → α × τ
  | ret a, t => (a, t)
  | read k, t => serve step (k ()) t
  | call i k, t => serve step (k (step t i).1) (step t i).2

/-- Two machines look the same to a program if they reply the same to each of its calls,
in states that belong together. -/
theorem serve_sim {step : τ → ι → ω × τ} {step' : τ' → ι → ω × τ'} (R : τ → τ' → Prop)
    (hstep : ∀ t t' i, R t t' → P i →
      (step t i).1 = (step' t' i).1 ∧ R (step t i).2 (step' t' i).2)
    {p : Prog Unit ι ω α} : ∀ {t : τ} {t' : τ'}, All P p → R t t' →
      (serve step p t).1 = (serve step' p t').1 ∧ R (serve step p t).2 (serve step' p t').2 := by
  induction p with
  | ret a => exact fun _ h => ⟨rfl, h⟩
  | read k ih => exact fun hall h => ih () (hall ()) h
  | call i k ih =>
      intro t t' hall h
      obtain ⟨hreply, hnext⟩ := hstep t t' i h hall.1
      rw [serve, serve, hreply]
      exact ih _ (hall.2 _) hnext

end Serve

/-- On every path at most `n` calls are among the `q`. -/
def AtMost (q : ι → Bool) : Prog σ ι ω α → Nat → Prop
  | ret _, _ => True
  | read k, n => ∀ s, AtMost q (k s) n
  | call i k, n => ∃ m, (if q i then 1 else 0) + m ≤ n ∧ ∀ o, AtMost q (k o) m

section AtMost

variable {q : ι → Bool} {m n : Nat}

theorem AtMost.mono {p : Prog σ ι ω α} : ∀ {m n : Nat}, AtMost q p m → m ≤ n → AtMost q p n := by
  induction p with
  | ret a => exact fun _ _ => trivial
  | read k ih => exact fun h hle s => ih s (h s) hle
  | call i k ih => exact fun ⟨l, hl, hk⟩ hle => ⟨l, Nat.le_trans hl hle, hk⟩

theorem atMost_bind {p : Prog σ ι ω α} {f : α → Prog σ ι ω β} :
    ∀ {m : Nat}, AtMost q p m → (∀ a, AtMost q (f a) n) → AtMost q (p >>= f) (m + n) := by
  induction p with
  | ret a => exact fun _ hf => (hf a).mono (Nat.le_add_left _ _)
  | read k ih => exact fun h hf s => ih s (h s) hf
  | call i k ih =>
      rintro m ⟨l, hl, hk⟩ hf
      exact ⟨l + n, by omega, fun o => ih o (hk o) hf⟩

theorem atMost_ite {c : Prop} [Decidable c] {p p' : Prog σ ι ω α} (hp : AtMost q p n)
    (hp' : AtMost q p' n) : AtMost q (if c then p else p') n := by
  split
  · exact hp
  · exact hp'

theorem atMost_when {c : Prop} [Decidable c] {p : Prog σ ι ω α} {a : α} {k : α → Prog σ ι ω β}
    (hp : AtMost q p m) (hk : ∀ a, AtMost q (k a) n) :
    AtMost q (if c then p >>= k else k a) (m + n) :=
  atMost_ite (atMost_bind hp hk) ((hk a).mono (Nat.le_add_left _ _))

theorem AtMost.none {p : Prog σ ι ω α} : AtMost q p 0 → All (fun i => q i = false) p := by
  induction p with
  | ret a => exact fun _ => trivial
  | read k ih => exact fun h s => ih s (h s)
  | call i k ih =>
      rintro ⟨m, hm, hk⟩
      refine ⟨?_, fun o => ih o ((hk o).mono ?_)⟩
      · by_contra hq
        rw [if_pos (eq_true_of_ne_false hq)] at hm
        omega
      · exact Nat.le_trans (Nat.le_add_left _ _) hm

/-- The counting rule: a measure that only the calls in `q` raise, by one each, stays
below the cap at each of them, if there is room for all. -/
theorem AtMost.admits (Inv : σ → Prop) (μ : σ → Nat) {cap : Nat} {p : Prog σ ι ω α}
    (hstep : ∀ s i o s', Inv s → adm s i → step s i = .ok (o, s') →
      Inv s' ∧ μ s' ≤ μ s + if q i then 1 else 0) :
    ∀ {n : Nat} {s : σ}, AtMost q p n → Inv s → μ s + n ≤ cap → AdmittedIn step adm p s →
      AdmittedIn step (fun s i => q i = true → μ s < cap) p s := by
  induction p with
  | ret a => exact fun _ _ _ _ => trivial
  | read k ih => exact fun {_ s} hmost hi hroom hadm => ih s (hmost s) hi hroom hadm
  | call i k ih =>
      rintro n s ⟨m, hm, hk⟩ hi hroom ⟨hadm, hrest⟩
      refine ⟨fun hq => ?_, fun o s' hs => ?_⟩
      · rw [if_pos hq] at hm
        omega
      · obtain ⟨hi', hμ⟩ := hstep s i o s' hi hadm hs
        exact ih o (hk o) hi' (by omega) (hrest o s' hs)

end AtMost

end Prog

end VidhiArena.Foundation
