import VidhiArena.Foundation.BracedLines

/-!
# Control flow

Simple statements, chains of conditions, and loops, over any statements and any state. A
chain stands as a sequence of blocks, each of which knows whether one before it has been
taken.

What simulates the statements and the conditions one by one simulates the program.
-/

namespace VidhiArena.Foundation

open BracedLines

/-- What the head of a block is there for. -/
inductive Control where
  | if_ | elseIf | else_ | while_
  deriving DecidableEq

/-- Whether the clause is looked at; `taken` says so of the chain before it, if there is one. -/
def Control.reached (c : Control) (taken : Option Bool) : Option Bool :=
  match c with
  | if_ | while_ => some true
  | elseIf | else_ => taken.map (!·)

def Control.chain (c : Control) (taken : Bool) : Option Bool :=
  match c with
  | if_ | elseIf => some taken
  | else_ | while_ => none

inductive Flow (S H : Type) where
  | done
  | simple (a : S) (rest : Flow S H)
  | block (h : H) (body rest : Flow S H)
  deriving DecidableEq

/-- What statements and heads do. -/
structure Meaning (S H σ : Type) where
  simple : S → σ → Option σ
  control : H → Control
  test : H → σ → Option Bool

variable {S S' H H' σ σ' : Type}

namespace Flow

def map (f : S → S') (g : H → H') : Flow S H → Flow S' H'
  | done => done
  | simple a rest => simple (f a) (rest.map f g)
  | block h body rest => block (g h) (body.map f g) (rest.map f g)

def All (P : S → Prop) (Q : H → Prop) : Flow S H → Prop
  | done => True
  | simple a rest => P a ∧ rest.All P Q
  | block h body rest => Q h ∧ body.All P Q ∧ rest.All P Q

theorem map_id (t : Flow S H) : t.map id id = t := by
  induction t with
  | done => rfl
  | simple a rest ih => rw [map, ih, id]
  | block h body rest ihbody ihrest => rw [map, ihbody, ihrest, id]

theorem all_true (t : Flow S H) : t.All (fun _ => True) (fun _ => True) := by
  induction t with
  | done => trivial
  | simple a rest ih => exact ⟨trivial, ih⟩
  | block h body rest ihbody ihrest => exact ⟨trivial, ihbody, ihrest⟩

/-- The state at the end, or `none` where something fails or the fuel does not last. -/
def run (m : Meaning S H σ) : Nat → Option Bool → Flow S H → σ → Option σ
  | 0, _, _, _ => none
  | _ + 1, _, done, s => some s
  | fuel + 1, _, simple a rest, s => (m.simple a s).bind (run m fuel none rest)
  | fuel + 1, taken, block h body rest, s =>
      ((m.control h).reached taken).bind fun reached =>
        if reached then
          (m.test h s).bind fun holds =>
            if holds then
              (run m fuel none body s).bind fun s' =>
                if m.control h = .while_ then run m fuel none (block h body rest) s'
                else run m fuel ((m.control h).chain true) rest s'
            else run m fuel ((m.control h).chain false) rest s
        else run m fuel ((m.control h).chain true) rest s

/-- The second meaning does what the first one does, where that does not fail. -/
structure Simulates (m : Meaning S H σ) (m' : Meaning S' H' σ') (f : S → S') (g : H → H')
    (φ : σ → σ') (P : S → Prop) (Q : H → Prop) : Prop where
  simple : ∀ a, P a → ∀ s s', m.simple a s = some s' → m'.simple (f a) (φ s) = some (φ s')
  control : ∀ h, m'.control (g h) = m.control h
  test : ∀ h, Q h → ∀ s b, m.test h s = some b → m'.test (g h) (φ s) = some b

theorem Simulates.run {m : Meaning S H σ} {m' : Meaning S' H' σ'} {f : S → S'} {g : H → H'}
    {φ : σ → σ'} {P : S → Prop} {Q : H → Prop} (hsim : Simulates m m' f g φ P Q) (fuel : Nat) :
    ∀ {t : Flow S H} {taken : Option Bool} {s s' : σ}, t.All P Q →
      t.run m fuel taken s = some s' → (t.map f g).run m' fuel taken (φ s) = some (φ s') := by
  induction fuel with
  | zero => exact fun _ hrun => absurd hrun (Option.some_ne_none _).symm
  | succ fuel ih =>
      intro t taken s s' hall hrun
      cases t with
      | done => exact congrArg (Option.map φ) hrun
      | simple a rest =>
          obtain ⟨u, hu, hrest⟩ := Option.bind_eq_some_iff.mp hrun
          rw [map, Flow.run, hsim.simple a hall.1 s u hu]
          exact ih hall.2 hrest
      | block h body rest =>
          obtain ⟨hhead, hbody, htail⟩ := hall
          rw [map, Flow.run, hsim.control]
          rw [Flow.run] at hrun
          obtain ⟨reached, hreached, hrun⟩ := Option.bind_eq_some_iff.mp hrun
          rw [hreached, Option.bind_some]
          cases reached with
          | false => exact ih htail hrun
          | true =>
              obtain ⟨holds, htest, hrun⟩ := Option.bind_eq_some_iff.mp hrun
              rw [if_pos rfl, hsim.test h hhead s holds htest, Option.bind_some]
              cases holds with
              | false => exact ih htail hrun
              | true =>
                  obtain ⟨u, hu, hrun⟩ := Option.bind_eq_some_iff.mp hrun
                  rw [if_pos rfl, ih hbody hu, Option.bind_some]
                  -- a loop looks at its head once more
                  split at hrun
                  · next hloop =>
                      rw [if_pos hloop]
                      exact ih (t := .block h body rest) ⟨hhead, hbody, htail⟩ hrun
                  · next hloop =>
                      rw [if_neg hloop]
                      exact ih htail hrun

end Flow

/-! ## Reading the blocks of a text -/

namespace BracedLines.Blocks

/-- The tree behind what has been read in the innermost block, and in those around it. -/
def assemble : List Event → (Blocks → Blocks) → List (Text × (Blocks → Blocks)) → Option Blocks
  | [], here, [] => some (here .done)
  | [], _, _ :: _ => none
  | .close :: _, _, [] => none
  | .close :: es, here, (head, before) :: outer =>
      assemble es (fun rest => before (.block head (here .done) rest)) outer
  | .item t :: es, here, outer =>
      match effect t with
      | none => none
      | some false => assemble es (fun rest => here (.item t rest)) outer
      | some true => assemble es id ((t, here) :: outer)

def ofLines (lines : List Text) : Option Blocks := assemble (lines.flatMap lineEvents) id []

def append : Blocks → Blocks → Blocks
  | done, b => b
  | item t rest, b => item t (rest.append b)
  | block head body rest, b => block head body (rest.append b)

theorem append_done (b : Blocks) : b.append done = b := by
  induction b with
  | done => rfl
  | item t rest ih => rw [append, ih]
  | block head body rest _ ih => rw [append, ih]

theorem assemble_events {b : Blocks} (h : b.Legible) (es : List Event) :
    ∀ (here : Blocks → Blocks) (outer : List (Text × (Blocks → Blocks))),
      assemble (b.events ++ es) here outer = assemble es (fun rest => here (b.append rest)) outer := by
  induction b generalizing es with
  | done => exact fun here outer => rfl
  | item t rest ih =>
      intro here outer
      rw [events, List.cons_append, assemble, h.1]
      exact ih h.2 es _ outer
  | block head body rest ihbody ihrest =>
      intro here outer
      rw [events, List.cons_append, assemble, h.1, List.append_assoc]
      refine (ihbody h.2.1 _ _ _).trans ?_
      rw [List.cons_append, assemble, ihrest h.2.2]
      have hbody : id (body.append done) = body := append_done body
      rw [hbody]
      rfl

theorem ofLines_eq {b : Blocks} (h : b.Legible) {lines : List Text}
    (hlines : lines.flatMap lineEvents = b.events) : ofLines lines = some b := by
  have hread := assemble_events h [] id []
  rw [List.append_nil] at hread
  rw [ofLines, hlines, hread]
  exact congrArg some (append_done b)

end BracedLines.Blocks

end VidhiArena.Foundation
