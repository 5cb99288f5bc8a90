import Mathlib.Data.List.Chain

/-!
# Lexemes

A text is cut into lexemes from the left, each as long as it goes. A scanner says which
character a lexeme goes on with, and which characters are blank.

Pieces that stand next to each other are read one by one, if none of them goes on with the
first character of the next.
-/

namespace VidhiArena.Foundation

structure Scanner (α : Type) where
  grows : List α → α → Bool
  blank : α → Bool
  grows_nil : ∀ c, grows [] c = false
  grows_blank : ∀ run c, blank c = true → grows run c = false

/-- A token, and the blanks in front of it. -/
structure Piece (α : Type) where
  gap : List α
  token : List α

def Piece.text {α : Type} (p : Piece α) : List α := p.gap ++ p.token

def spell {α : Type} (ps : List (Piece α)) : List α := ps.flatMap Piece.text

theorem spell_append {α : Type} (ps qs : List (Piece α)) :
    spell (ps ++ qs) = spell ps ++ spell qs := List.flatMap_append

namespace Scanner

variable {α : Type} (S : Scanner α)

def flush (run : List α) : List (List α) := if run.isEmpty then [] else [run]

/-- The lexemes of a text; `run` is the one that has been begun. -/
def lexemesFrom (run : List α) : List α → List (List α)
  | [] => flush run
  | c :: t =>
      if S.grows run c then lexemesFrom (run ++ [c]) t
      else flush run ++ lexemesFrom (if S.blank c then [] else [c]) t

def lexemes (t : List α) : List (List α) := S.lexemesFrom [] t

/-- The lexeme that is open at the end of a text. -/
def lastRun (run : List α) : List α → List α
  | [] => run
  | c :: t =>
      if S.grows run c then lastRun (run ++ [c]) t else lastRun (if S.blank c then [] else [c]) t

/-- `b` does not go on with the last lexeme of `a`. -/
def Cut (a b : List α) : Prop := ∀ c ∈ b.head?, S.grows (S.lastRun [] a) c = false

/-- The second piece does not go on with the first. -/
def Apart (p q : Piece α) : Prop := q.gap ≠ [] ∨ S.Cut p.token q.token

variable {S} {a b run : List α}

theorem cut_nil : S.Cut a [] := fun _ hc => absurd hc (Option.not_mem_none _)

theorem cut_cons {c : α} : S.Cut a (c :: b) ↔ S.grows (S.lastRun [] a) c = false := by
  simp [Cut]

instance : Decidable (S.Cut a b) :=
  match b with
  | [] => .isTrue cut_nil
  | c :: b => decidable_of_iff _ (cut_cons (S := S) (a := a) (b := b) (c := c)).symm

instance {p q : Piece α} : Decidable (S.Apart p q) := inferInstanceAs (Decidable (_ ∨ _))

theorem lexemesFrom_cut (h : ∀ c ∈ b.head?, S.grows run c = false) :
    S.lexemesFrom run b = flush run ++ S.lexemes b := by
  cases b with
  | nil => exact (List.append_nil _).symm
  | cons c t =>
      have hc : S.grows run c = false := h c rfl
      rw [lexemes, lexemesFrom, lexemesFrom, hc, S.grows_nil]
      rfl

theorem lexemesFrom_append (b : List α) (a : List α) : ∀ run : List α,
    (∀ c ∈ b.head?, S.grows (S.lastRun run a) c = false) →
    S.lexemesFrom run (a ++ b) = S.lexemesFrom run a ++ S.lexemes b := by
  induction a with
  | nil => exact fun run h => lexemesFrom_cut h
  | cons c a ih =>
      intro run h
      rw [lastRun] at h
      rw [List.cons_append, lexemesFrom, lexemesFrom]
      split
      · next hgrows =>
          rw [if_pos hgrows] at h
          exact ih _ h
      · next hgrows =>
          rw [if_neg hgrows] at h
          rw [ih _ h, List.append_assoc]

theorem lexemes_append (h : S.Cut a b) : S.lexemes (a ++ b) = S.lexemes a ++ S.lexemes b :=
  lexemesFrom_append b a [] h

theorem lexemes_blanks (ha : a.all S.blank = true) : S.lexemes (a ++ b) = S.lexemes b := by
  induction a with
  | nil => rfl
  | cons c a ih =>
      rw [List.all_cons, Bool.and_eq_true] at ha
      rw [List.cons_append, lexemes, lexemesFrom, S.grows_nil, ha.1]
      exact ih ha.2

theorem lexemes_run {c : α} {t : List α} (hc : S.blank c = false)
    (h : ∀ run d, run ≠ [] → run ++ [d] <+: c :: t → S.grows run d = true) :
    S.lexemes (c :: t) = [c :: t] ∧ S.lastRun [] (c :: t) = c :: t := by
  have hfrom : ∀ (rest run : List α), run ≠ [] → run ++ rest = c :: t →
      S.lexemesFrom run rest = [c :: t] ∧ S.lastRun run rest = c :: t := by
    intro rest
    induction rest with
    | nil =>
        intro run hrun heq
        rw [List.append_nil] at heq
        subst heq
        exact ⟨rfl, rfl⟩
    | cons d rest ih =>
        intro run hrun heq
        have hhead : run ++ [d] <+: c :: t := ⟨rest, by rw [List.append_assoc]; exact heq⟩
        rw [lexemesFrom, lastRun, h run d hrun hhead]
        exact ih (run ++ [d]) (List.append_ne_nil_of_right_ne_nil _ (List.cons_ne_nil d []))
          (by rw [List.append_assoc]; exact heq)
  have hrun := hfrom t [c] (List.cons_ne_nil c []) rfl
  rw [lexemes, lexemesFrom, lastRun, S.grows_nil, hc]
  exact hrun

/-! ## Pieces -/

theorem cut_text {p q : Piece α} (hgap : q.gap.all S.blank = true) (h : S.Apart p q)
    (ps : List (Piece α)) (hq : q.token ≠ []) : S.Cut p.token (spell (q :: ps)) := by
  cases hg : q.gap with
  | nil =>
      have hcut := h.resolve_left fun hne => hne hg
      cases ht : q.token with
      | nil => exact absurd ht hq
      | cons c t =>
          rw [ht] at hcut
          simp only [spell, List.flatMap_cons, Piece.text, hg, ht]
          exact cut_cons.mpr (cut_cons.mp hcut)
  | cons c t =>
      rw [hg, List.all_cons, Bool.and_eq_true] at hgap
      simp only [spell, List.flatMap_cons, Piece.text, hg]
      exact cut_cons.mpr (S.grows_blank _ c hgap.1)

theorem lexemes_spell (ps : List (Piece α)) (hgaps : ∀ p ∈ ps, p.gap.all S.blank = true)
    (htokens : ∀ p ∈ ps, p.token ≠ []) (hapart : ps.IsChain S.Apart) :
    S.lexemes (spell ps) = ps.flatMap fun p => S.lexemes p.token := by
  induction ps with
  | nil => rfl
  | cons p ps ih =>
      rw [List.forall_mem_cons] at hgaps htokens
      have hcut : S.Cut p.token (spell ps) := by
        cases ps with
        | nil => exact cut_nil
        | cons q ps =>
            exact cut_text (hgaps.2 q List.mem_cons_self) (List.isChain_cons_cons.mp hapart).1 ps
              (htokens.2 q List.mem_cons_self)
      rw [spell, List.flatMap_cons, List.flatMap_cons, Piece.text, List.append_assoc,
        lexemes_blanks hgaps.1, ← spell, lexemes_append hcut, ih hgaps.2 htokens.2 hapart.tail]

end Scanner

end VidhiArena.Foundation
