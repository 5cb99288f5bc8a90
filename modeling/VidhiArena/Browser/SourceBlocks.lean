import VidhiArena.Browser.StepZero

/-!
# Blocks of a strategy

The lines of a tree of blocks, one margin deeper with every level. What stands behind the
first word of a header is left open: the transpiler takes it for a header only if the line
ends with its colon, once a decorator and a comment are cut off; a clause such as `else` it
knows by the first word.
-/

namespace VidhiArena.Browser.Transpile

open Foundation.BracedLines

variable {t : Text}

/-! ## Lines -/

/-- What a line is indented with. -/
structure Margin where
  blanks : Text
  blank : ∀ c ∈ blanks, c = ' ' ∨ c = '\t'
  nonempty : blanks ≠ []

namespace Margin

variable (m : Margin)

def columns : Nat := getIndent m.blanks

def times (k : Nat) : Text := (List.replicate k m.blanks).flatten

theorem spaces (k : Nat) : ∀ c ∈ m.times k, isSpace c = true := by
  intro c hc
  obtain ⟨blanks, hblanks, hc⟩ := List.mem_flatten.mp hc
  rw [List.eq_of_mem_replicate hblanks] at hc
  rcases m.blank c hc with rfl | rfl
  · decide
  · decide

end Margin

def Unquoted (t : Text) : Prop := ∀ q ∈ ['\x22', '\x27'], ¬ tripled q <:+: t

/-- A simple statement, on a line of its own. -/
structure Statement where
  text : Text
  solid : Solid text
  first : text.head? ≠ some '#' ∧ text.head? ≠ some '@'
  notBlock : text.takeWhile isWord ∉ blockWords
  dots : text.all isDot = true
  unquoted : Unquoted text

/-- The header of a block, with all that stands behind its first word on the line. -/
structure Header where
  keyword : Keyword
  rest : Text
  bounded : Bounded rest
  bare : keyword.bare = true → ∃ blanks note, rest = blanks ++ ':' :: note ∧
    blanks.all isSpace = true
  dots : rest.all isDot = true
  unquoted : Unquoted (keyword.text ++ rest)

theorem newline_of_dots {l : Text} (h : l.all isDot = true) : '\n' ∉ l :=
  fun hmem => absurd (List.all_eq_true.mp h _ hmem) (by decide)

theorem head?_undecorated {c : Char} (hdots : (c :: t).all isDot = true)
    (h : (c :: t).head? ≠ some '@') : (undecorated (c :: t)).head? = some c := by
  obtain ⟨cut, heq, hcut, -⟩ := deleteAll_decorator (newline_of_dots hdots) true
  rw [← undecorated] at heq
  cases hkept : undecorated (c :: t) with
  | nil =>
      rw [hkept, List.nil_append] at heq
      rw [← heq] at hcut
      exact absurd (congrArg some (beq_iff_eq.mp hcut)) h
  | cons c' t' =>
      rw [hkept] at heq
      rw [(List.cons.inj heq).1]
      rfl

theorem takeWhile_undecorated (hdots : t.all isDot = true) :
    (undecorated t).takeWhile isWord = t.takeWhile isWord := by
  obtain ⟨cut, heq, hcut, -⟩ := deleteAll_decorator (newline_of_dots hdots) true
  rw [← undecorated] at heq
  conv_rhs => rw [heq]
  cases cut with
  | nil => rw [List.append_nil]
  | cons c cut =>
      obtain rfl := beq_iff_eq.mp hcut
      rw [takeWhile_append_cons (by decide)]

theorem solid_undecorated (hsolid : Solid t) (hdots : t.all isDot = true)
    (hmark : t.head? ≠ some '@') : Solid (undecorated t) ∧ (undecorated t).head? = t.head? := by
  cases t with
  | nil => exact absurd hsolid not_solid_nil
  | cons c t =>
      have hhead := head?_undecorated hdots hmark
      refine ⟨?_, hhead⟩
      rw [Solid, hhead]
      exact hsolid

namespace Statement

variable (s : Statement)

theorem isStatement : IsStatement (undecorated s.text) := by
  obtain ⟨hsolid, hhead⟩ := solid_undecorated s.solid s.dots s.first.2
  refine ⟨hsolid, ?_, ?_⟩
  · rw [hhead]
    exact s.first.1
  · rw [takeWhile_undecorated s.dots]
    exact s.notBlock

def shown : Text := (content (undecorated s.text)).text

theorem content_line : content (undecorated s.text) = .statement s.shown := by
  rw [shown, s.isStatement.content, Emitted.text]

theorem solid_shown : Solid s.shown := s.isStatement.solid_text

end Statement

namespace Keyword

theorem dots (k : Keyword) : k.text.all isDot = true := by cases k <;> decide

/-- A clause may follow on the block. -/
def goesOn (k : Keyword) : Bool := k ∉ [def_, with_]

end Keyword

namespace Header

variable (h : Header)

def text : Text := h.keyword.text ++ h.rest

def line : Text := undecorated h.text

theorem solid_text : Solid h.text := h.keyword.solid.append _

theorem dots_text : h.text.all isDot = true := by
  rw [text, List.all_append, h.keyword.dots, h.dots]
  rfl

theorem takeWhile_text : h.text.takeWhile isWord = h.keyword.text :=
  takeWhile_of_bounded h.keyword.wordly h.bounded

theorem first_text {c : Char} (hc : isWord c = false) : h.text.head? ≠ some c := by
  have hsolid := h.keyword.solid
  have hword := h.keyword.wordly
  rw [text]
  cases htext : h.keyword.text with
  | nil => exact absurd (htext ▸ hsolid) not_solid_nil
  | cons d t =>
      rw [htext, List.all_cons, Bool.and_eq_true] at hword
      intro heq
      rw [Option.some.inj heq, hc] at hword
      exact Bool.false_ne_true hword.1

theorem solid_line : Solid h.line :=
  (solid_undecorated h.solid_text h.dots_text (h.first_text (by decide))).1

theorem first_line : h.line.head? ≠ some '#' := by
  rw [line, (solid_undecorated h.solid_text h.dots_text (h.first_text (by decide))).2]
  exact h.first_text (by decide)

theorem takeWhile_line : h.line.takeWhile isWord = h.keyword.text := by
  rw [line, takeWhile_undecorated h.dots_text, h.takeWhile_text]

def shown : Text := (content h.line).text

theorem solid_shown : Solid h.shown := h.solid_line.content h.first_line

def seen : Bool := (content h.line).isHeader

def code : Text := keywords (cleaned h.line)

theorem takeWhile_code : h.code.takeWhile isWord = h.keyword.text :=
  Keyword.takeWhile_line h.solid_line h.takeWhile_line

theorem emitted_continues (hk : h.keyword.continues = true) :
    content h.line = .continues (h.keyword.written h.code) := by
  refine Keyword.emitted_continues hk h.takeWhile_code fun hb => Keyword.isColonWord_line ?_
  obtain ⟨blanks, note, hrest, hblanks⟩ := h.bare hb
  have hmark : '@' ∉ h.keyword.text ++ blanks ++ [':'] := fun hmem => by
    rw [List.mem_append, List.mem_append] at hmem
    rcases hmem with (hmem | hmem) | hmem
    · exact absurd (List.all_eq_true.mp h.keyword.wordly _ hmem) (by decide)
    · exact absurd (List.all_eq_true.mp hblanks _ hmem) (by decide)
    · exact absurd hmem (by decide)
  refine ⟨blanks, undecorated note, ?_, hblanks⟩
  have happend := undecorated_append hmark note
  rw [List.append_assoc, List.append_assoc] at happend
  rw [line, text, hrest]
  exact happend.trans (by simp)

theorem content_continues (hk : h.keyword.continues = true) :
    content h.line = .continues h.shown := by
  rw [shown, h.emitted_continues hk, Emitted.text]

theorem seen_of_continues (hk : h.keyword.continues = true) : h.seen = true := by
  rw [seen, h.content_continues hk]
  rfl

theorem emitted_opens (hk : h.keyword.continues = false) : content h.line =
    if h.seen then .opens (h.keyword.written h.code) else .statement (statementText h.code) := by
  have hemitted : content h.line = if isBlockOpen h.code then .opens (h.keyword.written h.code)
      else .statement (statementText h.code) := Keyword.emitted_opens hk h.takeWhile_code
  have hseen : h.seen = isBlockOpen h.code := by
    rw [seen, hemitted]
    cases isBlockOpen h.code with
    | false => rw [if_neg Bool.false_ne_true, Emitted.isHeader]
    | true => rw [if_pos rfl, Emitted.isHeader]
  rw [hseen, hemitted]

theorem content_opens (hk : h.keyword.continues = false) (hseen : h.seen = true) :
    content h.line = .opens h.shown := by
  rw [shown, h.emitted_opens hk, hseen, if_pos rfl, Emitted.text]

theorem shown_of_seen (hseen : h.seen = true) : h.shown = h.keyword.written h.code := by
  cases hk : h.keyword.continues with
  | false => rw [shown, h.emitted_opens hk, hseen, if_pos rfl, Emitted.text]
  | true => rw [shown, h.emitted_continues hk, Emitted.text]

theorem continues_of_unseen (hseen : h.seen = false) : h.keyword.continues = false :=
  Bool.eq_false_iff.mpr fun hk => by
    rw [h.seen_of_continues hk] at hseen
    cases hseen

theorem content_unseen (hseen : h.seen = false) : content h.line = .statement h.shown := by
  rw [shown, h.emitted_opens (h.continues_of_unseen hseen), hseen, if_neg Bool.false_ne_true,
    Emitted.text]

theorem seen_of_head {hd : Head} (hline : h.line = hd.text) : h.seen = true := by
  rw [seen, hline, hd.content_text]
  split
  · rfl
  · rfl

end Header

/-! ## Trees -/

/-- What stands between the lines. -/
inductive Gap where
  | blank (t : Text) (spaces : ∀ c ∈ t, isSpace c = true) (dots : t.all isDot = true)
  | comment (blanks note : Text) (spaces : ∀ c ∈ blanks, isSpace c = true)
      (dots : (blanks ++ note).all isDot = true) (unquoted : Unquoted note)
  /-- a string of three quotes, over any number of lines -/
  | doc (q : Char) (note : Text) (quote : q ∈ ['\x22', '\x27'])
      (inner : ¬ tripled q <:+: note ++ [q, q])
      (apart : q = '\x27' → ¬ tripled '\x22' <:+: note)

/-- A sequence of statements and blocks. -/
inductive Code where
  | done
  | gap (g : Gap) (rest : Code)
  | simple (s : Statement) (rest : Code)
  | block (h : Header) (body rest : Code)
  /-- a block whose body stands behind the colon of its header -/
  | inline (h : Header) (suite : Text) (split : ∃ condition, h.rest = condition ++ ':' :: suite)
      (rest : Code)

def Gap.raw (margin : Text) : Gap → Text
  | blank t _ _ => t
  | comment blanks note _ _ _ => blanks ++ '#' :: note
  | doc q note _ _ _ => margin ++ (tripled q ++ (note ++ tripled q))

def Gap.line (margin : Text) : Gap → Text
  | blank t _ _ => t
  | comment blanks note _ _ _ => blanks ++ '#' :: undecorated note
  | doc _ _ _ _ _ => margin

namespace Code

def raws (m : Margin) (depth : Nat) : Code → List Text
  | done => []
  | gap g rest => g.raw (m.times depth) :: rest.raws m depth
  | simple s rest => (m.times depth ++ s.text) :: rest.raws m depth
  | block h body rest =>
      (m.times depth ++ h.text) :: (body.raws m (depth + 1) ++ rest.raws m depth)
  | inline h _ _ rest => (m.times depth ++ h.text) :: rest.raws m depth

def lines (m : Margin) (depth : Nat) : Code → List Text
  | done => []
  | gap g rest => g.line (m.times depth) :: rest.lines m depth
  | simple s rest => (m.times depth ++ undecorated s.text) :: rest.lines m depth
  | block h body rest =>
      (m.times depth ++ h.line) :: (body.lines m (depth + 1) ++ rest.lines m depth)
  | inline h _ _ rest => (m.times depth ++ h.line) :: rest.lines m depth

/-- Every statement in the blocks that enclose it. -/
def blocks : Code → Blocks
  | done => .done
  | gap _ rest => rest.blocks
  | simple s rest => .item s.shown rest.blocks
  | block h body rest => .block h.shown body.blocks rest.blocks
  | inline h suite _ rest => .block h.shown (.item (content suite).text .done) rest.blocks

/-- A clause that goes on, such as `else`, comes directly after a block. -/
def Chained : Bool → Code → Prop
  | _, done => True
  | after, gap _ rest => rest.Chained after
  | _, simple _ rest => rest.Chained false
  | after, block h body rest =>
      (h.keyword.continues = true → after = true) ∧ body.Chained false ∧
        rest.Chained h.keyword.goesOn
  | after, inline h _ _ rest =>
      (h.keyword.continues = true → after = true) ∧ rest.Chained h.keyword.goesOn

def HasBlock : Code → Prop
  | done => False
  | gap _ rest => rest.HasBlock
  | simple _ rest => rest.HasBlock
  | block _ _ _ | inline _ _ _ _ => True

/-- Every body stands on the lines below its header. -/
def Below : Code → Prop
  | done => True
  | gap _ rest => rest.Below
  | simple _ rest => rest.Below
  | block _ body rest => body.Below ∧ rest.Below
  | inline _ _ _ _ => False

def begins : Code → Bool
  | gap _ rest => rest.begins
  | block h _ _ | inline h _ _ _ => h.keyword.continues
  | done | simple _ _ => false

/-- At the end, a block waits for its closing brace; `waiting` if one does at the beginning. -/
def waits (waiting : Bool) : Code → Bool
  | done => waiting
  | gap _ rest => rest.waits waiting
  | simple _ rest | inline _ _ _ rest => rest.waits false
  | block h body rest => rest.waits (h.seen || body.waits false)

/-- Behind its body there is a closing brace for the block: that of a header that has been seen,
or one that a clause writes because no brace is there yet. -/
def closes (h : Header) (body rest : Code) : Bool :=
  h.seen || rest.begins && !body.waits false

def said : Code → List Event
  | done => []
  | gap _ rest => rest.said
  | simple s rest => .item s.shown :: rest.said
  | block h body rest =>
      .item h.shown :: (body.said ++ if closes h body rest then .close :: rest.said else rest.said)
  | inline h _ _ rest => .item h.shown :: rest.said

def Closed : Code → Prop
  | done => True
  | gap _ rest => rest.Closed
  | simple _ rest | inline _ _ _ rest => rest.Closed
  | block h body rest => closes h body rest = true ∧ body.Closed ∧ rest.Closed

theorem begins_of_chained {c : Code} (h : c.Chained false) : c.begins = false := by
  induction c with
  | done | simple => rfl
  | gap g rest ih => exact ih h
  | block hd body rest | inline hd suite split rest =>
      exact Bool.eq_false_iff.mpr fun hk => Bool.false_ne_true (h.1 hk)

theorem rendered_said (c : Code) (h : c.Below) : c.blocks.Rendered c.said := by
  induction c with
  | done => exact .done
  | gap g rest ih => exact ih h
  | simple s rest ih => exact .item _ (ih h)
  | block hd body rest ihbody ihrest =>
      rw [said]
      split
      · exact .closed _ (ihbody h.1) (ihrest h.2)
      · exact .left _ (ihbody h.1) (ihrest h.2)
  | inline => exact h.elim

theorem said_eq_events_iff (c : Code) (h : c.Below) : c.said = c.blocks.events ↔ c.Closed := by
  induction c with
  | done => exact iff_of_true rfl trivial
  | gap g rest ih => exact ih h
  | simple s rest ih => exact (List.cons_inj_right _).trans (ih h)
  | block hd body rest ihbody ihrest =>
      have hbody := (body.rendered_said h.1).length_le
      have hrest := (rest.rendered_said h.2).length_le
      rw [said, blocks, Blocks.events, List.cons_inj_right, Closed, ← ihbody h.1, ← ihrest h.2]
      cases hcloses : closes hd body rest with
      | false =>
          -- a brace is missing
          refine iff_of_false (fun heq => ?_) fun hclosed => Bool.false_ne_true hclosed.1
          have hlength := congrArg List.length heq
          rw [if_neg Bool.false_ne_true, List.length_append, List.length_append,
            List.length_cons] at hlength
          omega
      | true =>
          rw [if_pos rfl]
          constructor
          · intro heq
            have hlength := congrArg List.length heq
            rw [List.length_append, List.length_append, List.length_cons,
              List.length_cons] at hlength
            obtain ⟨hleft, hright⟩ := List.append_inj heq (by omega)
            exact ⟨rfl, hleft, (List.cons.inj hright).2⟩
          · rintro ⟨-, hleft, hright⟩
            rw [hleft, hright]
  | inline => exact h.elim

end Code

end VidhiArena.Browser.Transpile
