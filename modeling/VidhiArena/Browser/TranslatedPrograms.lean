import VidhiArena.Browser.Translation

/-!
# Translated programs

The lines of a source, each of which spells a statement or the head of a block, and what
JavaScript reads in the output of the transpiler.
-/

namespace VidhiArena.Browser.Python

open Foundation Foundation.BracedLines Transpile Expressions
open scoped JavaScript

variable {statement extrema : Bool} {ts : List Text} {t : Text} {ps : List (Piece Char)}

/-! ## Lines -/

/-- What stands between two tokens, and around a line. -/
def isBlank (c : Char) : Bool := c ∈ [' ', '\t', '\x0c']

theorem isSpace_of_isBlank {t : Text} (h : t.all isBlank = true) :
    t.all BracedLines.isSpace = true := by
  refine List.all_eq_true.mpr fun c hc => ?_
  have hall : ∀ c ∈ [' ', '\t', '\x0c'], BracedLines.isSpace c = true :=
    forall_of_all (by decide)
  exact hall c (of_decide_eq_true (List.all_eq_true.mp h c hc))

/-- These tokens with blanks between them. Two words, and two signs that are the same, need one. -/
structure Written (ts : List Text) (ps : List (Piece Char)) : Prop where
  tokens : ps.map Piece.token = ts
  blank : ∀ p ∈ ps, p.gap.all isBlank = true
  spaced : ps.IsChain Spaced

theorem Written.line (h : Written ts ps) (hphrase : Phrase statement ts) : Line statement ps :=
  Phrase.line (h.tokens ▸ hphrase) (fun p hp => isSpace_of_isBlank (h.blank p hp)) h.spaced

def Statement.Line (a : Statement) (t : Text) : Prop :=
  ∃ ps tail, Written a.tokens ps ∧ tail.all isBlank = true ∧ t = spell ps ++ tail

theorem Statement.Line.undecorated {a : Statement} (h : a.Line t) (ha : a.portable extrema = true) :
    Transpile.undecorated t = t := by
  obtain ⟨ps, tail, hwritten, htail, rfl⟩ := h
  refine undecorated_of_notMem fun hmem => ?_
  rcases List.mem_append.mp hmem with hmem | hmem
  · exact quiet (hwritten.line (a.phrase ha)).laid _ hmem (by decide)
  · exact absurd (List.all_eq_true.mp htail _ hmem) (by decide)

/-- What is emitted for a statement is its image, and leaves no brace open. -/
theorem Statement.Line.content {a : Statement} (h : a.Line t) (ha : a.portable extrema = true) :
    JavaScript.statement (Transpile.content t).text = some a.image ∧
      effect (Transpile.content t).text = some false ∧
      JavaScript.isComment (Transpile.content t).text = false := by
  obtain ⟨ps, tail, hwritten, htail, rfl⟩ := h
  have hphrase := a.phrase ha
  have hline := hwritten.line hphrase
  obtain ⟨w, m, ts, htokens, hword, hkept, hblock, hlead⟩ := a.leads
  have hpieces := hwritten.tokens
  rw [htokens] at hpieces
  obtain ⟨p, ps, rfl, hp, hpieces⟩ := List.map_eq_cons_iff.mp hpieces
  obtain ⟨q, ps, rfl, hq, -⟩ := List.map_eq_cons_iff.mp hpieces
  subst hp hq
  have htext := content_statement hline hword hkept hblock hlead (isSpace_of_isBlank htail)
  have hseen := (closedUp_tokens (p :: q :: ps)).trans hwritten.tokens
  have hlex := tokens_statement hline.closedUp (hseen.symm ▸ hphrase.ends)
  rw [hseen] at hlex
  have hquiet := quiet hline.closedUp.inStatement.laid
  refine ⟨a.reads ha (htext ▸ hlex), ?_, ?_⟩
  · have hplain : (spell (inStatement (closedUp (p :: q :: ps))) ++ [';']).all isPlain = true := by
      rw [List.all_append, plain hline.closedUp.inStatement.laid]
      decide
    rw [htext]
    exact (calm_of_plain hplain).effect
  · have hnone : literal "/*".toList (Transpile.content (spell (p :: q :: ps) ++ tail)).text =
        none := by
      refine Option.eq_none_iff_forall_ne_some.mpr fun rest hrest => ?_
      have hslash : '/' ∈ spell (inStatement (closedUp (p :: q :: ps))) ++ [';'] := by
        rw [← htext, eq_of_literal hrest]
        exact List.mem_append_left _ (by decide)
      rcases List.mem_append.mp hslash with hslash | hslash
      · exact hquiet _ hslash (by decide)
      · exact absurd hslash (by decide)
    rw [JavaScript.isComment, hnone]
    rfl

/-- A header that spells the head of a clause; a blank stands behind the first word. -/
structure Clause.Head (c : Clause) (h : Transpile.Head) : Prop where
  keyword : h.keyword = c.keyword
  condition : ∀ e, c.condition = some e → ∃ p ps tail, Written e.tokens (p :: ps) ∧ p.gap ≠ [] ∧
    tail.all isBlank = true ∧ h.rest = spell (p :: ps) ++ tail

/-- What is emitted for the head of a clause is its image, and opens a block. -/
theorem Clause.Head.content {c : Clause} {h : Transpile.Head} (hhead : c.Head h)
    (hc : c.portable extrema = true) :
    JavaScript.clause (Transpile.content h.text).text = some c.image ∧
      effect (Transpile.content h.text).text = some true := by
  rw [h.text_content]
  cases hcondition : c.condition with
  | none =>
      have helse : c = .else_ := by
        cases c <;> first | rfl | cases hcondition
      subst helse
      have hwritten : h.written = "else \x7b".toList := by
        rw [Transpile.Head.written, hhead.keyword]
        rfl
      have htokens : JavaScript.tokens "else \x7b".toList =
          [.name "else".toList, .other ['\x7b']] := by
        decide +kernel
      rw [hwritten]
      refine ⟨?_, by decide +kernel⟩
      rw [JavaScript.clause, if_pos htokens]
      rfl
  | some e =>
      have he : e.portable false extrema = true := by
        rw [portable, hcondition] at hc
        exact hc
      have hphrase := e.phrase he
      obtain ⟨p, ps, tail, hwritten, hgap, htail, hrest⟩ := hhead.condition e hcondition
      have hline := hwritten.line hphrase
      have hk : h.keyword ∈ [Keyword.if_, .elif_, .while_] := by
        rw [hhead.keyword]
        cases c with
        | else_ => cases hcondition
        | if_ e => exact List.mem_cons_self
        | elif_ e => exact List.mem_cons_of_mem _ List.mem_cons_self
        | while_ e => exact List.mem_cons_of_mem _ (List.mem_cons_of_mem _ List.mem_cons_self)
      have htext := written_condition hk hline hgap (isSpace_of_isBlank htail) hrest
      obtain ⟨hblank, hlexical, hapart, hparen⟩ := opening_spec _ hk
      have hlex := tokens_condition hline (hwritten.tokens.symm ▸ hphrase.ends) hblank hlexical
        hapart hparen
      rw [hwritten.tokens, hhead.keyword] at hlex
      rw [hhead.keyword] at htext
      refine ⟨Clause.reads hcondition hc (htext ▸ hlex), ?_⟩
      have hall : ∀ k ∈ [Keyword.if_, .elif_, .while_],
          (spell (opening k)).all isPlain = true := by
        decide
      have hplain : (spell (opening c.keyword) ++
          spell (closedUp ((p :: ps).map renamePiece))).all isPlain = true := by
        rw [← closedUp_rename, List.all_append, plain hline.closedUp.renamed_laid,
          hall _ (hhead.keyword ▸ hk)]
        rfl
      rw [htext, ← List.append_assoc]
      exact (calm_of_plain hplain).effect_opens

/-! ## Programs -/

/-- The lines of a source spell the statements and the clauses of a program. -/
inductive Spells : Code → Flow Statement Clause → Prop
  | done : Spells .done .done
  | gap (g : Gap) {rest : Code} {f : Flow Statement Clause} (h : Spells rest f) :
      Spells (.gap g rest) f
  | simple {s : Transpile.Statement} {a : Statement} {rest : Code} {f : Flow Statement Clause}
      (ha : a.Line s.text) (h : Spells rest f) : Spells (.simple s rest) (.simple a f)
  | block {h : Header} {hd : Transpile.Head} {c : Clause} {body rest : Code}
      {fbody frest : Flow Statement Clause} (hline : h.line = hd.text) (hc : c.Head hd) (hbody : Spells body fbody) (hrest : Spells rest frest) :
      Spells (.block h body rest) (.block c fbody frest)

/-- Every statement and every clause is portable. -/
def Portable (extrema : Bool) (f : Flow Statement Clause) : Prop :=
  f.All (fun a => a.portable extrema = true) (fun c => c.portable extrema = true)

/-- Every body stands below its header, and every header is seen. -/
theorem Spells.closed {c : Code} {f : Flow Statement Clause} (h : Spells c f) :
    c.Below ∧ c.Closed := by
  induction h with
  | done => exact ⟨trivial, trivial⟩
  | gap g h ih => exact ih
  | simple ha h ih => exact ih
  | @block h hd c body rest fbody frest hline hc hbody hrest ihbody ihrest =>
      refine ⟨⟨ihbody.1, ihrest.1⟩, ?_, ihbody.2, ihrest.2⟩
      rw [Code.closes, h.seen_of_head hline, Bool.true_or]

theorem Spells.parse {c : Code} {f : Flow Statement Clause} (h : Spells c f)
    (hportable : Portable extrema f) :
    JavaScript.parse c.blocks = some (f.map Statement.image Clause.image) ∧ c.blocks.Legible := by
  induction h with
  | done => exact ⟨rfl, trivial⟩
  | gap g h ih => exact ih hportable
  | @simple s a rest f ha h ih =>
      obtain ⟨hparse, hlegible⟩ := ih hportable.2
      obtain ⟨hstatement, heffect, hcomment⟩ := ha.content hportable.1
      have hblocks : (Code.simple s rest).blocks =
          .item (Transpile.content s.text).text rest.blocks := by
        rw [Code.blocks, Statement.shown, ha.undecorated hportable.1]
      rw [hblocks]
      refine ⟨?_, heffect, hlegible⟩
      rw [JavaScript.parse, if_neg (Bool.eq_false_iff.mp hcomment), hstatement, Option.bind_some,
        hparse]
      rfl
  | @block h hd c body rest fbody frest hline hc hbody hrest ihbody ihrest =>
      obtain ⟨hclause, heffect⟩ := hc.content hportable.1
      obtain ⟨hparse, hlegible⟩ := ihbody hportable.2.1
      obtain ⟨hparse', hlegible'⟩ := ihrest hportable.2.2
      have hshown : h.shown = (Transpile.content hd.text).text := by rw [Header.shown, hline]
      rw [Code.blocks, hshown]
      refine ⟨?_, heffect, hlegible, hlegible'⟩
      rw [JavaScript.parse, hclause, Option.bind_some, hparse, Option.bind_some, hparse']
      rfl

theorem transpiled_events {p : Program} (hlabel : p.label = Program.mark) (hbelow : p.body.Below)
    (hclosed : p.body.Closed) (hwide : p.body.HasBlock → 4 ≤ p.margin.columns) :
    ((_transpile p.text).splitOn '\n').flatMap lineEvents =
      .item Program.mark :: p.body.blocks.events := by
  have hmarked := p.marked_of_label (hlabel.trans (List.append_nil _).symm)
  have hsaid : p.said = .item Program.mark :: p.body.blocks.events := by
    rw [p.said_of_wide hmarked hbelow hwide, hlabel, (p.body.said_eq_events_iff hbelow).mpr hclosed]
  have hout : out p.seen ≠ [] := by
    intro hnil
    have hread := p.out_seen
    rw [hnil, hsaid] at hread
    cases hread
  have hseen : p.seen ≠ [] := List.append_ne_nil_of_right_ne_nil _ (List.cons_ne_nil _ _)
  rw [_transpile, p.stripped_text, List.splitOn_intercalate _ p.seen_oneLine hseen,
    List.splitOn_intercalate _ (out_oneLine p.seen_oneLine) hout, p.out_seen, hsaid]

theorem Spells.program {p : Program} {f : Flow Statement Clause} (h : Spells p.body f)
    (hlabel : p.label = Program.mark) (hportable : Portable extrema f)
    (hwide : p.body.HasBlock → 4 ≤ p.margin.columns) :
    JavaScript.program (_transpile p.text) = some (f.map Statement.image Clause.image) := by
  obtain ⟨hparse, hlegible⟩ := h.parse hportable
  have hmark : (Blocks.item Program.mark p.body.blocks).Legible := ⟨by decide, hlegible⟩
  have hread := Blocks.ofLines_eq hmark (transpiled_events hlabel h.closed.1 h.closed.2 hwide)
  have hcomment : JavaScript.isComment Program.mark = true := by decide
  rw [JavaScript.program, hread, Option.bind_some, JavaScript.parse, if_pos hcomment]
  exact hparse

def countName : Name := ⟨"s0".toList, by decide, by decide, by decide, by decide⟩

def positionName : Name := ⟨"my_position".toList, by decide, by decide, by decide, by decide⟩

def one : Literal := ⟨"1".toList, 1, by decide⟩

def zero : Literal := ⟨"0".toList, 0, by decide⟩

/-- An operand is an expression of any level. -/
def Expr.whole (e : Expr .primary) : Expr .disjunction := .lift (by decide) e

def counting : Flow Statement Clause :=
  .simple (.assign (.field countName) (.change .plus) (Expr.literal one).whole)
    (.block (.while_ (.lift (by decide) (.compare (.lift (by decide) (.field positionName))
      (.last .lt (.lift (by decide) (.literal zero))))))
      (.simple (.order (.market .buy (Expr.literal one).whole))
        (.simple (.assign (.field positionName) (.change .plus) (Expr.literal one).whole) .done))
      .done)

def countingProgram : Program :=
  { sellWhenLong ⟨"    ".toList, forall_of_all (by decide), by decide⟩ with
    body :=
      .simple ⟨"state.s0 += 1".toList, by decide, by decide, by decide, by decide,
        .of_forall (forall_of_all (by decide))⟩ (.block
      { keyword := .while_
        rest := " state.my_position < 0:  # short".toList
        bounded := rfl
        bare := fun hbare => absurd hbare (by decide)
        dots := by decide
        unquoted := .of_forall (forall_of_all (by decide)) }
      (.simple ⟨"orders.market_buy(1)".toList, by decide, by decide, by decide, by decide,
        .of_forall (forall_of_all (by decide))⟩
      (.simple ⟨"state.my_position += 1".toList, by decide, by decide, by decide, by decide,
        .of_forall (forall_of_all (by decide))⟩ .done)) .done)
    chained := ⟨fun h => absurd h (by decide), trivial, trivial⟩
    filled := ⟨fun h => (nomatch h), trivial, trivial⟩ }

def whileShort : Transpile.Head where
  keyword := .while_
  rest := " state.my_position < 0".toList
  comment := "  # short".toList
  bounded := rfl
  bare := by decide
  coded := by decide
  commented := .inr ⟨"  ".toList, " short".toList, rfl, by decide, by decide⟩
  dots := by decide

theorem counting_spelled : Spells countingProgram.body counting := by
  refine .simple ⟨[⟨[], "state".toList⟩, ⟨[], ['.']⟩, ⟨[], "s0".toList⟩, ⟨[' '], "+=".toList⟩,
    ⟨[' '], ['1']⟩], [], ⟨rfl, by decide, by decide⟩, rfl, rfl⟩
    (.block (show _ = whileShort.text by decide) ⟨rfl, fun e he => ?_⟩
    (.simple ⟨[⟨[], "orders".toList⟩, ⟨[], ['.']⟩, ⟨[], "market_buy".toList⟩, ⟨[], ['(']⟩,
      ⟨[], ['1']⟩, ⟨[], [')']⟩], [], ⟨rfl, by decide, by decide⟩, rfl, rfl⟩
    (.simple ⟨[⟨[], "state".toList⟩, ⟨[], ['.']⟩, ⟨[], "my_position".toList⟩,
      ⟨[' '], "+=".toList⟩, ⟨[' '], ['1']⟩], [], ⟨rfl, by decide, by decide⟩, rfl, rfl⟩ .done))
    .done)
  cases he
  exact ⟨⟨[' '], "state".toList⟩, [⟨[], ['.']⟩, ⟨[], "my_position".toList⟩, ⟨[' '], ['<']⟩,
    ⟨[' '], ['0']⟩], [], ⟨rfl, by decide, by decide⟩, by decide, rfl, rfl⟩

/-- Two shares short, and nothing else. -/
def short : Store Int := ⟨fun x => if x = fieldName "my_position".toList then -2 else 0, []⟩

def bought : Store Int :=
  ((((short.set (fieldName "s0".toList) 1).submit "market_buy".toList [1]).set
    (fieldName "my_position".toList) (-1)).submit "market_buy".toList [1]).set
    (fieldName "my_position".toList) 0

end VidhiArena.Browser.Python
