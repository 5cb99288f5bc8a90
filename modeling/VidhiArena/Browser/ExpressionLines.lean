import VidhiArena.Browser.Expressions

/-!
# Lines with an expression

A condition and an assignment, with blanks between their tokens: from the line of the
strategy to the tokens that JavaScript reads in the line that the transpiler emits for it.
-/

namespace VidhiArena.Browser.Expressions

open Foundation Foundation.BracedLines Transpile
open JavaScript (scanner)
open scoped JavaScript

variable {statement : Bool} {a b t : Text} {p q : Piece Char} {ps : List (Piece Char)}

/-! ## Tokens that are kept apart -/

/-- Without a blank in between, two tokens are neither two words nor twice the same sign. -/
def Spaced (p q : Piece Char) : Prop :=
  q.gap = [] → ¬ (IsWord p.token ∧ IsWord q.token) ∧
    ¬ (p.token = q.token ∧ p.token ∈ [['+'], ['-']])

instance : Decidable (Spaced p q) := inferInstanceAs (Decidable (_ → _))

/-- A piece that may stand behind a token, in JavaScript. -/
structure Fits (a : Text) (q : Piece Char) : Prop where
  words : IsWord a → IsWord q.token → q.gap ≠ []
  apart : q.gap ≠ [] ∨ scanner.Cut a q.token
  uncalled : a ∈ ["round", "float", "len"].map String.toList → q.token ≠ ['(']
  called : a ∈ ["abs", "int"].map String.toList → q.token = ['(']

instance : Decidable (Fits a q) :=
  decidable_of_iff ((IsWord a → IsWord q.token → q.gap ≠ []) ∧
      (q.gap ≠ [] ∨ scanner.Cut a q.token) ∧
      (a ∈ ["round", "float", "len"].map String.toList → q.token ≠ ['(']) ∧
      (a ∈ ["abs", "int"].map String.toList → q.token = ['(']))
    ⟨fun ⟨h₁, h₂, h₃, h₄⟩ => ⟨h₁, h₂, h₃, h₄⟩, fun h => ⟨h.words, h.apart, h.uncalled, h.called⟩⟩

theorem lastRun_word (h : IsWord a) : scanner.lexemes a = [a] ∧ scanner.lastRun [] a = a := by
  cases a with
  | nil => exact absurd rfl h.1
  | cons c t =>
      have hall := List.all_eq_true.mp h.2
      have hblank : BracedLines.isSpace c = false := by
        refine Bool.eq_false_iff.mpr fun hspace => ?_
        have hc := hall c List.mem_cons_self
        rw [isWord_of_isSpace hspace] at hc
        cases hc
      refine scanner.lexemes_run hblank fun run d hrun hle => ?_
      obtain ⟨u, run, rfl⟩ := List.exists_cons_of_ne_nil hrun
      have hu := hall u (hle.subset List.mem_cons_self)
      have hd := hall d (hle.subset (List.mem_append_right _ List.mem_cons_self))
      show (if isWord d then (u :: run).head?.any isWord else _) = true
      rw [if_pos hd]
      exact hu

theorem cut_word (h : IsWord a) (hb : b.head?.any isWord = false) : scanner.Cut a b := by
  cases b with
  | nil => exact Scanner.cut_nil
  | cons c b =>
      rw [Scanner.cut_cons, (lastRun_word h).2]
      have hc : isWord c = false := hb
      show (if isWord c then _ else decide (a ++ [c] ∈ JavaScript.punctuators)) = false
      rw [hc, if_neg Bool.false_ne_true, decide_eq_false_iff_not]
      intro hmem
      have hnone : ∀ p ∈ JavaScript.punctuators, p.head?.any isWord = false := by decide
      obtain ⟨u, a, rfl⟩ := List.exists_cons_of_ne_nil h.1
      have hu : isWord u = true := List.all_eq_true.mp h.2 u List.mem_cons_self
      have hfalse : isWord u = false := hnone _ hmem
      rw [hfalse] at hu
      cases hu

theorem cut_mark (h : (scanner.lastRun [] a).head?.any isWord = false) (hb : IsWord b) :
    scanner.Cut a b := by
  obtain ⟨c, b, rfl⟩ := List.exists_cons_of_ne_nil hb.1
  rw [Scanner.cut_cons]
  show (if isWord c then (scanner.lastRun [] a).head?.any isWord else _) = false
  rw [if_pos (List.all_eq_true.mp hb.2 c List.mem_cons_self)]
  exact h

theorem openers_spec : ∀ a ∈ openers, ¬ IsWord (renameWord a) ∧
    (scanner.lastRun [] (renameWord a)).head?.any isWord = false ∧
    renameWord a ∉ ["round", "float", "len", "abs", "int"].map String.toList ∧
    ∀ b ∈ openings true, (a = b ∧ a ∈ [['+'], ['-']]) ∨
      scanner.Cut (renameWord a) (renameWord b) := by
  decide +kernel

theorem closers_spec : ∀ b ∈ closers, (renameWord b).head?.any isWord = false ∧
    renameWord b ≠ ['('] ∧ scanner.Cut [')'] (renameWord b) := by
  decide +kernel

theorem callable_spec : ∀ a ∈ callable true,
    scanner.Cut (renameWord a) ['('] ∧
      renameWord a ∉ ["round", "float", "len"].map String.toList := by
  decide +kernel

theorem callable_subset : callable statement ⊆ callable true := by
  cases statement <;> decide

theorem openings_subset : openings statement ⊆ openings true := by
  cases statement <;> decide

theorem not_isWord_of_head (h : t.head?.any isWord = false) : ¬ IsWord t := by
  rintro ⟨hne, hall⟩
  obtain ⟨c, t, rfl⟩ := List.exists_cons_of_ne_nil hne
  have hc : isWord c = false := h
  rw [List.all_cons, hc] at hall
  cases hall

/-- Neighbours in a phrase fit together in JavaScript, if they are kept apart. -/
theorem Follows.fits (h : Follows statement p.token q.token) (hspaced : Spaced p q) :
    Fits (renameWord p.token) (renamePiece q) := by
  rcases h with ⟨ha, hb⟩ | ⟨ha, hb⟩ | ⟨ha, hb⟩
  · obtain ⟨hword, hlast, hother, hpair⟩ := openers_spec _ ha
    refine ⟨fun h => absurd h hword, ?_, fun h => absurd ?_ hother, fun h => absurd ?_ hother⟩
    · rcases hb with hatom | hb
      · exact .inr (by rw [renamePiece, hatom.rename]; exact cut_mark hlast hatom.1)
      · by_cases hgap : q.gap = []
        · exact .inr ((hpair _ (openings_subset hb)).resolve_left (hspaced hgap).2)
        · exact .inl hgap
    · exact List.map_subset _ (by decide) h
    · exact List.map_subset _ (by decide) h
  · obtain ⟨hhead, hparen, hcut⟩ := closers_spec _ hb
    rcases ha with hatom | ha
    · rw [hatom.rename]
      refine ⟨fun _ h => absurd h (not_isWord_of_head hhead), .inr (cut_word hatom.1 hhead),
        fun _ => hparen, fun h => absurd (List.mem_append_right _ ?_) hatom.2⟩
      have hall : ∀ f ∈ ["abs", "int"].map String.toList, f ∈ Python.functions := by decide
      exact hall _ h
    · rw [ha]
      exact ⟨fun _ h => absurd h (not_isWord_of_head hhead), .inr hcut, fun _ => hparen,
        fun h => absurd h (by decide)⟩
  · obtain ⟨hcut, hother⟩ := callable_spec _ (callable_subset ha)
    have hparen : (renamePiece q).token = ['('] := by
      rw [renamePiece, hb]
      exact renameWord_mark (t := ['(']) (by decide)
    refine ⟨fun _ h => absurd h ?_, .inr (hparen ▸ hcut), fun h => absurd h hother,
      fun _ => hparen⟩
    rw [hparen]
    decide

/-! ## A line of the strategy -/

/-- The tokens of a phrase, or of a line with one, with blanks between them. -/
structure Line (statement : Bool) (ps : List (Piece Char)) : Prop where
  blank : ∀ p ∈ ps, p.gap.all BracedLines.isSpace = true
  known : ∀ t ∈ ps.map Piece.token, Known statement t
  chain : (ps.map Piece.token).IsChain (Follows statement)
  spaced : ps.IsChain Spaced

theorem Phrase.line (h : Phrase statement (ps.map Piece.token))
    (hblank : ∀ p ∈ ps, p.gap.all BracedLines.isSpace = true) (hspaced : ps.IsChain Spaced) :
    Line statement ps :=
  ⟨hblank, h.known, h.chain, hspaced⟩

theorem known_spec : ∀ t ∈ openers ++ closers ++ callable true, Lexical t ∧ Lexical (renameWord t) ∧
    (IsWord (renameWord t) → IsWord t) := by
  decide +kernel

theorem Known.lexical (h : Known statement t) : Lexical t ∧ Lexical (renameWord t) ∧
    (IsWord (renameWord t) → IsWord t) := by
  rcases h with hatom | h
  · rw [hatom.rename]
    exact ⟨.inl hatom.1, .inl hatom.1, id⟩
  · refine known_spec t ?_
    rcases List.mem_append.mp h with h | h
    · exact List.mem_append_left _ h
    · exact List.mem_append_right _ (callable_subset h)

theorem closedUp_tokens (ps : List (Piece Char)) :
    (closedUp ps).map Piece.token = ps.map Piece.token := by
  cases ps <;> rfl

theorem closedUp_rename (ps : List (Piece Char)) :
    (closedUp ps).map renamePiece = closedUp (ps.map renamePiece) := by
  cases ps <;> rfl

namespace Line

theorem closedUp (h : Line statement ps) : Line statement (closedUp ps) := by
  cases ps with
  | nil => exact h
  | cons p ps =>
      have hspaced := List.isChain_cons.mp h.spaced
      exact ⟨List.forall_mem_cons.mpr ⟨rfl, (List.forall_mem_cons.mp h.blank).2⟩, h.known, h.chain,
        List.isChain_cons.mpr ⟨hspaced.1, hspaced.2⟩⟩

theorem token_known (h : Line statement ps) : ∀ p ∈ ps, Known statement p.token :=
  fun _ hp => h.known _ (List.mem_map_of_mem hp)

theorem laid (h : Line statement ps) : Laid ps where
  blank := h.blank
  lexical := fun _ hp => (h.token_known _ hp).lexical.1
  words := h.spaced.imp fun _ _ hspaced hp hq hgap => (hspaced hgap).1 ⟨hp, hq⟩

theorem fits (h : Line statement ps) :
    (ps.map renamePiece).IsChain fun p q => Fits p.token q := by
  have hchain := (List.isChain_map Piece.token).mp h.chain
  rw [List.isChain_map, List.isChain_iff_getElem]
  exact fun i hi => (List.isChain_iff_getElem.mp hchain i hi).fits
    (List.isChain_iff_getElem.mp h.spaced i hi)

theorem renamed_laid (h : Line statement ps) : Laid (ps.map renamePiece) where
  blank := List.forall_mem_map.mpr h.blank
  lexical := List.forall_mem_map.mpr fun p hp => (h.token_known p hp).lexical.2.1
  words := h.fits.imp fun _ _ hfits => hfits.words

theorem keywords (h : Line statement ps) :
    Transpile.keywords (spell ps) = spell (ps.map renamePiece) := keywords_spell h.laid

end Line

/-! ## Calls in a statement -/

/-- Pieces as they are after the words have been replaced. -/
structure Replaced (ps : List (Piece Char)) : Prop where
  blank : ∀ p ∈ ps, p.gap.all BracedLines.isSpace = true
  lexical : ∀ p ∈ ps, Lexical p.token
  fits : ps.IsChain fun p q => Fits p.token q

def callPath (f : Python.Function) : List Text := ["Math".toList, ['.'], f.method, ['(']]

theorem callPath_fits (f : Python.Function) (gap : Text) :
    (placed gap (callPath f)).IsChain fun p q => Fits p.token q := by
  have hfits : Fits "Math".toList ⟨[], ['.']⟩ ∧ Fits ['.'] ⟨[], f.method⟩ ∧
      Fits f.method ⟨[], ['(']⟩ := by
    cases f <;> decide +kernel
  exact .cons_cons hfits.1 (.cons_cons hfits.2.1 (.cons_cons hfits.2.2 (.singleton _)))

theorem Fits.method (h : Fits a q) {f : Python.Function} (hq : q.token = f.token) :
    Fits a ⟨q.gap, "Math".toList⟩ := by
  have hword : IsWord q.token := by
    rw [hq]
    cases f <;> decide
  have hmath : IsWord "Math".toList ∧ "Math".toList ≠ ['('] := by decide
  refine ⟨fun ha _ => h.words ha hword, h.apart.imp_right fun hcut => ?_, fun _ => hmath.2,
    fun ha => ?_⟩
  · refine cut_mark ?_ hmath.1
    obtain ⟨c, t, hc⟩ := List.exists_cons_of_ne_nil hword.1
    have hgrows : scanner.grows (scanner.lastRun [] a) c = false := by
      rw [hc] at hcut
      exact Scanner.cut_cons.mp hcut
    have hisWord : isWord c = true := List.all_eq_true.mp hword.2 c (hc ▸ List.mem_cons_self)
    have heq : scanner.grows (scanner.lastRun [] a) c =
        (scanner.lastRun [] a).head?.any isWord := if_pos hisWord
    exact heq ▸ hgrows
  · have hparen := h.called ha
    rw [hq] at hparen
    cases f <;> cases hparen

namespace Replaced

theorem laid (h : Replaced ps) : Laid ps :=
  ⟨h.blank, h.lexical, h.fits.imp fun _ _ hfits => hfits.words⟩

theorem called (h : Replaced ps) (f : Python.Function) :
    Replaced (Transpile.called f.token (callPath f) ps) where
  blank := by
    refine called_forall (fun p hp => ?_) h.blank
    exact List.forall_mem_cons.mpr ⟨hp, List.forall_mem_map.mpr fun _ _ => rfl⟩
  lexical := by
    refine called_forall (fun p _ => ?_) h.lexical
    have hall : ∀ t ∈ callPath f, Lexical t := by cases f <;> decide
    intro q hq
    refine hall _ ?_
    rw [← placed_tokens p.gap (callPath f)]
    exact List.mem_map_of_mem hq
  fits := by
    refine called_chain (fun p q hfits hq => hfits.method hq) (callPath_fits f) ?_ h.fits
    intro p q hp hfits gap x hx
    cases hx
    exact hp ▸ hfits

theorem replaceCall_uncalled (h : Replaced ps) {name replacement : String}
    (hname : name.toList ∈ ["round", "float", "len"].map String.toList) :
    replaceCall name replacement (spell ps) = spell ps := by
  have hword : ∀ t ∈ ["round", "float", "len"].map String.toList, IsWord t := by decide
  have hcall := replaceCall_spell (hword _ hname) (List.cons_ne_nil replacement.toList []) h.laid
  rw [List.flatten_singleton, called_of_uncalled (h.fits.imp fun p q hfits hp =>
    hfits.uncalled (hp ▸ hname))] at hcall
  exact hcall

theorem replaceCall_called (h : Replaced ps) (f : Python.Function) :
    replaceCallFrom f.token (callPath f).flatten [] [] (spell ps) =
      spell (Transpile.called f.token (callPath f) ps) :=
  replaceCall_spell (by cases f <;> decide) (List.cons_ne_nil _ _) h.laid

theorem calls (h : Replaced ps) : Transpile.calls (spell ps) =
    spell (Transpile.called ['i', 'n', 't'] (callPath .int)
      (Transpile.called ['a', 'b', 's'] (callPath .abs) ps)) := by
  have habs : replaceCall "abs" "Math.abs(" (spell ps) = _ := h.replaceCall_called .abs
  have hint : replaceCall "int" "Math.trunc(" (spell _) = _ :=
    (h.called .abs).replaceCall_called .int
  have hboth := (h.called .abs).called .int
  unfold Transpile.calls
  rw [habs, (h.called .abs).replaceCall_uncalled (by decide), hint,
    hboth.replaceCall_uncalled (by decide), hboth.replaceCall_uncalled (by decide)]
  rfl

end Replaced

theorem Line.replaced (h : Line statement ps) : Replaced (ps.map renamePiece) :=
  ⟨h.renamed_laid.blank, h.renamed_laid.lexical, h.fits⟩

/-! ## The tokens of a line in JavaScript -/

theorem uncommented_of_notMem (h : '/' ∉ t) : JavaScript.uncommented t = t := by
  induction t with
  | nil => rfl
  | cons c t ih =>
      obtain ⟨hc, ht⟩ := List.ne_and_not_mem_of_not_mem_cons h
      rw [JavaScript.uncommented.eq_2 _ _ fun _ heq => absurd heq.symm hc, ih ht]

/-- A token of an expression, or what closes a line. -/
def Closing (t : Text) : Prop := Lexical t ∨ t ∈ [[';'], ['\x7b']]

theorem Closing.lexemes (h : Closing t) : scanner.lexemes t = [t] := by
  have hall : ∀ m ∈ marks ++ [[';'], ['\x7b']], scanner.lexemes m = [m] := by decide +kernel
  rcases h with (hword | hmark) | h
  · exact (lastRun_word hword).1
  · exact hall t (List.mem_append_left _ hmark)
  · exact hall t (List.mem_append_right _ h)

theorem Closing.notSlash (h : Closing t) : t ≠ [] ∧ '/' ∉ t := by
  have hall : ∀ m ∈ marks ++ [[';'], ['\x7b']], m ≠ [] ∧ '/' ∉ m := by decide
  rcases h with (hword | hmark) | h
  · refine ⟨hword.1, fun hmem => ?_⟩
    exact absurd (List.all_eq_true.mp hword.2 _ hmem) (by decide)
  · exact hall t (List.mem_append_left _ hmark)
  · exact hall t (List.mem_append_right _ h)

/-- Tokens that are apart are read one by one, and nothing is a comment. -/
theorem tokens_spell (hblank : ∀ p ∈ ps, p.gap.all BracedLines.isSpace = true)
    (hclosing : ∀ p ∈ ps, Closing p.token) (hapart : ps.IsChain scanner.Apart) :
    JavaScript.tokens (spell ps) = (ps.map Piece.token).map JavaScript.classify := by
  have hslash : '/' ∉ spell ps := by
    intro hmem
    obtain ⟨p, hp, hmem⟩ := List.mem_flatMap.mp hmem
    rcases List.mem_append.mp hmem with hgap | htoken
    · exact absurd (List.all_eq_true.mp (hblank p hp) _ hgap) (by decide)
    · exact (hclosing p hp).notSlash.2 htoken
  have hlexemes := scanner.lexemes_spell ps hblank (fun p hp => (hclosing p hp).notSlash.1) hapart
  have hsingle : ∀ p ∈ ps, scanner.lexemes p.token = [p.token] :=
    fun p hp => (hclosing p hp).lexemes
  rw [JavaScript.tokens, uncommented_of_notMem hslash, hlexemes, List.flatMap_congr hsingle]
  exact congrArg (List.map _) (List.flatMap_pure_eq_map Piece.token ps)

/-! ## What is read of a statement -/

theorem Ends.cut (h : Ends t) (hb : b ∈ [[')'], [';']]) : scanner.Cut t b := by
  rcases h with hatom | rfl
  · refine cut_word hatom.1 ?_
    have hall : ∀ b ∈ [[')'], [';']], b.head?.any isWord = false := by decide
    exact hall b hb
  · have hall : ∀ b ∈ [[')'], [';']], scanner.Cut [')'] b := by decide +kernel
    exact hall b hb

theorem Ends.jsTokens (h : Ends t) : jsTokens t = [t] := by
  rcases h with hatom | rfl
  · exact hatom.jsTokens
  · decide

theorem jsTokens_eq (h : Known statement t) :
    ((if renameWord t = ['a', 'b', 's'] then ["Math", ".", "abs"].map String.toList
      else [renameWord t]).flatMap fun u =>
        if u = ['i', 'n', 't'] then ["Math", ".", "trunc"].map String.toList else [u]) =
      jsTokens t := by
  rcases h with hatom | h
  · have hne : ∀ f ∈ Python.functions, t ≠ f := fun f hf heq =>
      hatom.2 (List.mem_append_right _ (heq ▸ hf))
    rw [hatom.rename, hatom.jsTokens, if_neg (hne _ (by decide)), List.flatMap_singleton,
      if_neg (hne _ (by decide))]
  · have hall : ∀ t ∈ openers ++ closers ++ callable true,
        ((if renameWord t = ['a', 'b', 's'] then ["Math", ".", "abs"].map String.toList
          else [renameWord t]).flatMap fun u =>
            if u = ['i', 'n', 't'] then ["Math", ".", "trunc"].map String.toList else [u]) =
          jsTokens t := by
      decide +kernel
    refine hall t ?_
    rcases List.mem_append.mp h with h | h
    · exact List.mem_append_left _ h
    · exact List.mem_append_right _ (callable_subset h)

/-- A phrase as JavaScript sees it, in a statement. -/
def inStatement (ps : List (Piece Char)) : List (Piece Char) :=
  called ['i', 'n', 't'] (callPath .int) (called ['a', 'b', 's'] (callPath .abs)
    (ps.map renamePiece))

theorem Replaced.called_tokens (h : Replaced ps) (f : Python.Function)
    (hlast : ∀ t ∈ (ps.map Piece.token).getLast?, t ≠ f.token) :
    (Transpile.called f.token (callPath f) ps).map Piece.token =
      (ps.map Piece.token).flatMap fun t =>
        if t = f.token then ["Math".toList, ['.'], f.method] else [t] := by
  show (Transpile.called f.token (["Math".toList, ['.'], f.method] ++ [['(']]) ps).map _ = _
  refine Transpile.called_tokens ?_ ?_ hlast
  · cases f <;> decide
  · refine (List.isChain_map Piece.token).mpr (h.fits.imp fun p q hfits hp => hfits.called ?_)
    rw [hp]
    cases f <;> decide

theorem Ends.plain (h : Ends t) : renameWord t = t ∧ t ≠ ['a', 'b', 's'] ∧ t ≠ ['i', 'n', 't'] := by
  rcases h with hatom | rfl
  · have hne : ∀ f ∈ Python.functions, t ≠ f := fun f hf heq =>
      hatom.2 (List.mem_append_right _ (heq ▸ hf))
    exact ⟨hatom.rename, hne _ (by decide), hne _ (by decide)⟩
  · decide

theorem inStatement_tokens (h : Line statement ps)
    (hends : ∀ t ∈ (ps.map Piece.token).getLast?, Ends t) :
    (inStatement ps).map Piece.token = (ps.map Piece.token).flatMap jsTokens := by
  rcases List.eq_nil_or_concat' (ps.map Piece.token) with hnil | ⟨front, last, hlast⟩
  · rw [List.map_eq_nil_iff.mp hnil]
    rfl
  · have hwords : (ps.map renamePiece).map Piece.token = (ps.map Piece.token).map renameWord := by
      rw [List.map_map, List.map_map]
      rfl
    obtain ⟨hsame, habs, hint⟩ := (hends last (by rw [hlast, List.getLast?_concat]; rfl)).plain
    have hrenamed : (ps.map renamePiece).map Piece.token = front.map renameWord ++ [last] := by
      rw [hwords, hlast, List.map_append, List.map_singleton, hsame]
    have hfirst := h.replaced.called_tokens .abs fun t ht => by
      rw [hrenamed, List.getLast?_concat] at ht
      cases ht
      exact habs
    have hfinal : ∀ t ∈ ((called Python.Function.abs.token (callPath .abs)
        (ps.map renamePiece)).map Piece.token).getLast?, t ≠ Python.Function.int.token := by
      intro t ht
      have hne : last ≠ Python.Function.abs.token := habs
      rw [hfirst, hrenamed, List.flatMap_append, List.flatMap_singleton, if_neg hne,
        List.getLast?_concat] at ht
      cases ht
      exact hint
    have hsecond := (h.replaced.called .abs).called_tokens .int hfinal
    refine hsecond.trans ?_
    rw [hfirst, hwords, List.flatMap_map, List.flatMap_assoc]
    exact List.flatMap_congr fun t ht => jsTokens_eq (h.known t ht)

end VidhiArena.Browser.Expressions
