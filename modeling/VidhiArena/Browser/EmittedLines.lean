import VidhiArena.Browser.ExpressionLines

/-!
# The lines that are emitted

What the transpiler writes for a statement and for the head of a condition, and the tokens
that JavaScript reads there: those of the strategy, with other words and other names for the
functions.
-/

namespace VidhiArena.Browser.Expressions

open Foundation Foundation.BracedLines Transpile
open JavaScript (scanner)

variable {statement : Bool} {a b t : Text} {p q : Piece Char} {ps : List (Piece Char)}

/-! ## What is emitted for a statement -/

/-- Characters that end a statement, or begin something else. -/
def loud : Text := [';', '@', '#', '\x7b', '\x7d', '/', '\x22', '\x27', '\x60']

theorem quiet (h : Laid ps) : ∀ c ∈ spell ps, c ∉ loud := by
  have hloud : ∀ c ∈ loud, BracedLines.isSpace c = false ∧ isWord c = false :=
    forall_of_all (by decide)
  have hmarks : ∀ m ∈ marks, m.all (fun c => decide (c ∉ loud)) = true := by decide
  refine forall_spell (fun p hp c hc hmem => ?_) (fun c hc hmem => ?_)
    (fun m hm => forall_of_all (hmarks m hm)) h.lexical
  · have hblank := List.all_eq_true.mp (h.blank p hp) c hc
    rw [(hloud c hmem).1] at hblank
    cases hblank
  · rw [(hloud c hmem).2] at hc
    cases hc

theorem plain (h : Laid ps) : (spell ps).all isPlain = true := by
  refine List.all_eq_true.mpr fun c hc => decide_eq_true fun hmem => quiet h c hc ?_
  have hall : ∀ c ∈ ['\x7b', '\x7d', '/', '\x22', '\x27', '\x60'], c ∈ loud :=
    forall_of_all (by decide)
  exact hall c hmem

theorem Line.inStatement (h : Line statement ps) : Replaced (inStatement ps) :=
  (h.replaced.called .abs).called .int

theorem statementText_spell (h : Line statement ps)
    (hprint : printCall (spell (ps.map renamePiece)) = none) :
    statementText (spell (ps.map renamePiece)) = spell (inStatement ps) ++ [';'] := by
  have hquiet := quiet h.inStatement.laid
  have hlast : ∀ c ∈ loud, (spell (inStatement ps)).getLast? ≠ some c :=
    fun c hc heq => hquiet c (List.mem_of_getLast? heq) hc
  have hbegins : ∀ w : Text, w.head? = some '/' → literal w (spell (inStatement ps)) = none := by
    intro w hw
    refine Option.eq_none_iff_forall_ne_some.mpr fun rest hrest => ?_
    have hmem : '/' ∈ spell (inStatement ps) := by
      rw [eq_of_literal hrest]
      exact List.mem_append_left _ (List.mem_of_head? hw)
    exact hquiet '/' hmem (by decide)
  have hplain : printText (spell (ps.map renamePiece)) = spell (ps.map renamePiece) := by
    rw [printText, hprint]
  unfold statementText
  rw [hplain, h.replaced.calls]
  exact if_pos ⟨hlast _ (by decide), hlast _ (by decide), hlast _ (by decide), hbegins _ rfl,
    hbegins _ rfl⟩

theorem literal_cons_ne {c d : Char} (hne : d ≠ c) (w t : Text) :
    literal (d :: w) (c :: t) = none := by
  refine Option.eq_none_iff_forall_ne_some.mpr fun rest hrest => hne ?_
  exact (List.cons.inj (eq_of_literal hrest)).1.symm

theorem bounded_gap {gap : Text} {d : Char} (hgap : gap.all BracedLines.isSpace = true)
    (hd : isWord d = false) (rest : Text) : Bounded (gap ++ d :: rest) := by
  cases gap with
  | nil => exact bounded_cons.mpr hd
  | cons c gap =>
      rw [List.all_cons, Bool.and_eq_true] at hgap
      exact bounded_cons.mpr (isWord_of_isSpace hgap.1)

/-- A name that is not called is no call of `print`, whatever it begins with. -/
theorem printCall_named {x gap : Text} {d : Char} (hx : x.all isWord = true)
    (hgap : gap.all BracedLines.isSpace = true) (hword : isWord d = false)
    (hspace : BracedLines.isSpace d = false)
    (hparen : '(' ≠ d) (rest : Text) : printCall (x ++ (gap ++ d :: rest)) = none := by
  unfold printCall
  cases hprint : literal "print".toList (x ++ (gap ++ d :: rest)) with
  | none => rfl
  | some behind =>
      rw [Option.bind_some]
      have hbounded := bounded_gap hgap hword rest
      -- what is left of the name behind `print`
      obtain ⟨more, hmore, rfl⟩ : ∃ more : Text, more.all isWord = true ∧
          behind = more ++ (gap ++ d :: rest) := by
        rcases List.append_eq_append_iff.mp (eq_of_literal hprint) with
          ⟨more, hbefore, hbehind⟩ | ⟨more, rfl, hbehind⟩
        · cases more with
          | nil => exact ⟨[], rfl, hbehind.symm⟩
          | cons c more =>
              rw [hbehind] at hbounded
              have hc : isWord c = true := by
                have hall : "print".toList.all isWord = true := by decide
                rw [hbefore, List.all_append, List.all_cons, Bool.and_eq_true,
                  Bool.and_eq_true] at hall
                exact hall.2.1
              rw [show isWord c = false from hbounded] at hc
              cases hc
        · rw [List.all_append, Bool.and_eq_true] at hx
          exact ⟨more, hx.2, hbehind⟩
      cases more with
      | nil =>
          rw [List.nil_append, List.dropWhile_append_of_pos (List.all_eq_true.mp hgap),
            List.dropWhile_cons_of_neg (Bool.eq_false_iff.mp hspace)]
          exact literal_cons_ne hparen _ _
      | cons c more =>
          rw [List.all_cons, Bool.and_eq_true] at hmore
          have hc : ¬ BracedLines.isSpace c = true := fun hc => by
            rw [isWord_of_isSpace hc] at hmore
            cases hmore.1
          rw [List.cons_append, List.dropWhile_cons_of_neg hc]
          refine literal_cons_ne ?_ _ _
          rintro rfl
          exact absurd hmore.1 (by decide)

theorem inStatement_ends (h : Line statement ps)
    (hends : ∀ t ∈ (ps.map Piece.token).getLast?, Ends t) :
    ∀ t ∈ ((inStatement ps).map Piece.token).getLast?, Ends t := by
  rw [inStatement_tokens h hends]
  rcases List.eq_nil_or_concat' (ps.map Piece.token) with hnil | ⟨front, last, hlast⟩
  · rw [hnil]
    exact fun t ht => absurd ht (Option.not_mem_none t)
  · have hend : Ends last := hends last (by rw [hlast, List.getLast?_concat]; rfl)
    rw [hlast, List.flatMap_append, List.flatMap_singleton, hend.jsTokens, List.getLast?_concat]
    exact fun t ht => Option.some.inj ht ▸ hend

theorem tokens_statement (h : Line statement ps)
    (hends : ∀ t ∈ (ps.map Piece.token).getLast?, Ends t) :
    JavaScript.tokens (spell (inStatement ps) ++ [';']) =
      lex (ps.map Piece.token) ++ [.other [';']] := by
  let closing : Piece Char := ⟨[], [';']⟩
  have hspell : spell (inStatement ps) ++ [';'] = spell (inStatement ps ++ [closing]) := by
    rw [spell_append]
    rfl
  have hlexical := h.inStatement.lexical
  have hapart : (inStatement ps ++ [closing]).IsChain scanner.Apart := by
    refine (h.inStatement.fits.imp fun _ _ hfits => hfits.apart).append (.singleton _) ?_
    intro p hp q hq
    cases hq
    have hend : Ends p.token := inStatement_ends h hends p.token (by
      rw [List.getLast?_map, hp]
      rfl)
    exact .inr (hend.cut (by decide))
  rw [hspell, tokens_spell _ _ hapart, List.map_append, List.map_append,
    inStatement_tokens h hends]
  · rfl
  · exact List.forall_mem_append.mpr ⟨h.inStatement.blank, List.forall_mem_singleton.mpr rfl⟩
  · exact List.forall_mem_append.mpr ⟨fun p hp => .inl (hlexical p hp),
      List.forall_mem_singleton.mpr (.inr (by decide))⟩

/-- What a statement begins with, behind a word. -/
def leads : List Text := ["=", "+=", "-=", "."].map String.toList

theorem leads_spec : ∀ m ∈ leads,
    ∃ c w, m = c :: w ∧ isWord c = false ∧ BracedLines.isSpace c = false ∧ '(' ≠ c := by
  have hall : ∀ m ∈ leads, m ≠ [] ∧
      m.all (fun c => !isWord c && !BracedLines.isSpace c && c != '(') = true := by
    decide
  intro m hm
  obtain ⟨hne, hchars⟩ := hall m hm
  obtain ⟨c, w, rfl⟩ := List.exists_cons_of_ne_nil hne
  simp only [List.all_cons, Bool.and_eq_true, Bool.not_eq_true', bne_iff_ne] at hchars
  exact ⟨c, w, rfl, hchars.1.1.1, hchars.1.1.2, Ne.symm hchars.1.2⟩

theorem content_statement (h : Line true (p :: q :: ps)) (hp : IsWord p.token)
    (hkept : renameWord p.token = p.token) (hblock : p.token ∉ blockWords) (hq : q.token ∈ leads)
    {tail : Text} (htail : tail.all BracedLines.isSpace = true) :
    (content (spell (p :: q :: ps) ++ tail)).text =
      spell (inStatement (closedUp (p :: q :: ps))) ++ [';'] := by
  obtain ⟨c, w, hqtoken, hword, hspace, hparen⟩ := leads_spec _ hq
  have hmark : renameWord q.token = q.token := by
    have hall : ∀ m ∈ leads, renameWord m = m := by decide
    exact hall _ hq
  have hline := h.closedUp
  have hseen : keywords (cleaned (spell (p :: q :: ps) ++ tail)) =
      spell ((closedUp (p :: q :: ps)).map renamePiece) := by
    rw [h.laid.cleaned htail, hline.keywords]
  have hspell : spell ((closedUp (p :: q :: ps)).map renamePiece) =
      p.token ++ (q.gap ++ c :: (w ++ spell (ps.map renamePiece))) := by
    rw [closedUp, List.map_cons, List.map_cons, spell_cons, spell_cons, renamePiece, renamePiece,
      hkept, hmark, hqtoken]
    rfl
  have hgap := h.blank q (List.mem_cons_of_mem p List.mem_cons_self)
  have hfirst : (spell ((closedUp (p :: q :: ps)).map renamePiece)).takeWhile isWord =
      p.token := by
    rw [hspell]
    exact takeWhile_of_bounded hp.2 (bounded_gap hgap hword _)
  have hprint : printCall (spell ((closedUp (p :: q :: ps)).map renamePiece)) = none := by
    rw [hspell]
    exact printCall_named hp.2 hgap hword hspace hparen _
  rw [content, hseen, emitted_statement (by rw [hfirst]; exact hblock), Emitted.text,
    statementText_spell hline hprint]

/-! ## What is emitted for a condition -/

/-- What stands in front of a condition, with its parenthesis. -/
def opening : Keyword → List (Piece Char)
  | .if_ => [⟨[], "if".toList⟩, ⟨[' '], ['(']⟩]
  | .elif_ => [⟨[], "else".toList⟩, ⟨[' '], "if".toList⟩, ⟨[' '], ['(']⟩]
  | .while_ => [⟨[], "while".toList⟩, ⟨[' '], ['(']⟩]
  | _ => []

theorem spell_opening : spell (opening .if_) = "if (".toList ∧
    spell (opening .elif_) = "else if (".toList ∧ spell (opening .while_) = "while (".toList := by
  decide

theorem opening_spec : ∀ k ∈ [Keyword.if_, .elif_, .while_],
    (∀ p ∈ opening k, p.gap.all BracedLines.isSpace = true) ∧ (∀ p ∈ opening k, Lexical p.token) ∧
      (opening k).IsChain scanner.Apart ∧ ∀ p ∈ (opening k).getLast?, p.token = ['('] := by
  decide +kernel

theorem dropWord_spell (h : Laid (p :: ps)) (hgap : p.gap ≠ []) (word t : Text) :
    dropWord word (word ++ (spell (p :: ps) ++ t)) = spell (closedUp (p :: ps)) ++ t := by
  have hspace : (spell (p :: ps) ++ t).head?.any BracedLines.isSpace = true := by
    have hblank := h.blank p List.mem_cons_self
    obtain ⟨c, gap, hcons⟩ := List.exists_cons_of_ne_nil hgap
    rw [hcons, List.all_cons, Bool.and_eq_true] at hblank
    rw [spell_cons, hcons]
    exact hblank.1
  rw [dropWord, literal_append, Option.bind_some, some1, if_pos hspace, h.dropWhile]
  rfl

theorem trim_closedUp (h : Laid (p :: ps)) (ht : t.all BracedLines.isSpace = true) :
    trim (spell (closedUp (p :: ps)) ++ t) = spell (closedUp (p :: ps)) :=
  h.laid_closedUp.trim ht

theorem dropColon_concat (t : Text) : dropColon (t ++ [':']) = t := by
  rw [dropColon, List.getLast?_concat, if_pos rfl, List.dropLast_concat]

theorem written_condition {hd : Head} (hk : hd.keyword ∈ [Keyword.if_, .elif_, .while_])
    (h : Line statement (p :: ps)) (hgap : p.gap ≠ []) (ht : t.all BracedLines.isSpace = true)
    (hrest : hd.rest = spell (p :: ps) ++ t) :
    hd.written = spell (opening hd.keyword) ++
      (spell (closedUp ((p :: ps).map renamePiece)) ++ ") \x7b".toList) := by
  have hbounded : Bounded t := by
    cases t with
    | nil => exact bounded_nil
    | cons c t =>
        rw [List.all_cons, Bool.and_eq_true] at ht
        exact bounded_cons.mpr (isWord_of_isSpace ht.1)
  have hwords : hd.words = spell ((p :: ps).map renamePiece) ++ t := by
    rw [Head.words, hrest, keywords_append hbounded, h.keywords, keywords_of_spaces ht]
  have hdrop : ∀ word u : Text, dropWord word (word ++ (hd.words ++ u)) =
      spell (closedUp ((p :: ps).map renamePiece)) ++ (t ++ u) := by
    intro word u
    rw [hwords, List.append_assoc]
    exact dropWord_spell h.renamed_laid hgap word (t ++ u)
  have htrim : trim (spell (closedUp ((p :: ps).map renamePiece)) ++ t) =
      spell (closedUp ((p :: ps).map renamePiece)) := trim_closedUp h.renamed_laid ht
  have hplain : ∀ word : Text, trim (dropWord word (word ++ hd.words)) =
      spell (closedUp ((p :: ps).map renamePiece)) := by
    intro word
    have hnil := hdrop word []
    rw [List.append_nil, List.append_nil] at hnil
    rw [hnil, htrim]
  have hseen := hd.dropLast_seen
  obtain ⟨hif, helse, hwhile⟩ := spell_opening
  simp only [List.mem_cons, List.not_mem_nil, or_false] at hk
  rcases hk with hk | hk | hk
  · rw [hk] at hseen
    have hwritten : hd.written = "if (".toList ++
        trim (dropWord "if".toList hd.seen.dropLast) ++ ") \x7b".toList := by
      rw [Head.written, hk]
      rfl
    rw [hwritten, hk, hseen, Keyword.text, hplain, hif, List.append_assoc]
  · have helif : trim (dropColon (dropWord "elif".toList hd.seen)) =
        spell (closedUp ((p :: ps).map renamePiece)) := by
      have hcolon := hdrop "elif".toList [':']
      have hline : hd.seen = "elif".toList ++ (hd.words ++ [':']) := by
        rw [Head.seen, hk]
        rfl
      rw [hline, hcolon, ← List.append_assoc, dropColon_concat, htrim]
    have hwritten : hd.written = "else if (".toList ++
        trim (dropColon (dropWord "elif".toList hd.seen)) ++ ") \x7b".toList := by
      rw [Head.written, hk]
      rfl
    rw [hwritten, hk, helif, helse, List.append_assoc]
  · rw [hk] at hseen
    have hwritten : hd.written = "while (".toList ++
        trim (dropWord "while".toList hd.seen.dropLast) ++ ") \x7b".toList := by
      rw [Head.written, hk]
      rfl
    rw [hwritten, hk, hseen, Keyword.text, hplain, hwhile, List.append_assoc]


theorem cut_open (b : Text) : scanner.Cut ['('] b := by
  cases b with
  | nil => exact Scanner.cut_nil
  | cons c b =>
      rw [Scanner.cut_cons]
      have hnone : ∀ p ∈ JavaScript.punctuators, p.head? ≠ some '(' := by decide
      show (if isWord c then _ else decide (['(', c] ∈ JavaScript.punctuators)) = false
      split
      · rfl
      · exact decide_eq_false fun hmem => hnone _ hmem rfl

theorem jsTokens_condition (h : Known false t) : jsTokens t = [renameWord t] := by
  rcases h with hatom | h
  · rw [hatom.jsTokens, hatom.rename]
  · have hall : ∀ t ∈ openers ++ closers ++ callable false, jsTokens t = [renameWord t] := by
      decide
    exact hall t h

/-- The tokens of a condition, behind those in front of its parenthesis. -/
theorem tokens_condition (h : Line false ps)
    (hends : ∀ t ∈ (ps.map Piece.token).getLast?, Ends t) {opening : List (Piece Char)}
    (hblank : ∀ p ∈ opening, p.gap.all BracedLines.isSpace = true)
    (hlexical : ∀ p ∈ opening, Lexical p.token)
    (hopening : opening.IsChain scanner.Apart) (hparen : ∀ p ∈ opening.getLast?, p.token = ['(']) :
    JavaScript.tokens
        (spell opening ++ (spell (closedUp (ps.map renamePiece)) ++ ") \x7b".toList)) =
      (opening.map Piece.token).map JavaScript.classify ++
        (lex (ps.map Piece.token) ++ [.rightParen, .other ['\x7b']]) := by
  let closing : List (Piece Char) := [⟨[], [')']⟩, ⟨[' '], ['\x7b']⟩]
  have hline := h.closedUp
  have hspell : spell opening ++ (spell (closedUp (ps.map renamePiece)) ++ ") \x7b".toList) =
      spell (opening ++ ((closedUp ps).map renamePiece ++ closing)) := by
    rw [closedUp_rename, spell_append, spell_append]
    rfl
  have hwords : ((closedUp ps).map renamePiece).map Piece.token =
      (ps.map Piece.token).map renameWord := by
    rw [closedUp_rename, closedUp_tokens, List.map_map, List.map_map]
    rfl
  have hlex : ((ps.map Piece.token).map renameWord).map JavaScript.classify =
      lex (ps.map Piece.token) := by
    rw [lex, List.flatMap_congr fun t ht => jsTokens_condition (h.known t ht)]
    exact congrArg (List.map _) (List.flatMap_pure_eq_map renameWord _).symm
  have hinner : ((closedUp ps).map renamePiece ++ closing).IsChain scanner.Apart := by
    refine (hline.fits.imp fun _ _ hfits => hfits.apart).append ?_ fun p hp q hq => ?_
    · exact .cons_cons (.inl (List.cons_ne_nil _ _)) (.singleton _)
    · cases hq
      have hend : Ends p.token := by
        have hmem : p.token ∈ ((ps.map Piece.token).map renameWord).getLast? := by
          rw [← hwords, List.getLast?_map, hp]
          rfl
        rw [List.getLast?_map, Option.mem_def, Option.map_eq_some_iff] at hmem
        obtain ⟨t, ht, heq⟩ := hmem
        have hend := hends t ht
        rwa [← heq, hend.plain.1]
      exact .inr (hend.cut (by decide))
  have hapart : (opening ++ ((closedUp ps).map renamePiece ++ closing)).IsChain scanner.Apart := by
    refine hopening.append hinner fun p hp q _ => .inr ?_
    rw [hparen p hp]
    exact cut_open _
  rw [hspell, tokens_spell _ _ hapart, List.map_append, List.map_append, List.map_append, hwords,
    List.map_append, hlex]
  · rfl
  · exact List.forall_mem_append.mpr ⟨hblank, List.forall_mem_append.mpr
      ⟨hline.renamed_laid.blank, List.forall_mem_cons.mpr
        ⟨rfl, List.forall_mem_singleton.mpr rfl⟩⟩⟩
  · exact List.forall_mem_append.mpr ⟨fun p hp => .inl (hlexical p hp),
      List.forall_mem_append.mpr ⟨fun p hp => .inl (hline.renamed_laid.lexical p hp),
        List.forall_mem_cons.mpr ⟨.inl (.inr (by decide)),
          List.forall_mem_singleton.mpr (.inr (by decide))⟩⟩⟩

end VidhiArena.Browser.Expressions
