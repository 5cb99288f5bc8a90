import VidhiArena.Browser.SourceLines
import VidhiArena.Foundation.Lexemes

/-!
# Words and symbols of a line

What the regular expressions make of a line that consists of words and symbols with blanks
between them. The words of Python are replaced one by one; a function that is called loses
the blanks in front of the parenthesis.
-/

namespace VidhiArena.Browser.Transpile

open Foundation Foundation.BracedLines

variable {word replacement run gap a b t : Text} {p q : Piece Char} {ps : List (Piece Char)}

/-! ## Lines of pieces -/

def IsWord (t : Text) : Prop := t ≠ [] ∧ t.all isWord = true

instance : Decidable (IsWord t) := inferInstanceAs (Decidable (_ ∧ _))

/-- The symbols of expressions, of both languages. -/
def marks : List Text :=
  ["(", ")", ",", ".", ":", "+", "-", "*", "=", "+=", "-=", "==", "!=", "<", "<=", ">", ">=", "!",
    "&&", "||"].map String.toList

theorem marks_spec : ∀ m ∈ marks,
    m ≠ [] ∧ m.all (fun c => !isWord c && !BracedLines.isSpace c) = true ∧
      (m.head? = some '(' → m = ['(']) := by
  decide

def Lexical (t : Text) : Prop := IsWord t ∨ t ∈ marks

instance : Decidable (Lexical t) := inferInstanceAs (Decidable (_ ∨ _))

/-- Blanks, and words and symbols; no two words touch each other. -/
structure Laid (ps : List (Piece Char)) : Prop where
  blank : ∀ p ∈ ps, p.gap.all BracedLines.isSpace = true
  lexical : ∀ p ∈ ps, Lexical p.token
  words : ps.IsChain fun p q => IsWord p.token → IsWord q.token → q.gap ≠ []

theorem Laid.tail (h : Laid (p :: ps)) : Laid ps :=
  ⟨fun q hq => h.blank q (List.mem_cons_of_mem p hq),
    fun q hq => h.lexical q (List.mem_cons_of_mem p hq), h.words.tail⟩

theorem Lexical.ne_nil (h : Lexical t) : t ≠ [] := h.elim And.left fun h => (marks_spec t h).1

theorem not_isWord_of_mark (h : t ∈ marks) : t.all (fun c => !isWord c) = true := by
  refine List.all_eq_true.mpr fun c hc => ?_
  have hall := List.all_eq_true.mp (marks_spec t h).2.1 c hc
  exact (Bool.and_eq_true_iff.mp hall).1

theorem spell_cons : spell (p :: ps) = p.gap ++ (p.token ++ spell ps) := by
  rw [spell, List.flatMap_cons, Piece.text, List.append_assoc, spell]

theorem Laid.bounded (h : Laid (p :: ps)) (hp : IsWord p.token) : Bounded (spell ps) := by
  cases ps with
  | nil => rfl
  | cons q ps =>
      have hblank := h.blank q (List.mem_cons_of_mem p List.mem_cons_self)
      rw [spell_cons]
      cases hgap : q.gap with
      | cons c g =>
          rw [hgap, List.all_cons, Bool.and_eq_true] at hblank
          exact bounded_cons.mpr (isWord_of_isSpace hblank.1)
      | nil =>
          have hmark : q.token ∈ marks :=
            (h.lexical q (List.mem_cons_of_mem p List.mem_cons_self)).resolve_left fun hq =>
              (List.isChain_cons_cons.mp h.words).1 hp hq hgap
          have hall := not_isWord_of_mark hmark
          cases htoken : q.token with
          | nil => exact absurd htoken (marks_spec _ hmark).1
          | cons c t =>
              rw [htoken, List.all_cons, Bool.and_eq_true, Bool.not_eq_true'] at hall
              exact bounded_cons.mpr hall.1

/-- What holds of blanks, of the characters of words and of those of symbols. -/
theorem forall_spell {P : Char → Prop} (hgap : ∀ p ∈ ps, ∀ c ∈ p.gap, P c)
    (hword : ∀ c, isWord c = true → P c) (hmark : ∀ m ∈ marks, ∀ c ∈ m, P c)
    (h : ∀ p ∈ ps, Lexical p.token) : ∀ c ∈ spell ps, P c := by
  intro c hc
  obtain ⟨p, hp, hc⟩ := List.mem_flatMap.mp hc
  rcases List.mem_append.mp hc with hc | hc
  · exact hgap p hp c hc
  · rcases h p hp with htoken | htoken
    · exact hword c (List.all_eq_true.mp htoken.2 c hc)
    · exact hmark _ htoken c hc

/-! ## The ends of a line -/

theorem Lexical.solid (h : Lexical t) : ∀ c ∈ t, BracedLines.isSpace c = false := by
  intro c hc
  rcases h with hword | hmark
  · have hisWord := List.all_eq_true.mp hword.2 c hc
    refine Bool.eq_false_iff.mpr fun hspace => ?_
    rw [isWord_of_isSpace hspace] at hisWord
    cases hisWord
  · have hall := List.all_eq_true.mp (marks_spec t hmark).2.1 c hc
    rw [Bool.and_eq_true, Bool.not_eq_true', Bool.not_eq_true'] at hall
    exact hall.2

/-- The pieces without the blanks in front of them. -/
def closedUp : List (Piece Char) → List (Piece Char)
  | [] => []
  | p :: ps => ⟨[], p.token⟩ :: ps

theorem Laid.dropWhile (h : Laid (p :: ps)) (t : Text) :
    (spell (p :: ps) ++ t).dropWhile BracedLines.isSpace = spell (closedUp (p :: ps)) ++ t := by
  have hlexical := h.lexical p List.mem_cons_self
  obtain ⟨c, u, hcons⟩ := List.exists_cons_of_ne_nil hlexical.ne_nil
  have hc := hlexical.solid c (hcons ▸ List.mem_cons_self)
  rw [spell_cons, closedUp, spell_cons, List.append_assoc,
    List.dropWhile_append_of_pos (List.all_eq_true.mp (h.blank p List.mem_cons_self)), hcons]
  exact List.dropWhile_cons_of_neg (Bool.eq_false_iff.mp hc)

theorem spell_last (hne : ps ≠ []) (h : ∀ p ∈ ps, Lexical p.token) :
    ∃ a c, spell ps = a ++ [c] ∧ BracedLines.isSpace c = false := by
  obtain ⟨front, last, rfl⟩ := (List.eq_nil_or_concat' ps).resolve_left hne
  have hlexical := h last (List.mem_append_right _ List.mem_cons_self)
  obtain ⟨b, c, hb⟩ := (List.eq_nil_or_concat' last.token).resolve_left hlexical.ne_nil
  have hc := hlexical.solid c (hb ▸ List.mem_append_right _ List.mem_cons_self)
  refine ⟨spell front ++ (last.gap ++ b), c, ?_, hc⟩
  have hlast : spell [last] = last.gap ++ (b ++ [c]) := by
    rw [spell_cons, hb]
    exact congrArg (last.gap ++ ·) (List.append_nil _)
  rw [spell_append, hlast, List.append_assoc, List.append_assoc]

theorem Laid.closedUp_lexical (h : Laid (p :: ps)) : ∀ q ∈ closedUp (p :: ps), Lexical q.token :=
  List.forall_mem_cons.mpr ⟨h.lexical p List.mem_cons_self, h.tail.lexical⟩

theorem Laid.rdropWhile (h : Laid (p :: ps)) (ht : t.all BracedLines.isSpace = true) :
    (spell (closedUp (p :: ps)) ++ t).rdropWhile BracedLines.isSpace =
      spell (closedUp (p :: ps)) := by
  have hne : closedUp (p :: ps) ≠ [] := List.cons_ne_nil _ _
  obtain ⟨a, c, heq, hc⟩ := spell_last hne h.closedUp_lexical
  rw [heq, List.append_assoc, List.singleton_append, rdropWhile_append (Bool.eq_false_iff.mp hc),
    List.rdropWhile_eq_nil_iff.mpr (List.all_eq_true.mp ht)]

theorem Laid.trim (h : Laid (p :: ps)) (ht : t.all BracedLines.isSpace = true) :
    Transpile.trim (spell (p :: ps) ++ t) = spell (closedUp (p :: ps)) := by
  rw [Transpile.trim, h.dropWhile, h.rdropWhile ht]

theorem Laid.laid_closedUp (h : Laid (p :: ps)) : Laid (closedUp (p :: ps)) where
  blank := List.forall_mem_cons.mpr ⟨rfl, h.tail.blank⟩
  lexical := h.closedUp_lexical
  words := by
    have hwords := List.isChain_cons.mp h.words
    exact List.isChain_cons.mpr ⟨hwords.1, hwords.2⟩

theorem Laid.cleaned (h : Laid (p :: ps)) (ht : t.all BracedLines.isSpace = true) :
    Transpile.cleaned (spell (p :: ps) ++ t) = spell (closedUp (p :: ps)) := by
  have hmarks : ∀ m ∈ marks, m.all (fun c => decide (c ≠ '#')) = true := by decide
  have hplain : ∀ c ∈ spell (closedUp (p :: ps)), c ≠ '#' := by
    refine forall_spell (fun q hq c hc => ?_) (fun c hc => ?_)
      (fun m hm => forall_of_all (hmarks m hm)) h.closedUp_lexical
    · rintro rfl
      exact absurd (List.all_eq_true.mp (h.laid_closedUp.blank q hq) _ hc) (by decide)
    · rintro rfl
      exact absurd hc (by decide)
  have hkept := h.rdropWhile (t := []) rfl
  rw [List.append_nil] at hkept
  rw [Transpile.cleaned, h.trim ht,
    stripComment_of_notMem fun hmem => hplain '#' hmem rfl, hkept]

/-! ## Words -/

def renameWord (t : Text) : Text :=
  ((renamed.map fun r => (r.1.toList, r.2.toList)).lookup t).getD t

theorem renameWord_of_notMem (h : t ∉ renamed.map fun r => r.1.toList) : renameWord t = t := by
  have hlookup : (renamed.map fun r => (r.1.toList, r.2.toList)).lookup t = none := by
    refine List.lookup_eq_none_iff.mpr fun r hr => bne_iff_ne.mpr fun heq => h ?_
    obtain ⟨r', hr', rfl⟩ := List.mem_map.mp hr
    exact List.mem_map.mpr ⟨r', hr', heq.symm⟩
  rw [renameWord, hlookup]
  rfl

theorem replaceWordFrom_word (ht : t.all isWord = true) : ∀ run : Text,
    replaceWordFrom word replacement run t = if run ++ t = word then replacement else run ++ t := by
  induction t with
  | nil =>
      intro run
      rw [replaceWordFrom, List.append_nil]
  | cons c t ih =>
      intro run
      rw [List.all_cons, Bool.and_eq_true] at ht
      rw [replaceWordFrom, if_pos ht.1, ih ht.2, List.append_assoc, List.singleton_append]

theorem replaceWord_word {word replacement : String} (ht : t.all isWord = true) :
    replaceWord word replacement t = if t = word.toList then replacement.toList else t :=
  replaceWordFrom_word ht []

theorem keywords_word (ht : t.all isWord = true) : keywords t = renameWord t := by
  by_cases hmem : t ∈ renamed.map fun r => r.1.toList
  · have hall : ∀ w ∈ renamed.map fun r => r.1.toList, keywords w = renameWord w := by decide
    exact hall t hmem
  · have hne : ∀ r ∈ renamed, t ≠ r.1.toList := fun r hr heq =>
      hmem (List.mem_map.mpr ⟨r, hr, heq.symm⟩)
    have hkept : ∀ r ∈ renamed, replaceWord r.1 r.2 t = t := fun r hr =>
      (replaceWord_word ht).trans (if_neg (hne r hr))
    simp only [renamed, List.forall_mem_cons] at hkept
    obtain ⟨hnot, hor, hand, hnull, hfalse, htrue, -⟩ := hkept
    rw [renameWord_of_notMem hmem, keywords, htrue, hfalse, hnull, hand, hor, hnot]

theorem keywords_skip (ha : a.all (fun c => !isWord c) = true) (b : Text) :
    keywords (a ++ b) = a ++ keywords b := by
  have hskip : ∀ {word replacement : String} (b : Text), word.toList ≠ [] →
      replaceWord word replacement (a ++ b) = a ++ replaceWord word replacement b := by
    intro word replacement b hne
    induction a with
    | nil => rfl
    | cons c a ih =>
        rw [List.all_cons, Bool.and_eq_true, Bool.not_eq_true'] at ha
        rw [List.cons_append, replaceWord, replaceWordFrom, if_neg (Bool.eq_false_iff.mp ha.1),
          if_neg hne.symm]
        exact congrArg (c :: ·) (ih ha.2)
  unfold keywords
  rw [hskip _ (by decide), hskip _ (by decide), hskip _ (by decide), hskip _ (by decide),
    hskip _ (by decide), hskip _ (by decide)]

theorem renameWord_mark (h : t ∈ marks) : renameWord t = t := by
  have hall : ∀ m ∈ marks, renameWord m = m := by decide
  exact hall t h

def renamePiece (p : Piece Char) : Piece Char := ⟨p.gap, renameWord p.token⟩

theorem keywords_spell (h : Laid ps) : keywords (spell ps) = spell (ps.map renamePiece) := by
  induction ps with
  | nil => decide
  | cons p ps ih =>
      have hgap : p.gap.all (fun c => !isWord c) = true := by
        refine List.all_eq_true.mpr fun c hc => ?_
        rw [isWord_of_isSpace (List.all_eq_true.mp (h.blank p List.mem_cons_self) c hc)]
        rfl
      rw [spell_cons, keywords_skip hgap, List.map_cons, spell_cons, renamePiece, ← ih h.tail]
      rcases h.lexical p List.mem_cons_self with hword | hmark
      · rw [keywords_append (h.bounded hword), keywords_word hword.2]
      · rw [keywords_skip (not_isWord_of_mark hmark), renameWord_mark hmark]

/-! ## Calls -/

def placed (gap : Text) : List Text → List (Piece Char)
  | [] => []
  | t :: ts => ⟨gap, t⟩ :: ts.map fun t => ⟨[], t⟩

/-- The pieces of a line in which a function has another name. -/
def called (name : Text) (path : List Text) : List (Piece Char) → List (Piece Char)
  | p :: q :: ps =>
      if p.token = name ∧ q.token = ['('] then
        placed p.gap path ++ called name path ps
      else p :: called name path (q :: ps)
  | ps => ps

theorem spell_joined (ts : List Text) : spell (ts.map fun t => ⟨[], t⟩) = ts.flatten := by
  induction ts with
  | nil => rfl
  | cons t ts ih =>
      rw [List.map_cons, spell_cons, ih]
      rfl

theorem spell_placed (gap : Text) {path : List Text} (hpath : path ≠ []) :
    spell (placed gap path) = gap ++ path.flatten := by
  cases path with
  | nil => exact absurd rfl hpath
  | cons t ts => rw [placed, spell_cons, spell_joined, List.flatten_cons]

theorem placed_tokens (gap : Text) (path : List Text) :
    (placed gap path).map Piece.token = path := by
  cases path with
  | nil => rfl
  | cons t ts =>
      rw [placed, List.map_cons, List.map_map]
      exact congrArg (t :: ·) (List.map_id ts)

section

variable {name : Text}

theorem replaceCallFrom_word (ha : a.all isWord = true) (b : Text) : ∀ run : Text,
    replaceCallFrom name replacement run [] (a ++ b) =
      replaceCallFrom name replacement (run ++ a) [] b := by
  induction a with
  | nil =>
      intro run
      rw [List.nil_append, List.append_nil]
  | cons c a ih =>
      intro run
      rw [List.all_cons, Bool.and_eq_true] at ha
      rw [List.cons_append, replaceCallFrom, if_pos ha.1, if_pos rfl, ih ha.2, List.append_assoc,
        List.singleton_append]

theorem replaceCallFrom_skip {c : Char} (hrun : run ≠ name) (hc : isWord c = false) (b : Text) :
    replaceCallFrom name replacement run gap (c :: b) =
      run ++ gap ++ c :: replaceCallFrom name replacement [] [] b := by
  rw [replaceCallFrom, if_neg (Bool.eq_false_iff.mp hc), if_neg fun h => hrun h.1,
    if_neg fun h => hrun h.1]

theorem replaceCallFrom_marks (hname : name ≠ []) (ha : a.all (fun c => !isWord c) = true)
    (b : Text) : replaceCallFrom name replacement [] [] (a ++ b) =
      a ++ replaceCallFrom name replacement [] [] b := by
  induction a with
  | nil => rfl
  | cons c a ih =>
      rw [List.all_cons, Bool.and_eq_true, Bool.not_eq_true'] at ha
      rw [List.cons_append, replaceCallFrom_skip hname.symm ha.1, ih ha.2]
      rfl

theorem replaceCallFrom_bounded (hname : name ≠ []) (hrun : run ≠ name) (hb : Bounded b) :
    replaceCallFrom name replacement run [] b =
      run ++ replaceCallFrom name replacement [] [] b := by
  cases b with
  | nil => rfl
  | cons c b =>
      rw [replaceCallFrom_skip hrun (bounded_cons.mp hb),
        replaceCallFrom_skip hname.symm (bounded_cons.mp hb), List.append_nil]
      rfl

theorem replaceCallFrom_blanks (ha : a.all BracedLines.isSpace = true) (b : Text) : ∀ gap : Text,
    replaceCallFrom name replacement name gap (a ++ b) =
      replaceCallFrom name replacement name (gap ++ a) b := by
  induction a with
  | nil =>
      intro gap
      rw [List.nil_append, List.append_nil]
  | cons c a ih =>
      intro gap
      rw [List.all_cons, Bool.and_eq_true] at ha
      have hparen : c ≠ '(' := by
        rintro rfl
        exact absurd ha.1 (by decide)
      rw [List.cons_append, replaceCallFrom, if_neg (Bool.eq_false_iff.mp (isWord_of_isSpace ha.1)),
        if_neg fun h => hparen h.2, if_pos ⟨rfl, ha.1⟩, ih ha.2, List.append_assoc,
        List.singleton_append]

theorem replaceCallFrom_uncalled {c : Char} (hname : name ≠ []) (hparen : c ≠ '(')
    (hspace : BracedLines.isSpace c = false) (hc : isWord c = true → gap ≠ []) (b : Text) :
    replaceCallFrom name replacement name gap (c :: b) =
      name ++ (gap ++ replaceCallFrom name replacement [] [] (c :: b)) := by
  cases hword : isWord c with
  | true =>
      rw [replaceCallFrom, if_pos hword, if_neg (hc hword), replaceCallFrom.eq_2 _ _ [] [] c,
        if_pos hword, if_pos rfl, List.nil_append, List.append_assoc]
  | false =>
      have hno : ¬ isWord c = true := Bool.eq_false_iff.mp hword
      rw [replaceCallFrom, if_neg hno, if_neg fun h => hparen h.2,
        if_neg fun h => Bool.eq_false_iff.mp hspace h.2, replaceCallFrom_skip hname.symm hword,
        List.append_assoc]
      rfl

end

theorem Laid.gap_marks (h : Laid (p :: ps)) : p.gap.all (fun c => !isWord c) = true := by
  refine List.all_eq_true.mpr fun c hc => ?_
  rw [isWord_of_isSpace (List.all_eq_true.mp (h.blank p List.mem_cons_self) c hc)]
  rfl

theorem Laid.uncalled {name : Text} (h : Laid (q :: ps)) (hparen : q.token ≠ ['('])
    (hgap : IsWord q.token → q.gap ≠ []) (hname : name ≠ []) (b : Text) :
    replaceCallFrom name replacement name q.gap (q.token ++ b) =
      name ++ (q.gap ++ replaceCallFrom name replacement [] [] (q.token ++ b)) := by
  have hlexical := h.lexical q List.mem_cons_self
  cases htoken : q.token with
  | nil => exact absurd htoken hlexical.ne_nil
  | cons c t =>
      rcases hlexical with hword | hmark
      · have hc : isWord c = true := List.all_eq_true.mp hword.2 c (htoken ▸ List.mem_cons_self)
        refine replaceCallFrom_uncalled hname ?_ ?_ (fun _ => hgap hword) _
        · rintro rfl
          exact absurd hc (by decide)
        · refine Bool.eq_false_iff.mpr fun hspace => ?_
          rw [isWord_of_isSpace hspace] at hc
          cases hc
      · obtain ⟨-, hall, hopen⟩ := marks_spec _ hmark
        rw [htoken, List.all_cons, Bool.and_eq_true, Bool.and_eq_true, Bool.not_eq_true',
          Bool.not_eq_true'] at hall
        refine replaceCallFrom_uncalled hname ?_ hall.1.2 (fun hc => ?_) _
        · rintro rfl
          exact hparen (hopen (by rw [htoken]; rfl))
        · rw [hall.1.1] at hc
          cases hc

theorem replaceCall_spell {name : Text} {path : List Text} (hname : IsWord name)
    (hpath : path ≠ []) (h : Laid ps) :
    replaceCallFrom name path.flatten [] [] (spell ps) = spell (called name path ps) := by
  fun_induction called name path ps with
  | case1 p q ps hcall ih =>
      obtain ⟨hp, hq⟩ := hcall
      have hspell : spell (placed p.gap path ++ called name path ps) =
          p.gap ++ (path.flatten ++ spell (called name path ps)) := by
        rw [spell_append, spell_placed _ hpath, List.append_assoc]
      rw [hspell, ← ih h.tail.tail, spell_cons, replaceCallFrom_marks hname.1 h.gap_marks, hp,
        replaceCallFrom_word hname.2, spell_cons, List.nil_append,
        replaceCallFrom_blanks (h.tail.blank q List.mem_cons_self), hq, List.singleton_append,
        replaceCallFrom, if_neg (by decide), if_pos ⟨rfl, rfl⟩]
  | case2 p q ps hcall ih =>
      rw [spell_cons, spell_cons (p := p), ← ih h.tail, replaceCallFrom_marks hname.1 h.gap_marks]
      congr 1
      rcases h.lexical p List.mem_cons_self with hword | hmark
      · rw [replaceCallFrom_word hword.2, List.nil_append]
        by_cases hp : p.token = name
        · have hq : q.token ≠ ['('] := fun hq => hcall ⟨hp, hq⟩
          have hblank := h.tail.blank q List.mem_cons_self
          rw [hp, spell_cons, replaceCallFrom_blanks hblank, List.nil_append,
            replaceCallFrom_marks hname.1 h.tail.gap_marks]
          exact h.tail.uncalled hq (fun hword => (List.isChain_cons_cons.mp h.words).1 (hp ▸ hname)
            hword) hname.1 _
        · exact replaceCallFrom_bounded hname.1 hp (h.bounded hword)
      · exact replaceCallFrom_marks hname.1 (not_isWord_of_mark hmark) _
  | case3 ps hps =>
      cases ps with
      | nil => rfl
      | cons p ps =>
          cases ps with
          | nil =>
              rw [spell_cons, replaceCallFrom_marks hname.1 h.gap_marks]
              congr 1
              rcases h.lexical p List.mem_cons_self with hword | hmark
              · rw [replaceCallFrom_word hword.2]
                rfl
              · exact replaceCallFrom_marks hname.1 (not_isWord_of_mark hmark) _
          | cons q ps => exact absurd rfl (hps p q ps)

/-! ## Renamed calls -/

section

variable {name w : Text} {path : List Text}

theorem called_head (hq : q ∈ (called name (w :: path) ps).head?) :
    ∃ p ∈ ps.head?, q = p ∨ p.token = name ∧ q = ⟨p.gap, w⟩ := by
  fun_cases called name (w :: path) ps with
  | case1 p r ps hcall =>
      rw [called, if_pos hcall] at hq
      cases hq
      exact ⟨p, rfl, .inr ⟨hcall.1, rfl⟩⟩
  | case2 p r ps hcall =>
      rw [called, if_neg hcall] at hq
      exact ⟨p, rfl, .inl (Option.some.inj hq).symm⟩
  | case3 ps hps =>
      rw [called.eq_2 _ _ _ hps] at hq
      exact ⟨q, hq, .inl rfl⟩

theorem called_forall {P : Piece Char → Prop} (hpath : ∀ p, P p → ∀ q ∈ placed p.gap path, P q)
    (h : ∀ p ∈ ps, P p) : ∀ p ∈ called name path ps, P p := by
  fun_induction called name path ps with
  | case1 p q ps hcall ih =>
      rw [List.forall_mem_cons, List.forall_mem_cons] at h
      exact List.forall_mem_append.mpr ⟨hpath p h.1, ih h.2.2⟩
  | case2 p q ps hcall ih =>
      rw [List.forall_mem_cons] at h
      exact List.forall_mem_cons.mpr ⟨h.1, ih h.2⟩
  | case3 ps hps => exact h

theorem called_chain {R : Piece Char → Piece Char → Prop}
    (hbefore : ∀ p q, R p q → q.token = name → R p ⟨q.gap, w⟩)
    (hpath : ∀ gap, (placed gap (w :: path)).IsChain R)
    (hbehind : ∀ p q, p.token = ['('] → R p q → ∀ gap, ∀ x ∈ (placed gap (w :: path)).getLast?,
      R x q) (h : ps.IsChain R) :
    (called name (w :: path) ps).IsChain R := by
  have hhead : ∀ {p ps}, (∀ q ∈ ps.head?, R p q) → ∀ q ∈ (called name (w :: path) ps).head?,
      R p q := by
    intro p ps hp q hq
    obtain ⟨r, hr, rfl | ⟨hname, rfl⟩⟩ := called_head hq
    · exact hp q hr
    · exact hbefore p r (hp r hr) hname
  fun_induction called name (w :: path) ps with
  | case1 p q ps hcall ih =>
      obtain ⟨-, htail⟩ := List.isChain_cons_cons.mp h
      rw [List.isChain_cons] at htail
      refine (hpath p.gap).append (ih htail.2) fun x hx y hy => ?_
      exact hhead (fun r hr => hbehind q r hcall.2 (htail.1 r hr) p.gap x hx) y hy
  | case2 p q ps hcall ih =>
      rw [List.isChain_cons] at h
      exact List.isChain_cons.mpr ⟨hhead h.1, ih h.2⟩
  | case3 ps hps => exact h

/-- A function that is always called is renamed wherever it stands. -/
theorem called_tokens (hname : name ≠ ['('])
    (hcalls : (ps.map Piece.token).IsChain fun a b => a = name → b = ['('])
    (hlast : ∀ t ∈ (ps.map Piece.token).getLast?, t ≠ name) :
    (called name (path ++ [['(']]) ps).map Piece.token =
      (ps.map Piece.token).flatMap fun t => if t = name then path else [t] := by
  fun_induction called name (path ++ [['(']]) ps with
  | case1 p q ps hcall ih =>
      obtain ⟨hp, hq⟩ := hcall
      have hlast' : ∀ t ∈ (ps.map Piece.token).getLast?, t ≠ name := by
        intro t ht
        refine hlast t ?_
        rw [List.map_cons, List.map_cons, List.getLast?_cons_cons, List.getLast?_cons, ht]
        rfl
      rw [List.map_append, placed_tokens, ih hcalls.tail.tail hlast', List.map_cons, List.map_cons,
        List.flatMap_cons, List.flatMap_cons, if_pos hp, hq, if_neg hname.symm, List.append_assoc]
  | case2 p q ps hcall ih =>
      have hp : p.token ≠ name := fun hp =>
        hcall ⟨hp, (List.isChain_cons_cons.mp hcalls).1 hp⟩
      rw [List.map_cons, ih hcalls.tail fun t ht => hlast t (by
        rw [List.map_cons, List.map_cons, List.getLast?_cons_cons]
        exact ht)]
      rw [List.map_cons (l := q :: ps), List.flatMap_cons, if_neg hp]
      rfl
  | case3 ps hps =>
      match ps with
      | [] => rfl
      | [p] =>
          have hp : p.token ≠ name := hlast p.token rfl
          rw [List.map_singleton, List.flatMap_cons, if_neg hp]
          rfl
      | p :: q :: ps => exact absurd rfl (hps p q ps)

theorem called_of_uncalled
    (h : ps.IsChain fun p q => p.token = name → q.token ≠ ['(']) : called name path ps = ps := by
  fun_induction called name path ps with
  | case1 p q ps hcall ih =>
      exact absurd hcall.2 ((List.isChain_cons_cons.mp h).1 hcall.1)
  | case2 p q ps hcall ih => rw [ih h.tail]
  | case3 ps hps => rfl

end

end VidhiArena.Browser.Transpile
