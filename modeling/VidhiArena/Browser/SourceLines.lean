import Mathlib.Data.List.TakeWhile
import VidhiArena.Browser.Transpile

/-!
# Lines of a strategy

What the transpiler makes of a single line. The regular expressions work on words: they
keep the first word of a line unless it is one of Python's, so that a statement stays a
statement and the header of a block is seen as one.
-/

namespace VidhiArena.Browser.Transpile

open Foundation.BracedLines

variable {word replacement run line rest a b t : Text}

/-! ## The beginning of a line -/

/-- It begins with a piece of code that closes nothing. -/
def Solid (t : Text) : Prop := t.head?.any (fun c => !isSpace c && c != '\x7d') = true

instance : Decidable (Solid t) := inferInstanceAs (Decidable (_ = _))

theorem solid_cons {c : Char} : Solid (c :: t) ↔ isSpace c = false ∧ c ≠ '\x7d' := by
  simp only [Solid, List.head?_cons, Option.any_some, Bool.and_eq_true, Bool.not_eq_true',
    bne_iff_ne]

theorem not_solid_nil : ¬ Solid [] := by decide

theorem Solid.append (h : Solid a) (b : Text) : Solid (a ++ b) := by
  cases a with
  | nil => exact absurd h not_solid_nil
  | cons c t => exact h

theorem Solid.cons {c : Char} (h : Solid (c :: t)) (t' : Text) : Solid (c :: t') := h

theorem Solid.replaceWordFrom (hr : Solid replacement) (t : Text) :
    ∀ {run}, Solid run → Solid (replaceWordFrom word replacement run t) := by
  have hflush : ∀ {run}, Solid run → Solid (if run = word then replacement else run) := by
    intro run hrun
    split
    · exact hr
    · exact hrun
  induction t with
  | nil => exact hflush
  | cons c t ih =>
      intro run hrun
      rw [Transpile.replaceWordFrom]
      split
      · exact ih (hrun.append [c])
      · exact (hflush hrun).append _

theorem Solid.replaceWord {word replacement : String} (hword : word.toList ≠ [])
    (hr : Solid replacement.toList) (h : Solid t) : Solid (replaceWord word replacement t) := by
  cases t with
  | nil => exact absurd h not_solid_nil
  | cons c t =>
      rw [Transpile.replaceWord, Transpile.replaceWordFrom]
      split
      · exact Solid.replaceWordFrom hr t (h.cons [])
      · rw [if_neg hword.symm]
        exact h.cons _

theorem Solid.keywords (h : Solid t) : Solid (keywords t) :=
  .replaceWord (by decide) (by decide) <| .replaceWord (by decide) (by decide) <|
    .replaceWord (by decide) (by decide) <| .replaceWord (by decide) (by decide) <|
    .replaceWord (by decide) (by decide) <| .replaceWord (by decide) (by decide) h

theorem Solid.replaceCallFrom (hr : Solid replacement) (t : Text) :
    ∀ {run gap}, Solid run → Solid (replaceCallFrom word replacement run gap t) := by
  induction t with
  | nil => exact fun hrun => hrun.append _
  | cons c t ih =>
      intro run gap hrun
      rw [Transpile.replaceCallFrom]
      split
      · split
        · exact ih (hrun.append [c])
        · exact (hrun.append gap).append _
      · split
        · exact hr.append _
        · split
          · exact ih hrun
          · exact (hrun.append gap).append _

theorem Solid.replaceCall {name replacement : String} (hname : name.toList ≠ [])
    (hr : Solid replacement.toList) (h : Solid t) : Solid (replaceCall name replacement t) := by
  cases t with
  | nil => exact absurd h not_solid_nil
  | cons c t =>
      rw [Transpile.replaceCall, Transpile.replaceCallFrom]
      split
      · rw [if_pos rfl]
        exact Solid.replaceCallFrom hr t (h.cons [])
      · rw [if_neg fun hc => hname hc.1.symm, if_neg fun hc => hname hc.1.symm]
        exact h.cons _

theorem Solid.calls (h : Solid t) : Solid (calls t) :=
  .replaceCall (by decide) (by decide) <| .replaceCall (by decide) (by decide) <|
    .replaceCall (by decide) (by decide) <| .replaceCall (by decide) (by decide) <|
    .replaceCall (by decide) (by decide) h

theorem Solid.printText (h : Solid t) : Solid (printText t) := by
  unfold Transpile.printText
  cases printCall t with
  | none => exact h
  | some rest =>
      dsimp only
      split
      · have hslash : Solid ("/* print(".toList ++ rest).dropLast := by
          cases rest with
          | nil => decide
          | cons c rest =>
              rw [List.dropLast_append_of_ne_nil (List.cons_ne_nil c rest)]
              exact Solid.append (by decide) _
        exact hslash.append _
      · exact Solid.append (by decide) rest

theorem Solid.statementText (h : Solid t) : Solid (statementText t) := by
  unfold Transpile.statementText
  dsimp only
  split
  · exact h.printText.calls.append _
  · exact h.printText.calls

theorem solid_forText (line : Text) : Solid (forText line) := by
  unfold forText
  cases forRange line with
  | some p => exact Solid.cons (t := []) (by decide) _
  | none =>
      cases forEach line with
      | some p => exact Solid.cons (t := []) (by decide) _
      | none => exact Solid.cons (t := []) (by decide) _

theorem solid_elifText (line : Text) : Solid (elifText line) := by
  have hstart : Solid "else if (".toList := by decide
  exact (hstart.append _).append _

theorem solid_exceptText (line : Text) : Solid (exceptText line) := by
  have hstart : Solid "catch(".toList := by decide
  exact (hstart.append _).append _

theorem Solid.openerText (h : Solid line) : Solid (openerText line) := by
  unfold Transpile.openerText
  repeat' split
  · exact Solid.cons (t := []) (by decide) _
  · exact solid_forText line
  · exact Solid.cons (t := []) (by decide) _
  · decide
  · decide
  · decide
  · exact h.append _

/-! ## Words -/

def Bounded (t : Text) : Prop := t.head?.any isWord = false

theorem bounded_iff : (!t.head?.any isWord) = true ↔ Bounded t := Bool.not_eq_eq_eq_not

theorem bounded_nil : Bounded [] := rfl

theorem Bounded.colon (h : Bounded t) : Bounded (t ++ [':']) := by
  cases t with
  | nil => rfl
  | cons c t => exact h

theorem bounded_cons {c : Char} : Bounded (c :: t) ↔ isWord c = false := Iff.rfl

theorem isWord_of_isSpace {c : Char} (h : isSpace c = true) : isWord c = false := by
  rcases of_decide_eq_true h with hmem | ⟨hlow, -⟩
  · exact forall_of_all (p := fun c => isWord c = false) (by decide) c hmem
  · have hc : 8192 ≤ c.toNat := hlow
    refine Bool.eq_false_iff.mpr fun hword => ?_
    have hbelow : ∀ {hi : UInt32}, hi < 8192 → ¬ c.val ≤ hi := fun hhi hle =>
      absurd (hc.trans hle) (Nat.not_le.mpr hhi)
    rcases Bool.or_eq_true_iff.mp hword with halphanum | hunderscore
    · rcases Bool.or_eq_true_iff.mp halphanum with halpha | hdigit
      · rcases Bool.or_eq_true_iff.mp halpha with hupper | hlower
        · exact hbelow (by decide) (of_decide_eq_true hupper).2
        · exact hbelow (by decide) (of_decide_eq_true (Bool.and_eq_true_iff.mp hlower).2)
      · exact hbelow (by decide) (of_decide_eq_true (Bool.and_eq_true_iff.mp hdigit).2)
    · rw [of_decide_eq_true hunderscore] at hc
      exact absurd hc (by decide)

theorem takeWhile_of_bounded (ha : a.all isWord = true) (hb : Bounded b) :
    (a ++ b).takeWhile isWord = a := by
  rw [List.takeWhile_append_of_pos (List.all_eq_true.mp ha)]
  cases b with
  | nil => exact List.append_nil a
  | cons c b =>
      rw [List.takeWhile_cons_of_neg (Bool.eq_false_iff.mp (bounded_cons.mp hb)), List.append_nil]

theorem bounded_dropWhile (t : Text) : Bounded (t.dropWhile isWord) := by
  induction t with
  | nil => exact bounded_nil
  | cons c t ih =>
      rw [List.dropWhile_cons]
      split
      · exact ih
      · exact bounded_cons.mpr (Bool.eq_false_iff.mpr (by assumption))

theorem literal_append (word rest : Text) : literal word (word ++ rest) = some rest := by
  rw [literal, if_pos (List.isPrefixOf_iff_prefix.mpr (List.prefix_append word rest)),
    List.drop_left]

theorem eq_of_literal (h : literal word t = some rest) : t = word ++ rest := by
  unfold literal at h
  split at h
  · obtain ⟨rest', rfl⟩ := List.isPrefixOf_iff_prefix.mp (by assumption)
    rw [List.drop_left] at h
    rw [Option.some.inj h]
  · cases h

theorem startsWithWord_iff (hword : word.all isWord = true) :
    startsWithWord word line = true ↔ line.takeWhile isWord = word := by
  unfold startsWithWord
  constructor
  · intro h
    cases hrest : literal word line with
    | none =>
        rw [hrest] at h
        cases h
    | some rest =>
        rw [hrest] at h
        rw [eq_of_literal hrest]
        exact takeWhile_of_bounded hword (bounded_iff.mp h)
  · intro h
    have hline : literal word line = some (line.dropWhile isWord) := by
      conv_lhs => rw [← List.takeWhile_append_dropWhile (p := isWord) (l := line)]
      rw [h]
      exact literal_append ..
    rw [hline]
    exact bounded_iff.mpr (bounded_dropWhile line)

theorem takeWhile_of_isColonWord (hword : word.all isWord = true)
    (h : isColonWord word line = true) : line.takeWhile isWord = word := by
  unfold isColonWord at h
  cases hrest : literal word line with
  | none =>
      rw [hrest] at h
      cases h
  | some rest =>
      rw [hrest] at h
      rw [eq_of_literal hrest]
      refine takeWhile_of_bounded hword ?_
      cases rest with
      | nil => exact bounded_nil
      | cons c rest =>
          by_cases hc : isSpace c = true
          · exact bounded_cons.mpr (isWord_of_isSpace hc)
          · dsimp only at h
            rw [List.dropWhile_cons_of_neg hc, List.head?_cons, beq_iff_eq] at h
            rw [Option.some.inj h]
            rfl

theorem takeWhile_append_cons {c : Char} (hc : ¬ isWord c = true) (a t : Text) :
    (a ++ c :: t).takeWhile isWord = a.takeWhile isWord := by
  rw [List.takeWhile_append, List.takeWhile_cons_of_neg hc, List.append_nil, ite_eq_right_iff]
  exact fun hlength => ((List.takeWhile_prefix isWord).eq_of_length hlength).symm

theorem takeWhile_replaceWordFrom (t : Text) : ∀ {run : Text}, run.all isWord = true →
    (replaceWordFrom word replacement run t).takeWhile isWord =
      if run ++ t.takeWhile isWord = word then replacement.takeWhile isWord
      else run ++ t.takeWhile isWord := by
  induction t with
  | nil =>
      intro run hrun
      have hself : run.takeWhile isWord = run :=
        List.takeWhile_eq_self_iff.mpr (List.all_eq_true.mp hrun)
      rw [replaceWordFrom, List.takeWhile_nil, List.append_nil, apply_ite (List.takeWhile isWord),
        hself]
  | cons c t ih =>
      intro run hrun
      rw [replaceWordFrom]
      split
      · have hc : isWord c = true := by assumption
        rw [ih (by rw [List.all_append, hrun, List.all_cons, hc]; rfl),
          List.takeWhile_cons_of_pos hc, List.append_assoc, List.singleton_append]
      · have hc : ¬ isWord c = true := by assumption
        have hself : run.takeWhile isWord = run :=
          List.takeWhile_eq_self_iff.mpr (List.all_eq_true.mp hrun)
        rw [takeWhile_append_cons hc, List.takeWhile_cons_of_neg hc, List.append_nil,
          apply_ite (List.takeWhile isWord), hself]

theorem takeWhile_replaceWord {word replacement : String} {w : Text} (hword : word.toList ≠ w)
    (hr : replacement.toList.takeWhile isWord ≠ w) :
    (replaceWord word replacement t).takeWhile isWord = w ↔ t.takeWhile isWord = w := by
  rw [replaceWord, takeWhile_replaceWordFrom t rfl, List.nil_append]
  split
  · have heq : t.takeWhile isWord = word.toList := by assumption
    rw [heq]
    exact iff_of_false hr hword
  · exact Iff.rfl

/-- The words that are replaced, with their replacements. -/
def renamed : List (String × String) := [("not", "!"), ("or", "||"), ("and", "&&"),
  ("None", "null"), ("False", "false"), ("True", "true")]

theorem takeWhile_keywords {w : Text}
    (hw : ∀ p ∈ renamed, p.1.toList ≠ w ∧ p.2.toList.takeWhile isWord ≠ w) :
    (keywords t).takeWhile isWord = w ↔ t.takeWhile isWord = w := by
  simp only [renamed, List.forall_mem_cons] at hw
  obtain ⟨h₁, h₂, h₃, h₄, h₅, h₆, -⟩ := hw
  unfold keywords
  rw [takeWhile_replaceWord h₁.1 h₁.2, takeWhile_replaceWord h₂.1 h₂.2,
    takeWhile_replaceWord h₃.1 h₃.2, takeWhile_replaceWord h₄.1 h₄.2,
    takeWhile_replaceWord h₅.1 h₅.2, takeWhile_replaceWord h₆.1 h₆.2]

theorem renamed_blockWords : ∀ w ∈ blockWords, ∀ p ∈ renamed,
    p.1.toList ≠ w ∧ p.2.toList.takeWhile isWord ≠ w := by
  decide

/-! ## Trimming and comments -/

theorem rdropWhile_append {p : Char → Bool} {c : Char} (hc : ¬ p c = true) (a b : Text) :
    (a ++ c :: b).rdropWhile p = a ++ c :: b.rdropWhile p := by
  induction b using List.reverseRecOn with
  | nil => exact List.rdropWhile_concat_neg p a c hc
  | append_singleton b d ih =>
      have hassoc : a ++ c :: (b ++ [d]) = (a ++ c :: b) ++ [d] := by
        rw [List.append_assoc, List.cons_append]
      rw [hassoc, List.rdropWhile_concat, List.rdropWhile_concat, ih]
      split
      · rfl
      · exact hassoc.symm

theorem takeWhile_rdropWhile (t : Text) :
    (t.rdropWhile isSpace).takeWhile isWord = t.takeWhile isWord := by
  induction t using List.reverseRecOn with
  | nil => rfl
  | append_singleton t c ih =>
      rw [List.rdropWhile_concat]
      split
      · have hc := isWord_of_isSpace (c := c) (by assumption)
        rw [ih, takeWhile_append_cons (Bool.eq_false_iff.mp hc)]
      · rfl

theorem takeWhile_stripComment (t : Text) :
    (stripComment t).takeWhile isWord = t.takeWhile isWord := by
  induction t with
  | nil => rfl
  | cons c t ih =>
      rw [stripComment]
      split
      · obtain ⟨rfl, -⟩ : c = '#' ∧ _ := by assumption
        rfl
      · rw [List.takeWhile_cons, List.takeWhile_cons, ih]

theorem stripComment_append (h : stripComment a = a) (b : Text) :
    stripComment (a ++ b) = a ++ stripComment b := by
  induction a with
  | nil => rfl
  | cons c a ih =>
      rw [stripComment] at h
      split at h
      · cases h
      · have hnot : ¬ (c = '#' ∧ a.all (fun c => c ∉ ['\x27', '\x22', '\n']) = true) := by
          assumption
        rw [List.cons_append, stripComment, if_neg, ih (List.cons.inj h).2, List.cons_append]
        rw [List.all_append, Bool.and_eq_true]
        exact fun hall => hnot ⟨hall.1, hall.2.1⟩

theorem stripComment_of_notMem (h : '#' ∉ t) : stripComment t = t := by
  induction t with
  | nil => rfl
  | cons c t ih =>
      obtain ⟨hc, ht⟩ := List.ne_and_not_mem_of_not_mem_cons h
      rw [stripComment, if_neg fun hcomment => hc hcomment.1.symm, ih ht]

theorem trim_of_solid (h : Solid t) : trim t = t.rdropWhile isSpace := by
  cases t with
  | nil => exact absurd h not_solid_nil
  | cons c t => rw [trim, List.dropWhile_cons_of_neg (Bool.eq_false_iff.mp (solid_cons.mp h).1)]

theorem takeWhile_cleaned (h : Solid t) : (cleaned t).takeWhile isWord = t.takeWhile isWord := by
  rw [cleaned, takeWhile_rdropWhile, takeWhile_stripComment, trim_of_solid h, takeWhile_rdropWhile]

theorem solid_cleaned (h : Solid t) (hcomment : t.head? ≠ some '#') : Solid (cleaned t) := by
  cases t with
  | nil => exact absurd h not_solid_nil
  | cons c t =>
      have hspace := Bool.eq_false_iff.mp (solid_cons.mp h).1
      have htrim : trim (c :: t) = c :: t.rdropWhile isSpace := by
        rw [trim_of_solid h]
        exact rdropWhile_append hspace [] t
      rw [cleaned, htrim, stripComment, if_neg fun hc => hcomment (congrArg some hc.1)]
      rw [show ∀ t', (c :: t').rdropWhile isSpace = c :: t'.rdropWhile isSpace from
        rdropWhile_append hspace []]
      exact h.cons _

/-! ## Statements -/

def content (t : Text) : Emitted := emitted (keywords (cleaned t))

theorem wordly_blockWords : ∀ w ∈ blockWords, w.all isWord = true := by decide

theorem not_startsWithWord {w : Text} (hw : w ∈ blockWords) (h : line.takeWhile isWord ≠ w) :
    startsWithWord w line = false :=
  Bool.eq_false_iff.mpr fun hstarts =>
    h ((startsWithWord_iff (wordly_blockWords w hw)).mp hstarts)

theorem not_isColonWord {w : Text} (hw : w ∈ blockWords) (h : line.takeWhile isWord ≠ w) :
    isColonWord w line = false :=
  Bool.eq_false_iff.mpr fun hcolon =>
    h (takeWhile_of_isColonWord (wordly_blockWords w hw) hcolon)

/-- A line that does not begin with a word for blocks is a statement. -/
theorem emitted_statement (h : line.takeWhile isWord ∉ blockWords) :
    emitted line = .statement (statementText line) := by
  have hne : ∀ w ∈ blockWords, line.takeWhile isWord ≠ w := fun w hw heq => h (heq ▸ hw)
  have hopen : isBlockOpen line = false := by
    have hany : blockWords.any (startsWithWord · line) = false :=
      List.any_eq_false.mpr fun w hw => Bool.eq_false_iff.mp (not_startsWithWord hw (hne w hw))
    rw [isBlockOpen, hany]
    rfl
  have helif : startsWithWord "elif".toList line = false :=
    not_startsWithWord (by decide) (hne _ (by decide))
  have helse : isColonWord "else".toList line = false :=
    not_isColonWord (by decide) (hne _ (by decide))
  have hexcept : startsWithWord "except".toList line = false :=
    not_startsWithWord (by decide) (hne _ (by decide))
  have hfinally : isColonWord "finally".toList line = false :=
    not_isColonWord (by decide) (hne _ (by decide))
  rw [emitted, helif, helse, hexcept, hfinally, hopen]
  rfl

/-- The first character of a statement, and its first word. -/
structure IsStatement (t : Text) : Prop where
  solid : Solid t
  notComment : t.head? ≠ some '#'
  notBlock : t.takeWhile isWord ∉ blockWords

theorem IsStatement.content (h : IsStatement t) :
    content t = .statement (statementText (keywords (cleaned t))) := by
  refine emitted_statement fun hmem => h.notBlock ?_
  have hfirst := (takeWhile_keywords (renamed_blockWords _ hmem)).mp rfl
  rw [takeWhile_cleaned h.solid] at hfirst
  rwa [hfirst]

theorem IsStatement.solid_text (h : IsStatement t) : Solid (Transpile.content t).text := by
  rw [h.content, Emitted.text]
  exact (solid_cleaned h.solid h.notComment).keywords.statementText

/-! ## Any line -/

theorem Solid.dropLast (h : Solid t) (hlength : 2 ≤ t.length) : Solid t.dropLast := by
  match t, hlength with
  | c :: d :: t, _ => exact h.cons _

theorem two_le_of_isBlockOpen (h : isBlockOpen line = true) : 2 ≤ line.length := by
  obtain ⟨hword, -⟩ := Bool.and_eq_true_iff.mp (Bool.and_eq_true_iff.mp h).1
  obtain ⟨w, hw, hstarts⟩ := List.any_eq_true.mp hword
  have hlength : ∀ w ∈ blockWords, 2 ≤ w.length := by decide
  have hfirst := (startsWithWord_iff (wordly_blockWords w hw)).mp hstarts
  exact (hlength w hw).trans (hfirst ▸ (List.takeWhile_prefix isWord).length_le)

theorem Solid.content (h : Solid t) (hcomment : t.head? ≠ some '#') :
    Solid (Transpile.content t).text := by
  have hline := (solid_cleaned h hcomment).keywords
  have helse : Solid "else \x7b".toList := by decide
  have hfinally : Solid "finally \x7b".toList := by decide
  unfold Transpile.content emitted
  split
  · exact solid_elifText _
  split
  · exact helse
  split
  · exact solid_exceptText _
  split
  · exact hfinally
  split
  · rw [Emitted.text]
    exact Solid.openerText (hline.dropLast (two_le_of_isBlockOpen (by assumption)))
  · rw [Emitted.text]
    exact hline.statementText

/-- It is a header, for the transpiler. -/
def Emitted.isHeader : Emitted → Bool
  | .continues _ | .opens _ => true
  | .statement _ => false

/-! ## Headers -/

inductive Keyword where
  | if_ | elif_ | else_ | for_ | while_ | def_ | try_ | except_ | finally_ | with_
  deriving DecidableEq

namespace Keyword

def text : Keyword → Text
  | if_ => "if".toList
  | elif_ => "elif".toList
  | else_ => "else".toList
  | for_ => "for".toList
  | while_ => "while".toList
  | def_ => "def".toList
  | try_ => "try".toList
  | except_ => "except".toList
  | finally_ => "finally".toList
  | with_ => "with".toList

/-- It goes on with the block before it. -/
def continues (k : Keyword) : Bool := k ∈ [elif_, else_, except_, finally_]

/-- Nothing stands between it and the colon. -/
def bare (k : Keyword) : Bool := k ∈ [else_, finally_]

/-- What a header becomes, but for the brace in front of a clause that goes on. -/
def written (k : Keyword) (line : Text) : Text :=
  match k with
  | if_ => "if (".toList ++ trim (dropWord "if".toList line.dropLast) ++ ") \x7b".toList
  | elif_ => elifText line
  | else_ => "else \x7b".toList
  | for_ => forText line.dropLast
  | while_ => "while (".toList ++ trim (dropWord "while".toList line.dropLast) ++ ") \x7b".toList
  | def_ => "/* def skipped */".toList
  | try_ => "try \x7b".toList
  | except_ => exceptText line
  | finally_ => "finally \x7b".toList
  | with_ => "\x7b /* with */".toList

variable (k : Keyword)

theorem mem_blockWords : k.text ∈ blockWords := by cases k <;> decide

theorem wordly : k.text.all isWord = true := wordly_blockWords _ k.mem_blockWords

theorem solid : Solid k.text := by cases k <;> decide

theorem notComment : '#' ∉ k.text := by cases k <;> decide

theorem keywords_text : keywords k.text = k.text := by cases k <;> decide

theorem text_injective : Function.Injective text := by
  intro k k'
  cases k <;> cases k' <;> first | exact fun _ => rfl | exact fun h => absurd h (by decide)

end Keyword

/-! The words of a line that is cut between two words. -/

theorem replaceWordFrom_bounded (hword : word ≠ []) (hb : Bounded b) (run : Text) :
    replaceWordFrom word replacement run b =
      (if run = word then replacement else run) ++ replaceWordFrom word replacement [] b := by
  cases b with
  | nil => rw [replaceWordFrom, replaceWordFrom, if_neg hword.symm, List.append_nil]
  | cons c t =>
      have hc := Bool.eq_false_iff.mp (bounded_cons.mp hb)
      rw [replaceWordFrom.eq_2 _ _ _ c, replaceWordFrom.eq_2 _ _ [] c, if_neg hc, if_neg hc,
        if_neg hword.symm, List.nil_append]

theorem replaceWordFrom_append (hword : word ≠ []) (hb : Bounded b) (a : Text) : ∀ run : Text,
    replaceWordFrom word replacement run (a ++ b) =
      replaceWordFrom word replacement run a ++ replaceWordFrom word replacement [] b := by
  induction a with
  | nil => exact replaceWordFrom_bounded hword hb
  | cons c a ih =>
      intro run
      rw [List.cons_append, replaceWordFrom, replaceWordFrom, ih, ih]
      split
      · rfl
      · rw [List.append_assoc, List.cons_append]

theorem replaceWord_append {word replacement : String} (hword : word.toList ≠ [])
    (hb : Bounded b) : replaceWord word replacement (a ++ b) =
      replaceWord word replacement a ++ replaceWord word replacement b :=
  replaceWordFrom_append hword hb a []

theorem Bounded.replaceWord {word replacement : String} (hword : word.toList ≠ [])
    (hb : Bounded b) : Bounded (replaceWord word replacement b) := by
  cases b with
  | nil =>
      rw [Transpile.replaceWord, replaceWordFrom, if_neg hword.symm]
      trivial
  | cons c t =>
      rw [Transpile.replaceWord, replaceWordFrom, if_neg (Bool.eq_false_iff.mp (bounded_cons.mp hb)),
        if_neg hword.symm]
      exact hb

theorem keywords_append (hb : Bounded b) : keywords (a ++ b) = keywords a ++ keywords b := by
  have h₁ : Bounded (replaceWord "True" "true" b) := hb.replaceWord (by decide)
  have h₂ : Bounded (replaceWord "False" "false" _) := h₁.replaceWord (by decide)
  have h₃ : Bounded (replaceWord "None" "null" _) := h₂.replaceWord (by decide)
  have h₄ : Bounded (replaceWord "and" "&&" _) := h₃.replaceWord (by decide)
  have h₅ : Bounded (replaceWord "or" "||" _) := h₄.replaceWord (by decide)
  unfold keywords
  rw [replaceWord_append (by decide) hb, replaceWord_append (by decide) h₁,
    replaceWord_append (by decide) h₂, replaceWord_append (by decide) h₃,
    replaceWord_append (by decide) h₄, replaceWord_append (by decide) h₅]

theorem Bounded.keywords (hb : Bounded b) : Bounded (keywords b) :=
  (((((hb.replaceWord (by decide)).replaceWord (by decide)).replaceWord (by decide)).replaceWord
    (by decide)).replaceWord (by decide)).replaceWord (by decide)

theorem all_replaceWordFrom {p : Char → Bool} (hr : replacement.all p = true) (t : Text) :
    ∀ {run}, run.all p = true → t.all p = true →
      (replaceWordFrom word replacement run t).all p = true := by
  have hflush : ∀ {run : Text}, run.all p = true →
      (if run = word then replacement else run).all p = true := by
    intro run hrun
    split
    · exact hr
    · exact hrun
  induction t with
  | nil => exact fun hrun _ => hflush hrun
  | cons c t ih =>
      intro run hrun ht
      rw [List.all_cons, Bool.and_eq_true] at ht
      rw [replaceWordFrom]
      split
      · refine ih ?_ ht.2
        rw [List.all_append, hrun, List.all_cons, ht.1]
        rfl
      · rw [List.all_append, hflush hrun, List.all_cons, ht.1, ih rfl ht.2]
        rfl

theorem all_keywords {p : Char → Bool} (hp : ∀ r ∈ renamed, r.2.toList.all p = true)
    (ht : t.all p = true) : (keywords t).all p = true := by
  simp only [renamed, List.forall_mem_cons] at hp
  obtain ⟨hnot, hor, hand, hnull, hfalse, htrue, -⟩ := hp
  exact all_replaceWordFrom hnot _ rfl <| all_replaceWordFrom hor _ rfl <|
    all_replaceWordFrom hand _ rfl <| all_replaceWordFrom hnull _ rfl <|
    all_replaceWordFrom hfalse _ rfl <| all_replaceWordFrom htrue _ rfl ht

theorem all_replaceCallFrom {p : Char → Bool} (hr : replacement.all p = true) (t : Text) :
    ∀ {run gap}, run.all p = true → gap.all p = true → t.all p = true →
      (replaceCallFrom word replacement run gap t).all p = true := by
  have happend : ∀ {a b : Text}, a.all p = true → b.all p = true → (a ++ b).all p = true := by
    intro a b ha hb
    rw [List.all_append, ha, hb]
    rfl
  induction t with
  | nil => exact fun hrun hgap _ => happend hrun hgap
  | cons c t ih =>
      intro run gap hrun hgap ht
      rw [List.all_cons, Bool.and_eq_true] at ht
      have hc : [c].all p = true := by
        rw [List.all_cons, ht.1]
        rfl
      rw [replaceCallFrom]
      split
      · split
        · exact ih (happend hrun hc) rfl ht.2
        · exact happend (happend hrun hgap) (ih hc rfl ht.2)
      · split
        · exact happend hr (ih rfl rfl ht.2)
        · split
          · exact ih hrun (happend hgap hc) ht.2
          · exact happend (happend hrun hgap) (happend hc (ih rfl rfl ht.2))

theorem keywords_of_spaces (h : t.all isSpace = true) : keywords t = t := by
  have hword : ∀ {word replacement : String}, word.toList ≠ [] →
      replaceWord word replacement t = t := by
    intro word replacement hne
    induction t with
    | nil => exact if_neg hne.symm
    | cons c t ih =>
        rw [List.all_cons, Bool.and_eq_true] at h
        have hc := Bool.eq_false_iff.mp (isWord_of_isSpace h.1)
        rw [replaceWord, replaceWordFrom, if_neg hc, if_neg hne.symm, List.nil_append]
        exact congrArg (c :: ·) (ih h.2)
  unfold keywords
  rw [hword (by decide), hword (by decide), hword (by decide), hword (by decide),
    hword (by decide), hword (by decide)]

theorem keywords_cons {c : Char} (hc : isWord c = false) (t : Text) :
    keywords (c :: t) = c :: keywords t := by
  have hword : ∀ {word replacement : String} {t : Text}, word.toList ≠ [] →
      replaceWord word replacement (c :: t) = c :: replaceWord word replacement t := by
    intro word replacement t hne
    rw [replaceWord, replaceWordFrom, if_neg (Bool.eq_false_iff.mp hc), if_neg hne.symm]
    rfl
  unfold keywords
  rw [hword (by decide), hword (by decide), hword (by decide), hword (by decide),
    hword (by decide), hword (by decide)]

namespace Keyword

variable {k : Keyword}

theorem takeWhile_line (hsolid : Solid t) (hword : t.takeWhile isWord = k.text) :
    (keywords (cleaned t)).takeWhile isWord = k.text := by
  rw [takeWhile_keywords (renamed_blockWords _ k.mem_blockWords), takeWhile_cleaned hsolid, hword]

theorem startsWithWord_of_ne {k' : Keyword} (h : line.takeWhile isWord = k.text) (hne : k ≠ k') :
    startsWithWord k'.text line = false :=
  not_startsWithWord k'.mem_blockWords fun heq => hne (text_injective (h.symm.trans heq))

theorem isColonWord_of_ne {k' : Keyword} (h : line.takeWhile isWord = k.text) (hne : k ≠ k') :
    isColonWord k'.text line = false :=
  not_isColonWord k'.mem_blockWords fun heq => hne (text_injective (h.symm.trans heq))

theorem openerText_eq (hk : k.continues = false) (hword : line.dropLast.takeWhile isWord = k.text) :
    openerText line.dropLast = k.written line := by
  have hstarts : ∀ k' : Keyword, startsWithWord k'.text line.dropLast = decide (k = k') :=
    fun k' => by
      rw [Bool.eq_iff_iff, startsWithWord_iff k'.wordly, hword, decide_eq_true_iff]
      exact text_injective.eq_iff
  have hif : startsWithWord "if".toList line.dropLast = _ := hstarts .if_
  have hfor : startsWithWord "for".toList line.dropLast = _ := hstarts .for_
  have hwhile : startsWithWord "while".toList line.dropLast = _ := hstarts .while_
  have hdef : startsWithWord "def".toList line.dropLast = _ := hstarts .def_
  have htry : startsWithWord "try".toList line.dropLast = _ := hstarts .try_
  have hwith : startsWithWord "with".toList line.dropLast = _ := hstarts .with_
  rw [openerText, hif, hfor, hwhile, hdef, htry, hwith]
  cases k with
  | elif_ | else_ | except_ | finally_ => cases hk
  | if_ | for_ | while_ | def_ | try_ | with_ => rfl

/-- A line that begins a block is taken for a header if it ends with its colon. -/
theorem emitted_opens (hk : k.continues = false) (hline : line.takeWhile isWord = k.text) :
    emitted line = if isBlockOpen line then .opens (k.written line)
      else .statement (statementText line) := by
  have hne : ∀ {k'}, k'.continues = true → k ≠ k' := fun hk' heq => by
    rw [heq, hk'] at hk
    cases hk
  have helif : startsWithWord "elif".toList line = false :=
    startsWithWord_of_ne hline (show k ≠ .elif_ from hne rfl)
  have helse : isColonWord "else".toList line = false :=
    isColonWord_of_ne hline (show k ≠ .else_ from hne rfl)
  have hexcept : startsWithWord "except".toList line = false :=
    startsWithWord_of_ne hline (show k ≠ .except_ from hne rfl)
  have hfinally : isColonWord "finally".toList line = false :=
    isColonWord_of_ne hline (show k ≠ .finally_ from hne rfl)
  rw [emitted, helif, helse, hexcept, hfinally]
  cases hopen : isBlockOpen line with
  | false => rfl
  | true =>
      have hlast := (Bool.and_eq_true_iff.mp (Bool.and_eq_true_iff.mp hopen).1).2
      obtain ⟨a, rfl⟩ := List.getLast?_eq_some_iff.mp (beq_iff_eq.mp hlast)
      have hword : (a ++ [':']).dropLast.takeWhile isWord = k.text := by
        rw [← hline, List.dropLast_concat, takeWhile_append_cons (by decide)]
      rw [openerText_eq hk hword]
      rfl

theorem emitted_continues (hk : k.continues = true) (hline : line.takeWhile isWord = k.text)
    (hcolon : k.bare = true → isColonWord k.text line = true) :
    emitted line = .continues (k.written line) := by
  have hstart : startsWithWord k.text line = true := (startsWithWord_iff k.wordly).mpr hline
  have hother : ∀ {k'}, k ≠ k' → startsWithWord k'.text line = false := startsWithWord_of_ne hline
  have hother' : ∀ {k'}, k ≠ k' → isColonWord k'.text line = false := isColonWord_of_ne hline
  rw [emitted]
  cases k with
  | if_ | for_ | while_ | def_ | try_ | with_ => cases hk
  | elif_ => exact if_pos hstart
  | else_ =>
      have helif : startsWithWord "elif".toList line = false :=
        hother (by decide : Keyword.else_ ≠ .elif_)
      have helse : isColonWord "else".toList line = true := hcolon rfl
      rw [helif, helse]
      rfl
  | except_ =>
      have helif : startsWithWord "elif".toList line = false :=
        hother (by decide : Keyword.except_ ≠ .elif_)
      have helse : isColonWord "else".toList line = false :=
        hother' (by decide : Keyword.except_ ≠ .else_)
      have hexcept : startsWithWord "except".toList line = true := hstart
      rw [helif, helse, hexcept]
      rfl
  | finally_ =>
      have helif : startsWithWord "elif".toList line = false :=
        hother (by decide : Keyword.finally_ ≠ .elif_)
      have helse : isColonWord "else".toList line = false :=
        hother' (by decide : Keyword.finally_ ≠ .else_)
      have hexcept : startsWithWord "except".toList line = false :=
        hother (by decide : Keyword.finally_ ≠ .except_)
      have hfinally : isColonWord "finally".toList line = true := hcolon rfl
      rw [helif, helse, hexcept, hfinally]
      rfl

theorem cleaned_colon {a : Text} (hsolid : Solid a) (hcomment : '#' ∉ a) (note : Text) :
    ∃ note', cleaned (a ++ ':' :: note) = a ++ ':' :: note' := by
  have hkept : ∀ t, (a ++ ':' :: t).rdropWhile isSpace = a ++ ':' :: t.rdropWhile isSpace :=
    rdropWhile_append (by decide) a
  have hplain : '#' ∉ a ++ [':'] := fun hmem => (List.mem_append.mp hmem).elim hcomment (by decide)
  have hstrip : ∀ t, stripComment (a ++ ':' :: t) = a ++ ':' :: stripComment t := by
    intro t
    have happend := stripComment_append (stripComment_of_notMem hplain) t
    rwa [List.append_assoc, List.append_assoc] at happend
  refine ⟨(stripComment (note.rdropWhile isSpace)).rdropWhile isSpace, ?_⟩
  rw [cleaned, trim_of_solid (hsolid.append _), hkept, hstrip, hkept]

theorem isColonWord_line (hbare : ∃ blanks note, t = k.text ++ (blanks ++ ':' :: note) ∧
    blanks.all isSpace = true) : isColonWord k.text (keywords (cleaned t)) = true := by
  obtain ⟨blanks, note, ht, hblanks⟩ := hbare
  have hspaces : ∀ c ∈ blanks, isSpace c = true := List.all_eq_true.mp hblanks
  have hnote : '#' ∉ k.text ++ blanks := fun hmem => (List.mem_append.mp hmem).elim
    k.notComment fun hmem => absurd (hspaces _ hmem) (by decide)
  obtain ⟨note', hcleaned⟩ := cleaned_colon (k.solid.append blanks) hnote note
  have hbounded : Bounded (blanks ++ ':' :: note') := by
    cases blanks with
    | nil => rfl
    | cons c blanks => exact bounded_cons.mpr (isWord_of_isSpace (hspaces c List.mem_cons_self))
  rw [ht, ← List.append_assoc, hcleaned, List.append_assoc, keywords_append hbounded,
    k.keywords_text, keywords_append (show Bounded (':' :: note') from rfl),
    keywords_of_spaces hblanks, keywords_cons rfl, isColonWord, literal_append]
  dsimp only
  rw [List.dropWhile_append_of_pos hspaces]
  rfl

end Keyword

/-- The header of a block: a keyword, a text, a colon, and perhaps a comment without quotes. -/
structure Head where
  keyword : Keyword
  rest : Text
  comment : Text
  bounded : Bounded rest
  bare : keyword.bare = true → rest.all isSpace = true
  /-- in `rest`, a `#` stands in front of a quote -/
  coded : stripComment rest = rest
  commented : comment = [] ∨ ∃ blanks note, comment = blanks ++ '#' :: note ∧
    blanks.all isSpace = true ∧ note.all (fun c => c ∉ ['\x27', '\x22', '\n']) = true
  dots : rest.all isDot = true

namespace Head

variable (h : Head)

def code : Text := h.keyword.text ++ (h.rest ++ [':'])

def text : Text := h.code ++ h.comment

theorem code_eq : h.code = h.keyword.text ++ h.rest ++ [':'] := by
  rw [code, List.append_assoc]

theorem solid_code : Solid h.code := h.keyword.solid.append _

theorem solid_text : Solid h.text := h.solid_code.append _

theorem first : h.text.head? ≠ some '#' := by
  have hkeyword := h.keyword.notComment
  have hsolid := h.keyword.solid
  rw [text, code]
  cases htext : h.keyword.text with
  | nil => exact absurd (htext ▸ hsolid) not_solid_nil
  | cons c t =>
      rw [htext] at hkeyword
      exact fun heq => hkeyword (Option.some.inj heq ▸ List.mem_cons_self)

theorem stripComment_code (t : Text) : stripComment (h.code ++ t) = h.code ++ stripComment t := by
  have hcode : stripComment h.code = h.code := by
    rw [code, stripComment_append (stripComment_of_notMem h.keyword.notComment),
      stripComment_append h.coded]
    rfl
  exact stripComment_append hcode t

theorem rdropWhile_code {t : Text} (ht : t.all isSpace = true) :
    (h.code ++ t).rdropWhile isSpace = h.code := by
  have hcons : h.code ++ t = (h.keyword.text ++ h.rest) ++ ':' :: t := by
    rw [code_eq, List.append_assoc, List.singleton_append]
  rw [hcons, rdropWhile_append (by decide), List.rdropWhile_eq_nil_iff.mpr
    (List.all_eq_true.mp ht), code_eq]

theorem cleaned_text : cleaned h.text = h.code := by
  rw [cleaned, trim_of_solid h.solid_text, text]
  rcases h.commented with hnone | ⟨blanks, note, hsome, hblanks, hnote⟩
  · rw [hnone, h.rdropWhile_code rfl]
    have hcode := h.stripComment_code []
    rw [List.append_nil] at hcode
    rw [hcode, stripComment, h.rdropWhile_code rfl]
  · have hnote' : (note.rdropWhile isSpace).all (fun c => c ∉ ['\x27', '\x22', '\n']) = true :=
      List.all_eq_true.mpr fun c hc =>
        List.all_eq_true.mp hnote c ((List.rdropWhile_prefix isSpace _).subset hc)
    have hblank : '#' ∉ blanks := fun hmem =>
      absurd (List.all_eq_true.mp hblanks _ hmem) (by decide)
    rw [hsome, ← List.append_assoc, rdropWhile_append (by decide), List.append_assoc,
      h.stripComment_code, stripComment_append (stripComment_of_notMem hblank), stripComment,
      if_pos ⟨rfl, hnote'⟩, List.append_nil, h.rdropWhile_code hblanks]

/-- The words of the text, in JavaScript. -/
def words : Text := keywords h.rest

theorem bounded_words : Bounded h.words := h.bounded.keywords

def seen : Text := h.keyword.text ++ (h.words ++ [':'])

theorem keywords_code : keywords h.code = h.seen := by
  rw [code, keywords_append h.bounded.colon, keywords_append (show Bounded [':'] from rfl),
    h.keyword.keywords_text]
  rfl

theorem takeWhile_seen : h.seen.takeWhile isWord = h.keyword.text :=
  takeWhile_of_bounded h.keyword.wordly h.bounded_words.colon

theorem startsWithWord_seen (k : Keyword) :
    startsWithWord k.text h.seen = true ↔ h.keyword = k := by
  rw [startsWithWord_iff k.wordly, takeWhile_seen]
  exact Keyword.text_injective.eq_iff

theorem isColonWord_seen {k : Keyword} (hk : k.bare = true) :
    isColonWord k.text h.seen = true ↔ h.keyword = k := by
  constructor
  · intro hcolon
    have hword := takeWhile_of_isColonWord k.wordly hcolon
    rw [takeWhile_seen] at hword
    exact Keyword.text_injective hword
  · rintro rfl
    have hspaces := h.bare hk
    have hword : ∀ c ∈ h.rest, isSpace c = true := List.all_eq_true.mp hspaces
    rw [isColonWord, seen, literal_append, words, keywords_of_spaces hspaces]
    dsimp only
    rw [List.dropWhile_append_of_pos hword]
    rfl

theorem isBlockOpen_seen : isBlockOpen h.seen = true := by
  have hany : blockWords.any (startsWithWord · h.seen) = true :=
    List.any_eq_true.mpr ⟨_, h.keyword.mem_blockWords, (h.startsWithWord_seen _).mpr rfl⟩
  have hlast : h.seen.getLast? = some ':' := by
    rw [seen, ← List.append_assoc, List.getLast?_concat]
  have hdots : h.seen.all isDot = true := by
    have hkeyword : h.keyword.text.all isDot = true := by cases h.keyword <;> decide
    rw [seen, List.all_append, List.all_append, words, hkeyword,
      all_keywords (by decide) h.dots]
    rfl
  rw [isBlockOpen, hany, hlast, hdots]
  rfl

theorem dropLast_seen : h.seen.dropLast = h.keyword.text ++ h.words := by
  rw [seen, ← List.append_assoc, List.dropLast_concat]

/-- What it becomes, but for the brace in front of a clause that goes on. -/
def written : Text := h.keyword.written h.seen

theorem content_text : content h.text =
    if h.keyword.continues then .continues h.written else .opens h.written := by
  rw [content, cleaned_text, keywords_code]
  cases hk : h.keyword.continues with
  | false =>
      rw [Keyword.emitted_opens hk h.takeWhile_seen, if_pos h.isBlockOpen_seen, written]
      rfl
  | true =>
      rw [Keyword.emitted_continues hk h.takeWhile_seen fun hb => (h.isColonWord_seen hb).mpr rfl]
      rfl

theorem text_content : (content h.text).text = h.written := by
  rw [content_text]
  split
  · rw [Emitted.text]
  · rw [Emitted.text]

end Head

end VidhiArena.Browser.Transpile
