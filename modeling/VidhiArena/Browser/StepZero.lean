import VidhiArena.Browser.SourceLines

/-!
# Step 0 of the transpiler

The regular expressions of step 0 run over the whole text, but all that they take away ends
with its line. So they can be followed line by line: a line is kept, or cut at a decorator,
or taken away.
-/

namespace VidhiArena.Browser.Transpile

open Foundation.BracedLines

variable {m : Bool → Text → Option Text} {b : Bool} {a l l' l'' t quote : Text}

/-! ## Deletion -/

/-- Whether a line begins behind a text. -/
def after (b : Bool) (t : Text) : Bool := t.foldl (fun _ c => !isDot c) b

theorem after_of_dots {c : Char} (h : (c :: t).all isDot = true) : after b (c :: t) = false := by
  induction t using List.reverseRecOn with
  | nil =>
      rw [List.all_cons, Bool.and_eq_true] at h
      exact congrArg (!·) h.1
  | append_singleton t d ih =>
      rw [← List.cons_append, List.all_append, Bool.and_eq_true] at h
      have hd : isDot d = true := List.all_eq_true.mp h.2 d List.mem_cons_self
      rw [← List.cons_append, after, List.foldl_append]
      exact congrArg (!·) hd

theorem deleteAll_skip (a : Text) : ∀ b, deleteAll m a.length b (a ++ t) =
    deleteAll m 0 (after b a) t := by
  induction a with
  | nil => exact fun b => rfl
  | cons c a ih => exact fun b => ih (!isDot c)

theorem deleteAll_match {c : Char} {a : Text} (h : m b (c :: (a ++ t)) = some t) :
    deleteAll m 0 b (c :: (a ++ t)) = deleteAll m 0 (after (!isDot c) a) t := by
  have hlength : (a ++ t).length - t.length = a.length := by
    rw [List.length_append, Nat.add_sub_cancel]
  rw [deleteAll, h]
  dsimp only
  rw [hlength, deleteAll_skip]

theorem deleteAll_keep (l : Text) : ∀ b,
    (∀ a c l', l = a ++ c :: l' → m (after b a) (c :: (l' ++ t)) = none) →
      deleteAll m 0 b (l ++ t) = l ++ deleteAll m 0 (after b l) t := by
  induction l with
  | nil => exact fun b _ => rfl
  | cons c l ih =>
      intro b h
      have hc : m b (c :: (l ++ t)) = none := h [] c l rfl
      rw [List.cons_append, deleteAll, hc]
      exact congrArg (c :: ·) (ih (!isDot c) fun a d l' hl => h (c :: a) d l' (congrArg (c :: ·) hl))

/-! ## One line -/

/-- What becomes of a line, at the end of the text and in front of other lines. -/
def Pass (m : Bool → Text → Option Text) (l l' : Text) : Prop :=
  deleteAll m 0 true l = l' ∧
    ∀ t, deleteAll m 0 true (l ++ '\n' :: t) = l' ++ '\n' :: deleteAll m 0 true t

theorem deleteAll_newline (h : m b ('\n' :: t) = none) :
    deleteAll m 0 b ('\n' :: t) = '\n' :: deleteAll m 0 true t := by
  rw [deleteAll, h]
  rfl

theorem Pass.keep (hnewline : ∀ b t, m b ('\n' :: t) = none)
    (h : ∀ t, t.head?.all (· == '\n') = true → ∀ a c l', l = a ++ c :: l' →
      m (after true a) (c :: (l' ++ t)) = none) : Pass m l l := by
  constructor
  · have hkeep := deleteAll_keep (t := []) l true (h [] rfl)
    rw [List.append_nil, deleteAll, List.append_nil] at hkeep
    exact hkeep
  · intro t
    rw [deleteAll_keep l true (h _ rfl), deleteAll_newline (hnewline _ _)]

theorem literal_of_ne {c d : Char} (h : c ≠ d) (word t : Text) : literal (c :: word) (d :: t) = none :=
  if_neg fun hstart => h (List.cons_prefix_cons.mp (List.isPrefixOf_iff_prefix.mp hstart)).1

theorem prefix_of_prefix_append (hq : '\n' ∉ quote) (ht : t.head?.all (· == '\n') = true) :
    ∀ {a : Text}, quote <+: a ++ t → quote <+: a := by
  induction quote with
  | nil => exact fun _ => List.nil_prefix
  | cons c quote ih =>
      intro a h
      obtain ⟨hc, hquote⟩ := List.ne_and_not_mem_of_not_mem_cons hq
      cases a with
      | nil =>
          cases t with
          | nil => exact h
          | cons d t =>
              obtain rfl := beq_iff_eq.mp ht
              exact absurd (List.cons_prefix_cons.mp h).1.symm hc
      | cons d a =>
          obtain ⟨rfl, htail⟩ := List.cons_prefix_cons.mp h
          exact List.cons_prefix_cons.mpr ⟨rfl, ih hquote htail⟩

theorem pass_quoted {c : Char} (hq : '\n' ∉ c :: quote) (h : ¬ c :: quote <:+: l) :
    Pass (quoted (c :: quote)) l l := by
  have hnone : ∀ {t : Text} (b : Bool), ¬ c :: quote <+: t → quoted (c :: quote) b t = none := by
    intro t b hstart
    rw [quoted, literal, if_neg fun h => hstart (List.isPrefixOf_iff_prefix.mp h)]
    rfl
  refine Pass.keep (fun b t => hnone b fun hstart => ?_) fun t ht a d l' hl => ?_
  · exact hq ((List.cons_prefix_cons.mp hstart).1 ▸ List.mem_cons_self)
  · refine hnone _ fun hstart => h ?_
    rw [← List.cons_append] at hstart
    rw [hl]
    exact (prefix_of_prefix_append hq ht hstart).isInfix.trans (List.suffix_append a _).isInfix

theorem Pass.delete {c : Char} {a kept : Text} (hnewline : ∀ b t, m b ('\n' :: t) = none)
    (hkeep : ∀ t, ∀ a c l', kept = a ++ c :: l' → m (after true a) (c :: (l' ++ t)) = none)
    (h : ∀ t, t.head?.all (· == '\n') = true → m (after true kept) (c :: (a ++ t)) = some t) :
    Pass m (kept ++ c :: a) kept := by
  have hmatch : ∀ t, t.head?.all (· == '\n') = true → ∃ b, deleteAll m 0 true (kept ++ c :: (a ++ t)) =
      kept ++ deleteAll m 0 b t := by
    intro t ht
    exact ⟨_, by rw [deleteAll_keep kept true (hkeep _), deleteAll_match (h t ht)]⟩
  constructor
  · obtain ⟨b, hb⟩ := hmatch [] rfl
    rwa [List.append_nil, deleteAll, List.append_nil] at hb
  · intro t
    obtain ⟨b, hb⟩ := hmatch ('\n' :: t) rfl
    rw [List.append_assoc, List.cons_append, hb, deleteAll_newline (hnewline b t)]

/-- The quotes that end a string of three quotes. -/
def tripled (q : Char) : Text := [q, q, q]

theorem behind_tripled {q : Char} {note : Text} (hnote : ¬ tripled q <:+: note ++ [q, q]) (t : Text) :
    behind (tripled q) (note ++ (tripled q ++ t)) = some t := by
  induction note with
  | nil =>
      have hstart : (tripled q).isPrefixOf (q :: ([q, q] ++ t)) = true :=
        List.isPrefixOf_iff_prefix.mpr (List.prefix_append (tripled q) t)
      show behind (tripled q) (q :: ([q, q] ++ t)) = some t
      rw [behind, hstart]
      exact literal_append (tripled q) t
  | cons c note ih =>
      -- three quotes that begin earlier would begin in the text
      have hstart : (tripled q).isPrefixOf (c :: (note ++ (tripled q ++ t))) = false := by
        refine Bool.eq_false_iff.mpr fun h => hnote ?_
        have hall : c :: note ++ [q, q] <+: c :: (note ++ (tripled q ++ t)) :=
          ⟨q :: t, by simp [tripled]⟩
        exact (List.prefix_of_prefix_length_le (List.isPrefixOf_iff_prefix.mp h) hall
          (by simp [tripled])).isInfix
      have hlater : ¬ tripled q <:+: note ++ [q, q] := fun h =>
        hnote (h.trans (List.suffix_cons c _).isInfix)
      rw [List.cons_append, behind, hstart]
      exact ih hlater

theorem pass_doc {q : Char} {margin note : Text} (hq : isDot q = true) (hmargin : q ∉ margin)
    (hnote : ¬ tripled q <:+: note ++ [q, q]) :
    Pass (quoted (tripled q)) (margin ++ (tripled q ++ (note ++ tripled q))) margin := by
  have hnone : ∀ {c : Char} (b : Bool) (t : Text), q ≠ c → quoted (tripled q) b (c :: t) = none := by
    intro c b t hc
    rw [quoted, show literal (tripled q) (c :: t) = none from literal_of_ne hc _ _]
    rfl
  have hnewline : q ≠ '\n' := fun heq => absurd (heq ▸ hq) (by decide)
  refine Pass.delete (c := q) (fun b t => hnone b t hnewline) (fun t a c l' hl => ?_) fun t _ => ?_
  · exact hnone _ _ fun heq => hmargin (hl ▸ heq ▸ List.mem_append_right _ List.mem_cons_self)
  · have hliteral := literal_append (tripled q) (note ++ (tripled q ++ t))
    rw [← List.append_assoc note] at hliteral
    rw [quoted]
    refine (congrArg (Option.bind · (behind _)) hliteral).trans ?_
    rw [List.append_assoc]
    exact behind_tripled hnote t

theorem dropWhile_dots {names : Text} (hnames : names.all isDot = true)
    (ht : t.head?.all (· == '\n') = true) : (names ++ t).dropWhile isDot = t := by
  rw [List.dropWhile_append_of_pos (List.all_eq_true.mp hnames)]
  cases t with
  | nil => rfl
  | cons c t =>
      obtain rfl := beq_iff_eq.mp ht
      rfl

theorem some1_append {p : Char → Bool} {a : Text} (hne : a ≠ []) (ha : ∀ c ∈ a, p c = true)
    (ht : t.head?.any p = false) : some1 p (a ++ t) = some t := by
  have hdrop : t.dropWhile p = t := by
    cases t with
    | nil => rfl
    | cons c t => exact List.dropWhile_cons_of_neg (Bool.eq_false_iff.mp ht)
  cases a with
  | nil => exact absurd rfl hne
  | cons c a =>
      rw [some1, List.dropWhile_append_of_pos ha, hdrop]
      exact if_pos (ha c List.mem_cons_self)

theorem some1_blank {c : Char} (hc : isSpace c = false) :
    some1 isSpace (' ' :: c :: t) = some (c :: t) :=
  some1_append (a := [' ']) (List.cons_ne_nil _ _) (forall_of_all (by decide)) hc

theorem pass_from {source names : Text} (hne : source ≠ [])
    (hsource : ∀ c ∈ source, isSpace c = false) (hnames : names.all isDot = true) :
    Pass fromImport ("from ".toList ++ (source ++ (" import".toList ++ names))) [] := by
  have hline : "from ".toList ++ (source ++ (" import".toList ++ names)) =
      [] ++ 'f' :: ("rom ".toList ++ (source ++ (" import".toList ++ names))) := rfl
  rw [hline]
  refine Pass.delete (fun b t => ?_) (fun t a c l' hl => ?_) fun t ht => ?_
  · cases b <;> rfl
  · cases a <;> cases hl
  · have hsource' : ∀ c ∈ source, (!isSpace c) = true := fun c hc =>
      Bool.not_eq_eq_eq_not.mpr (hsource c hc)
    have hfrom := literal_append "from".toList (' ' :: (source ++ " import".toList ++ (names ++ t)))
    have hblank : some1 isSpace (' ' :: (source ++ " import".toList ++ (names ++ t))) =
        some (source ++ " import".toList ++ (names ++ t)) := by
      cases source with
      | nil => exact absurd rfl hne
      | cons c source => exact some1_blank (hsource c List.mem_cons_self)
    have hname : some1 (fun c => !isSpace c) (source ++ (" import".toList ++ (names ++ t))) =
        some (" import".toList ++ (names ++ t)) := some1_append hne hsource' rfl
    have hblank' : some1 isSpace (" import".toList ++ (names ++ t)) =
        some ("import".toList ++ (names ++ t)) := some1_blank (by decide)
    have himport := literal_append "import".toList (names ++ t)
    have htext : 'f' :: ("rom ".toList ++ (source ++ (" import".toList ++ names)) ++ t) =
        "from".toList ++ (' ' :: (source ++ " import".toList ++ (names ++ t))) := by
      rw [List.append_assoc, List.append_assoc, List.append_assoc, List.append_assoc]
      rfl
    rw [← List.append_assoc] at hname
    rw [htext]
    simp only [fromImport, after, List.foldl_nil, if_true, hfrom, hblank, hname, hblank', himport,
      Option.bind_eq_bind, Option.bind_some, dropWhile_dots hnames ht]
    rfl

theorem pass_import {c : Char} {names : Text} (hc : isSpace c = false)
    (hnames : (c :: names).all isDot = true) :
    Pass plainImport ("import ".toList ++ c :: names) [] := by
  have hline : "import ".toList ++ c :: names = [] ++ 'i' :: ("mport ".toList ++ c :: names) := rfl
  rw [hline]
  refine Pass.delete (fun b t => ?_) (fun t a c l' hl => ?_) fun t ht => ?_
  · cases b <;> rfl
  · cases a <;> cases hl
  · have himport := literal_append "import".toList (' ' :: c :: (names ++ t))
    have hblank : some1 isSpace (' ' :: c :: (names ++ t)) = some (c :: names ++ t) :=
      some1_blank hc
    have htext : 'i' :: ("mport ".toList ++ c :: names ++ t) =
        "import".toList ++ (' ' :: c :: (names ++ t)) := by
      rw [List.append_assoc]
      rfl
    rw [htext]
    simp only [plainImport, after, List.foldl_nil, if_true, himport, hblank, Option.bind_eq_bind,
      Option.bind_some, dropWhile_dots hnames ht]
    rfl

/-- What matches at the beginning of a line is known by its first character. -/
theorem Pass.other {d : Char} (hd : isDot d = true) (hstart : ∀ c t, d ≠ c → m true (c :: t) = none)
    (hinside : ∀ t, m false t = none) (hl : l.all isDot = true) (hhead : l.head? ≠ some d) :
    Pass m l l := by
  refine Pass.keep (fun b t => ?_) fun t _ a c l' heq => ?_
  · cases b with
    | false => exact hinside _
    | true => exact hstart _ _ fun heq => absurd (heq ▸ hd) (by decide)
  · cases a with
    | nil => exact hstart _ _ fun hc => hhead (by rw [heq, hc]; rfl)
    | cons d a =>
        rw [heq, List.all_append, Bool.and_eq_true] at hl
        rw [after_of_dots hl.1]
        exact hinside _

theorem pass_fromImport (hl : l.all isDot = true) (hf : l.head? ≠ some 'f') :
    Pass fromImport l l := by
  refine Pass.other (by decide) (fun c t hc => ?_) (fun t => rfl) hl hf
  rw [fromImport, if_pos rfl, show literal "from".toList (c :: t) = none from literal_of_ne hc _ _]
  rfl

theorem pass_plainImport (hl : l.all isDot = true) (hi : l.head? ≠ some 'i') :
    Pass plainImport l l := by
  refine Pass.other (by decide) (fun c t hc => ?_) (fun t => rfl) hl hi
  rw [plainImport, if_pos rfl,
    show literal "import".toList (c :: t) = none from literal_of_ne hc _ _]
  rfl

/-! ## Decorators -/

theorem decorator_line {c : Char} (hl : '\n' ∉ l) (b : Bool) :
    (decorator b (c :: l) = none ∧ ∀ t, decorator b (c :: (l ++ '\n' :: t)) = none) ∨
      (c = '@' ∧ decorator b (c :: l) = some [] ∧
        ∀ t, decorator b (c :: (l ++ '\n' :: t)) = some ('\n' :: t)) := by
  by_cases hc : c = '@'
  · subst hc
    have hword : ∀ t, (l ++ '\n' :: t).head?.any isWord = l.head?.any isWord := by
      intro t
      cases l <;> rfl
    have hliteral : ∀ t, decorator b ('@' :: t) =
        (some1 isWord t).map fun t => t.dropWhile (· ≠ '\n') := by
      intro t
      rw [decorator, show literal ['@'] ('@' :: t) = some t from literal_append ['@'] t]
      rfl
    by_cases hw : l.head?.any isWord = true
    · have hkept : ∀ c ∈ l.dropWhile isWord, decide (c ≠ '\n') = true := fun c hc =>
        decide_eq_true fun heq => hl (heq ▸ (List.dropWhile_suffix isWord).subset hc)
      refine Or.inr ⟨rfl, ?_, fun t => ?_⟩
      · rw [hliteral, some1, if_pos hw, Option.map_some, List.dropWhile_eq_nil_iff.mpr hkept]
      · have hdrop : (l ++ '\n' :: t).dropWhile isWord = l.dropWhile isWord ++ '\n' :: t := by
          rw [List.dropWhile_append]
          split
          · have hnil : l.dropWhile isWord = [] := List.isEmpty_iff.mp (by assumption)
            rw [hnil]
            rfl
          · rfl
        rw [hliteral, some1, if_pos ((hword t).trans hw), Option.map_some, hdrop,
          List.dropWhile_append_of_pos hkept]
        rfl
    · refine Or.inl ⟨?_, fun t => ?_⟩
      · rw [hliteral, some1, if_neg hw]
        rfl
      · rw [hliteral, some1, hword t, if_neg hw]
        rfl
  · have hnone : ∀ t, decorator b (c :: t) = none := by
      intro t
      rw [decorator, literal_of_ne (Ne.symm hc)]
      rfl
    exact Or.inl ⟨hnone _, fun t => hnone _⟩

theorem deleteAll_decorator (hl : '\n' ∉ l) : ∀ b,
    ∃ cut, l = deleteAll decorator 0 b l ++ cut ∧ cut.head?.all (· == '@') = true ∧
      ∀ t, deleteAll decorator 0 b (l ++ '\n' :: t) =
        deleteAll decorator 0 b l ++ '\n' :: deleteAll decorator 0 true t := by
  induction l with
  | nil => exact fun b => ⟨[], rfl, rfl, fun t => deleteAll_newline rfl⟩
  | cons c l ih =>
      intro b
      obtain ⟨-, hl⟩ := List.ne_and_not_mem_of_not_mem_cons hl
      rcases decorator_line (c := c) hl b with ⟨hnone, hnone'⟩ | ⟨rfl, hsome, hsome'⟩
      · obtain ⟨cut, heq, hcut, hline⟩ := ih hl (!isDot c)
        have hkept : deleteAll decorator 0 b (c :: l) =
            c :: deleteAll decorator 0 (!isDot c) l := by
          rw [deleteAll, hnone]
        refine ⟨cut, ?_, hcut, fun t => ?_⟩
        · rw [hkept]
          exact congrArg (c :: ·) heq
        · rw [hkept, List.cons_append, deleteAll, hnone']
          exact congrArg (c :: ·) (hline t)
      · have hcut : deleteAll decorator 0 b ('@' :: l) = [] := by
          have := deleteAll_match (a := l) (t := []) (by rw [List.append_nil]; exact hsome)
          rwa [List.append_nil] at this
        refine ⟨'@' :: l, ?_, rfl, fun t => ?_⟩
        · rw [hcut]
          rfl
        · rw [hcut, List.cons_append, deleteAll_match (hsome' t), deleteAll_newline rfl]
          rfl

/-- The text of a line behind step 0. -/
def undecorated (t : Text) : Text := deleteAll decorator 0 true t

theorem undecorated_isPrefix (hl : '\n' ∉ l) : undecorated l <+: l := by
  obtain ⟨cut, heq, -, -⟩ := deleteAll_decorator hl true
  exact ⟨cut, heq.symm⟩

theorem undecorated_append (ha : '@' ∉ a) (t : Text) :
    undecorated (a ++ t) = a ++ undecorated t := by
  have hbool : ∀ (t : Text) (k : Nat) (b b' : Bool),
      deleteAll decorator k b t = deleteAll decorator k b' t := by
    intro t k b b'
    cases t with
    | nil => rfl
    | cons c t => cases k <;> rfl
  have hkeep := deleteAll_keep (m := decorator) (t := t) a true fun a' c l' heq => by
    have hc : '@' ≠ c := fun hc => ha (by rw [heq, hc]; exact List.mem_append_right _ List.mem_cons_self)
    rw [decorator, literal_of_ne hc]
    rfl
  rw [undecorated, hkeep, hbool t 0 _ true]
  rfl

theorem undecorated_of_notMem (ha : '@' ∉ a) : undecorated a = a := by
  have h := undecorated_append ha []
  rw [List.append_nil] at h
  exact h.trans (List.append_nil a)

theorem pass_decorator (hl : '\n' ∉ l) : Pass decorator l (undecorated l) := by
  obtain ⟨-, -, -, hline⟩ := deleteAll_decorator hl true
  exact ⟨rfl, hline⟩

end VidhiArena.Browser.Transpile
