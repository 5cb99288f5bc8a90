import Mathlib.Data.List.Forall2
import VidhiArena.Browser.BlockStructure
import VidhiArena.Browser.OutputLines

/-!
# The text of a strategy

The lines before `on_tick`, its header, and a tree of blocks under any margin, and what step 0
of the transpiler makes of them: strings of three quotes, decorators and imports are deleted,
and the header of `on_tick` is marked if nothing stands in front of its colon.
-/

namespace VidhiArena.Browser.Transpile

open Foundation.BracedLines

variable {t a b l l' : Text}

/-! ## Strategies -/

/-- A line before the header. -/
inductive Before where
  | gap (g : Gap)
  /-- `import names` -/
  | import_ (c : Char) (names : Text) (solid : isSpace c = false)
      (dots : (c :: names).all isDot = true) (unquoted : Unquoted (c :: names))
      (unmarked : '@' ∉ c :: names)
  /-- `from source import names` -/
  | from_ (source names : Text) (nonempty : source ≠ [])
      (solid : ∀ c ∈ source, isSpace c = false) (dots : names.all isDot = true)
      (unquoted : Unquoted (source ++ " import".toList ++ names))
      (unmarked : '@' ∉ source ++ names)

def Before.raw : Before → Text
  | gap g => g.raw []
  | import_ c names _ _ _ _ => "import ".toList ++ c :: names
  | from_ source names _ _ _ _ _ => "from ".toList ++ (source ++ (" import".toList ++ names))

def Before.line : Before → Text
  | gap g => g.line []
  | import_ _ _ _ _ _ _ => []
  | from_ _ _ _ _ _ _ _ => []

/-- A strategy, one statement or header to a line. -/
structure Program where
  before : List Before
  params : Text
  /-- what stands between the parentheses and the colon: an annotation, say -/
  result : Text
  /-- what stands behind the colon -/
  tail : Text
  margin : Margin
  body : Code
  closed : ')' ∉ params
  returns : (result.dropWhile isSpace).head? ≠ some ':'
  dots : (params ++ ')' :: (result ++ ':' :: tail)).all isDot = true
  unquoted : Unquoted (params ++ ')' :: (result ++ ':' :: tail))
  unmarked : '@' ∉ params ++ result
  chained : body.Chained false
  /-- No block is empty. -/
  filled : body.blocks.Filled

/-! ## Quotes -/

theorem not_tripled_append {q : Char} (ha : q ∉ a) (h : ¬ tripled q <:+: t) :
    ¬ tripled q <:+: a ++ t := by
  induction a with
  | nil => exact h
  | cons c a ih =>
      rw [List.mem_cons, not_or] at ha
      intro hinfix
      rcases List.infix_cons_iff.mp hinfix with hstart | hinfix
      · exact ha.1 (List.cons_prefix_cons.mp hstart).1
      · exact ih ha.2 hinfix

theorem not_tripled_append_right {q : Char} (hb : q ∉ b) (h : ¬ tripled q <:+: t) :
    ¬ tripled q <:+: t ++ b := by
  have hreverse : ∀ {s : Text}, tripled q <:+: s.reverse ↔ tripled q <:+: s := fun {s} =>
    show (tripled q).reverse <:+: s.reverse ↔ _ from List.reverse_infix
  rw [← hreverse, List.reverse_append]
  exact not_tripled_append (mt List.mem_reverse.mp hb) (mt hreverse.mp h)

def Quoteless (t : Text) : Prop := ∀ c ∈ t, c ≠ '\x22' ∧ c ≠ '\x27'

theorem Quoteless.notMem {q : Char} (h : Quoteless a) (hq : q ∈ ['\x22', '\x27']) : q ∉ a := by
  intro hmem
  rcases List.mem_pair.mp hq with rfl | rfl
  · exact (h _ hmem).1 rfl
  · exact (h _ hmem).2 rfl

theorem Unquoted.append (ha : Quoteless a) (h : Unquoted t) : Unquoted (a ++ t) :=
  fun q hq => not_tripled_append (ha.notMem hq) (h q hq)

theorem Unquoted.of_forall (h : Quoteless a) : Unquoted a := by
  have hnil : Unquoted [] := fun q _ hinfix => by
    cases List.infix_nil.mp hinfix
  exact List.append_nil a ▸ hnil.append h

theorem not_quote_of_space {c : Char} (h : isSpace c = true) : c ≠ '\x22' ∧ c ≠ '\x27' := by
  constructor <;>
  · rintro rfl
    exact absurd h (by decide)

/-! ## The text -/

namespace Program

variable (p : Program)

/-- The header of `on_tick`, as that of a block. -/
def signature : Header where
  keyword := .def_
  rest := " on_tick(".toList ++ (p.params ++ ')' :: (p.result ++ ':' :: p.tail))
  bounded := rfl
  bare := fun hbare => absurd hbare (by decide)
  dots := by
    rw [List.all_append, p.dots]
    rfl
  unquoted := Unquoted.append (forall_of_all (by decide)) <|
    p.unquoted.append (forall_of_all (by decide))

def header : Text := p.signature.text

def lines : List Text := p.before.map Before.raw ++ p.header :: p.body.raws p.margin 1

def text : Text := ['\n'].intercalate p.lines

def mark : Text := "/* on_tick */".toList

end Program

/-! ## Step 0 on the lines -/

/-- What becomes of a line before the header is looked for. -/
def Passes (l l' : Text) : Prop :=
  withoutImports l = l' ∧ ∀ t, withoutImports (l ++ '\n' :: t) = l' ++ '\n' :: withoutImports t

theorem withoutImports_eq (t : Text) : withoutImports t = deleteAll plainImport 0 true
    (deleteAll fromImport 0 true (deleteAll decorator 0 true
      (deleteAll (quoted (tripled '\x27')) 0 true
        (deleteAll (quoted (tripled '\x22')) 0 true t)))) := rfl

theorem Pass.passes {l₁ l₂ l₃ l₄ l₅ l₆ : Text} (h₁ : Pass (quoted (tripled '\x22')) l₁ l₂)
    (h₂ : Pass (quoted (tripled '\x27')) l₂ l₃) (h₃ : Pass decorator l₃ l₄)
    (h₄ : Pass fromImport l₄ l₅) (h₅ : Pass plainImport l₅ l₆) : Passes l₁ l₆ := by
  constructor
  · rw [withoutImports_eq, h₁.1, h₂.1, h₃.1, h₄.1, h₅.1]
  · intro t
    rw [withoutImports_eq, withoutImports_eq, h₁.2, h₂.2, h₃.2, h₄.2, h₅.2]

theorem withoutImports_join {ls ls' : List Text} (h : List.Forall₂ Passes ls ls') :
    withoutImports (['\n'].intercalate ls) = ['\n'].intercalate ls' := by
  induction h with
  | nil => rfl
  | cons hl hls ih =>
      cases hls with
      | nil =>
          rw [List.intercalate_singleton, List.intercalate_singleton]
          exact hl.1
      | cons hl' hls' =>
          rw [List.intercalate_cons_cons, List.intercalate_cons_cons, List.append_assoc,
            List.append_assoc, ← ih]
          exact hl.2 _

theorem Unquoted.quotes {q : Char} (h : Unquoted l) (hq : q ∈ ['\x22', '\x27']) :
    Pass (quoted (tripled q)) l l := by
  have hnewline : '\n' ∉ tripled q := by
    rcases List.mem_pair.mp hq with rfl | rfl
    · decide
    · decide
  exact pass_quoted hnewline (h q hq)

theorem dots_undecorated (h : l.all isDot = true) : (undecorated l).all isDot = true :=
  List.all_eq_true.mpr fun c hc => List.all_eq_true.mp h c
    ((undecorated_isPrefix (newline_of_dots h)).subset hc)

/-- A line that is neither a comment of many lines nor an import. -/
theorem Passes.line (hdots : l.all isDot = true) (hunquoted : Unquoted l)
    (hf : l.head? ≠ some 'f') (hi : l.head? ≠ some 'i') : Passes l (undecorated l) := by
  have hnewline := newline_of_dots hdots
  have hstart := undecorated_isPrefix hnewline
  have hhead : ∀ c, l.head? ≠ some c → (undecorated l).head? ≠ some c := by
    intro c hc
    obtain ⟨cut, heq⟩ := hstart
    cases hkept : undecorated l with
    | nil => exact nofun
    | cons d t =>
        rw [hkept] at heq
        rw [← heq] at hc
        exact hc
  -- quotes and imports are not found; only a decorator cuts something off
  exact (hunquoted.quotes List.mem_cons_self).passes
    (hunquoted.quotes (List.mem_cons_of_mem _ List.mem_cons_self)) (pass_decorator hnewline)
    (pass_fromImport (dots_undecorated hdots) (hhead _ hf))
    (pass_plainImport (dots_undecorated hdots) (hhead _ hi))

theorem not_marked_of_spaces (h : ∀ c ∈ a, isSpace c = true) : '@' ∉ a := fun hmem =>
  absurd (h _ hmem) (by decide)

theorem head_of_spaces {c : Char} (h : ∀ c ∈ a, isSpace c = true) (hc : isSpace c = false) :
    a.head? ≠ some c := by
  cases a with
  | nil => exact nofun
  | cons d a =>
      intro heq
      rw [← Option.some.inj heq, h d List.mem_cons_self] at hc
      cases hc

theorem pass_spaces {q : Char} (hq : q ∈ ['\x22', '\x27']) (h : ∀ c ∈ a, isSpace c = true) :
    Pass (quoted (tripled q)) a a :=
  Unquoted.quotes (.of_forall fun c hc => not_quote_of_space (h c hc)) hq

theorem Passes.spaces_of {l l' : Text} (hl : Pass (quoted (tripled '\x22')) l l')
    (hl' : Pass (quoted (tripled '\x27')) l' a) (h : ∀ c ∈ a, isSpace c = true)
    (hdots : a.all isDot = true) : Passes l a := by
  have hmark := pass_decorator (newline_of_dots hdots)
  rw [undecorated_of_notMem (not_marked_of_spaces h)] at hmark
  exact hl.passes hl' hmark (pass_fromImport hdots (head_of_spaces h (by decide)))
    (pass_plainImport hdots (head_of_spaces h (by decide)))

theorem Gap.passes (g : Gap) {margin : Text} (hm : ∀ c ∈ margin, isSpace c = true)
    (hdots : margin.all isDot = true) : Passes (g.raw margin) (g.line margin) := by
  cases g with
  | blank t spaces dots =>
      exact Passes.spaces_of (pass_spaces List.mem_cons_self spaces)
        (pass_spaces (List.mem_cons_of_mem _ List.mem_cons_self) spaces) spaces dots
  | comment blanks note spaces dots unquoted =>
      have hsplit : blanks ++ '#' :: note = (blanks ++ ['#']) ++ note := by
        rw [List.append_assoc]
        rfl
      have hhash : ∀ c ∈ blanks ++ ['#'], (c ≠ '\x22' ∧ c ≠ '\x27') ∧ c ≠ '@' := by
        intro c hc
        rcases List.mem_append.mp hc with hc | hc
        · exact ⟨not_quote_of_space (spaces c hc), fun h => not_marked_of_spaces spaces (h ▸ hc)⟩
        · rw [List.mem_singleton.mp hc]
          decide
      have hhead : ∀ c, isSpace c = false → c ≠ '#' → (blanks ++ '#' :: note).head? ≠ some c := by
        intro c hc hne
        cases blanks with
        | nil => exact fun h => hne (Option.some.inj h).symm
        | cons d blanks =>
            intro h
            rw [← Option.some.inj h, spaces d List.mem_cons_self] at hc
            cases hc
      have hall : (blanks ++ '#' :: note).all isDot = true := by
        rw [List.all_append, Bool.and_eq_true] at dots
        rw [List.all_append, dots.1, List.all_cons, dots.2]
        rfl
      have hunquoted : Unquoted (blanks ++ '#' :: note) :=
        hsplit ▸ unquoted.append fun c hc => (hhash c hc).1
      have hline := Passes.line hall hunquoted (hhead _ (by decide) (by decide))
        (hhead _ (by decide) (by decide))
      have hcut : undecorated (blanks ++ '#' :: note) = blanks ++ '#' :: undecorated note := by
        rw [hsplit, undecorated_append fun hmem => (hhash _ hmem).2 rfl, List.append_assoc]
        rfl
      rwa [hcut] at hline
  | doc q note quote inner apart =>
      have hquote : ∀ {q : Char}, q ∈ ['\x22', '\x27'] → q ∉ margin := fun hq hmem =>
        Quoteless.notMem (fun c hc => not_quote_of_space (hm c hc)) hq hmem
      have hsingle := pass_spaces (List.mem_cons_of_mem _ List.mem_cons_self) hm
      rcases List.mem_pair.mp quote with rfl | rfl
      · exact Passes.spaces_of (pass_doc (by decide) (hquote quote) inner) hsingle hm hdots
      · -- the other quotes are looked for first
        have hother : ¬ tripled '\x22' <:+:
            margin ++ (tripled '\x27' ++ (note ++ tripled '\x27')) :=
          not_tripled_append (hquote List.mem_cons_self) <| not_tripled_append (by decide) <|
            not_tripled_append_right (by decide) (apart rfl)
        exact Passes.spaces_of (pass_quoted (by decide) hother)
          (pass_doc (by decide) (hquote quote) inner) hm hdots

namespace Margin

variable (m : Margin)

theorem dots (k : Nat) : (m.times k).all isDot = true := by
  refine List.all_eq_true.mpr fun c hc => ?_
  obtain ⟨blanks, hblanks, hc⟩ := List.mem_flatten.mp hc
  rw [List.eq_of_mem_replicate hblanks] at hc
  rcases m.blank c hc with rfl | rfl
  · decide
  · decide

theorem head_times {c : Char} (hc : isSpace c = false) (k : Nat) (t : Text) :
    (m.times (k + 1) ++ t).head? ≠ some c := by
  have hne : m.times (k + 1) ≠ [] := by
    rw [times, List.replicate_succ, List.flatten_cons]
    exact List.append_ne_nil_of_left_ne_nil m.nonempty _
  have hspaces := m.spaces (k + 1)
  cases hcons : m.times (k + 1) with
  | nil => exact absurd hcons hne
  | cons d a =>
      rw [hcons] at hspaces
      exact head_of_spaces (a := [d]) (by simpa using hspaces d List.mem_cons_self) hc

theorem passes (hdots : t.all isDot = true) (hunquoted : Unquoted t) (k : Nat) :
    Passes (m.times (k + 1) ++ t) (m.times (k + 1) ++ undecorated t) := by
  have hspaces := m.spaces (k + 1)
  have hall : (m.times (k + 1) ++ t).all isDot = true := by
    rw [List.all_append, m.dots, hdots]
    rfl
  have hline := Passes.line hall (hunquoted.append fun c hc => not_quote_of_space (hspaces c hc))
    (m.head_times (by decide) k t) (m.head_times (by decide) k t)
  rwa [undecorated_append (not_marked_of_spaces hspaces)] at hline

end Margin

theorem Code.passes (m : Margin) (c : Code) : ∀ k : Nat,
    List.Forall₂ Passes (c.raws m (k + 1)) (c.lines m (k + 1)) := by
  induction c with
  | done => exact fun _ => .nil
  | gap g rest ih => exact fun k => .cons (g.passes (m.spaces _) (m.dots _)) (ih k)
  | simple s rest ih => exact fun k => .cons (m.passes s.dots s.unquoted k) (ih k)
  | block h body rest ihbody ihrest =>
      exact fun k => .cons (m.passes h.dots_text h.unquoted k)
        (List.rel_append (ihbody (k + 1)) (ihrest k))
  | inline h suite split rest ih => exact fun k => .cons (m.passes h.dots_text h.unquoted k) (ih k)

theorem Before.passes (x : Before) : Passes x.raw x.line := by
  cases x with
  | gap g => exact g.passes (fun c hc => absurd hc List.not_mem_nil) rfl
  | import_ c names solid dots unquoted unmarked =>
      have hdots : ("import ".toList ++ c :: names).all isDot = true := by
        rw [List.all_append, dots]
        rfl
      -- the only expression that matches is that of an import
      have hunquoted : Unquoted ("import ".toList ++ c :: names) :=
        unquoted.append (forall_of_all (by decide))
      have hmark := pass_decorator (newline_of_dots hdots)
      rw [undecorated_append (by decide), undecorated_of_notMem unmarked] at hmark
      exact (hunquoted.quotes List.mem_cons_self).passes
        (hunquoted.quotes (List.mem_cons_of_mem _ List.mem_cons_self)) hmark
        (pass_fromImport hdots nofun) (pass_import solid dots)
  | from_ source names nonempty solid dots unquoted unmarked =>
      have hends : ∀ c ∈ ['\n', '\r', '\u2028', '\u2029'], isSpace c = true :=
        forall_of_all (by decide)
      have hsource : source.all isDot = true := List.all_eq_true.mpr fun c hc =>
        decide_eq_true fun hmem => Bool.eq_false_iff.mp (solid c hc) (hends c hmem)
      have hdots :
          ("from ".toList ++ (source ++ (" import".toList ++ names))).all isDot = true := by
        rw [List.all_append, List.all_append, List.all_append, hsource, dots]
        rfl
      have hunquoted : Unquoted ("from ".toList ++ (source ++ (" import".toList ++ names))) := by
        rw [← List.append_assoc source]
        exact unquoted.append (forall_of_all (by decide))
      have hmarks : '@' ∉ source ++ (" import".toList ++ names) := fun hmem => by
        rw [List.mem_append, List.mem_append] at hmem
        rcases hmem with hmem | hmem | hmem
        · exact unmarked (List.mem_append_left _ hmem)
        · exact absurd hmem (by decide)
        · exact unmarked (List.mem_append_right _ hmem)
      have hmark := pass_decorator (newline_of_dots hdots)
      rw [undecorated_append (by decide), undecorated_of_notMem hmarks] at hmark
      exact (hunquoted.quotes List.mem_cons_self).passes
        (hunquoted.quotes (List.mem_cons_of_mem _ List.mem_cons_self)) hmark
        (pass_from nonempty solid dots) (pass_plainImport rfl nofun)

theorem Program.passes_header (p : Program) : Passes p.header p.signature.line := by
  have hhead : p.header.head? = some 'd' := rfl
  exact Passes.line p.signature.dots_text p.signature.unquoted (by rw [hhead]; decide)
    (by rw [hhead]; decide)

/-! ## The mark -/

theorem onTick_of_head (h : t.head? ≠ some 'd') : onTick t = none := by
  cases t with
  | nil => rfl
  | cons c t =>
      have hc : 'd' ≠ c := fun heq => h (congrArg some heq.symm)
      rw [onTick, show literal "def".toList (c :: t) = none from literal_of_ne hc _ _]
      rfl

theorem markOnTick_inside (hl : l.all isDot = true) (b : Bool) (t : Text)
    (hb : b = true → onTick (l ++ '\n' :: t) = none) :
    markOnTick b (l ++ '\n' :: t) = l ++ '\n' :: markOnTick true t := by
  induction l generalizing b with
  | nil =>
      cases b with
      | false => rfl
      | true => rfl
  | cons c l ih =>
      -- behind a dot there is no start of a line
      rw [List.all_cons, Bool.and_eq_true] at hl
      have hnone : (if b then onTick (c :: (l ++ '\n' :: t)) else none) = none := by
        cases b with
        | false => rfl
        | true => exact hb rfl
      rw [List.cons_append, markOnTick, hnone]
      have hrest := ih hl.2 (!isDot c) fun hdot => by
        rw [hl.1] at hdot
        cases hdot
      exact congrArg (c :: ·) hrest

theorem markOnTick_last (hl : l.all isDot = true) (b : Bool) (hb : b = true → onTick l = none) :
    markOnTick b l = l := by
  induction l generalizing b with
  | nil => cases b <;> rfl
  | cons c l ih =>
      rw [List.all_cons, Bool.and_eq_true] at hl
      have hnone : (if b then onTick (c :: l) else none) = none := by
        cases b with
        | false => rfl
        | true => exact hb rfl
      rw [markOnTick, hnone]
      have hrest := ih hl.2 (!isDot c) fun hdot => by
        rw [hl.1] at hdot
        cases hdot
      exact congrArg (c :: ·) hrest

theorem join_cons {ls : List Text} (h : ls ≠ []) :
    ['\n'].intercalate (l :: ls) = l ++ '\n' :: ['\n'].intercalate ls := by
  rw [List.intercalate_cons_of_ne_nil h, List.append_assoc]
  rfl

/-- A line does not begin with a `d`. -/
def Inner (l : Text) : Prop := l.all isDot = true ∧ l.head? ≠ some 'd'

theorem Inner.mark_cons (h : Inner l) {ls : List Text} (hls : ls ≠ []) :
    markOnTick true (['\n'].intercalate (l :: ls)) =
      l ++ '\n' :: markOnTick true (['\n'].intercalate ls) := by
  have hhead : ∀ t, (l ++ '\n' :: t).head? ≠ some 'd' := by
    intro t
    cases l with
    | nil => exact fun h => absurd (Option.some.inj h) (by decide)
    | cons c l => exact h.2
  rw [join_cons hls, markOnTick_inside h.1 true _ fun _ => onTick_of_head (hhead _)]

theorem markOnTick_lines {ls : List Text} (h : ∀ l ∈ ls, Inner l) :
    markOnTick true (['\n'].intercalate ls) = ['\n'].intercalate ls := by
  induction ls with
  | nil => rfl
  | cons l ls ih =>
      obtain ⟨hl, hls⟩ := List.forall_mem_cons.mp h
      cases ls with
      | nil =>
          rw [List.intercalate_singleton, markOnTick_last hl.1 true fun _ => onTick_of_head hl.2]
      | cons l' ls =>
          rw [hl.mark_cons (List.cons_ne_nil _ _), ih hls, ← join_cons (List.cons_ne_nil _ _)]

/-! ## The lines that the loop sees -/

theorem Gap.dots_line (g : Gap) {margin : Text} (hm : margin.all isDot = true) :
    (g.line margin).all isDot = true := by
  cases g with
  | blank t spaces dots => exact dots
  | comment blanks note spaces dots unquoted =>
      rw [List.all_append, Bool.and_eq_true] at dots
      rw [Gap.line, List.all_append, dots.1, List.all_cons, dots_undecorated dots.2]
      rfl
  | doc => exact hm

theorem Gap.head_line (g : Gap) {margin : Text} (hm : ∀ c ∈ margin, isSpace c = true) :
    (g.line margin).head? ≠ some 'd' := by
  cases g with
  | blank t spaces dots => exact head_of_spaces spaces (by decide)
  | comment blanks note spaces dots unquoted =>
      cases blanks with
      | nil => exact fun h => absurd (Option.some.inj h) (by decide)
      | cons c blanks =>
          exact head_of_spaces (a := [c])
            (fun d hd => spaces d (List.mem_of_mem_head? (List.mem_singleton.mp hd ▸ rfl)))
            (by decide)
  | doc => exact head_of_spaces hm (by decide)

theorem Code.inner_lines (m : Margin) (c : Code) : ∀ k : Nat,
    ∀ l ∈ c.lines m (k + 1), Inner l := by
  have hline : ∀ (k : Nat) {t : Text}, t.all isDot = true → Inner (m.times (k + 1) ++ t) := by
    intro k t ht
    refine ⟨?_, m.head_times (by decide) k t⟩
    rw [List.all_append, m.dots, ht]
    rfl
  induction c with
  | done => exact fun k l hl => absurd hl List.not_mem_nil
  | gap g rest ih =>
      exact fun k => List.forall_mem_cons.mpr
        ⟨⟨g.dots_line (m.dots _), g.head_line (m.spaces _)⟩, ih k⟩
  | simple s rest ih =>
      exact fun k => List.forall_mem_cons.mpr ⟨hline k (dots_undecorated s.dots), ih k⟩
  | block h body rest ihbody ihrest =>
      exact fun k => List.forall_mem_cons.mpr ⟨hline k (dots_undecorated h.dots_text), fun l hl =>
        (List.mem_append.mp hl).elim (ihbody (k + 1) l) (ihrest k l)⟩
  | inline h suite split rest ih =>
      exact fun k => List.forall_mem_cons.mpr ⟨hline k (dots_undecorated h.dots_text), ih k⟩

theorem Before.isGap_line (x : Before) : isGap x.line = true := by
  cases x with
  | gap g => exact g.isGap_line fun c hc => absurd hc List.not_mem_nil
  | import_ => rfl
  | from_ => rfl

theorem Before.inner_line (x : Before) : Inner x.line := by
  cases x with
  | gap g => exact ⟨g.dots_line rfl, g.head_line fun c hc => absurd hc List.not_mem_nil⟩
  | import_ => exact ⟨rfl, nofun⟩
  | from_ => exact ⟨rfl, nofun⟩

namespace Program

variable (p : Program)

/-- Nothing stands between the parentheses and the colon, so that the header is found. -/
def marked : Bool := p.result.all isSpace

/-- What the loop sees in place of the header. -/
def top : Text := if p.marked then mark ++ undecorated p.tail else p.signature.line

def seen : List Text := p.before.map Before.line ++ p.top :: p.body.lines p.margin 1

theorem line_signature : p.signature.line =
    "def on_tick(".toList ++ (p.params ++ ')' :: (p.result ++ ':' :: undecorated p.tail)) := by
  have hmark : '@' ∉ "def on_tick(".toList ++ (p.params ++ ')' :: (p.result ++ [':'])) := by
    have hresult := p.unmarked
    simp only [List.mem_append, List.mem_cons, List.not_mem_nil, or_false, not_or] at hresult ⊢
    exact ⟨by decide, hresult.1, by decide, hresult.2, by decide⟩
  have happend := undecorated_append hmark p.tail
  have hraw : "def on_tick(".toList ++ (p.params ++ ')' :: (p.result ++ [':'])) ++ p.tail =
      p.signature.text := by
    rw [List.append_assoc, List.append_assoc, List.cons_append, List.append_assoc]
    rfl
  rw [hraw] at happend
  rw [Header.line, happend, List.append_assoc, List.append_assoc, List.cons_append,
    List.append_assoc]
  rfl

theorem onTick_parens (t : Text) :
    onTick ("def on_tick(".toList ++ (p.params ++ ')' :: t)) =
      literal [':'] (t.dropWhile isSpace) := by
  have hparams : ∀ c ∈ p.params, decide (c ≠ ')') = true := fun c hc =>
    decide_eq_true fun heq => p.closed (heq ▸ hc)
  have hdef := literal_append "def".toList (" on_tick(".toList ++ (p.params ++ ')' :: t))
  have hblank : some1 isSpace (" on_tick(".toList ++ (p.params ++ ')' :: t)) =
      some ("on_tick".toList ++ ('(' :: (p.params ++ ')' :: t))) := some1_blank (by decide)
  have hname := literal_append "on_tick".toList ('(' :: (p.params ++ ')' :: t))
  have hopen : literal ['('] (('(' :: (p.params ++ ')' :: t)).dropWhile isSpace) =
      some (p.params ++ ')' :: t) := literal_append ['('] _
  have hclose : literal [')'] ((p.params ++ ')' :: t).dropWhile (· ≠ ')')) = some t := by
    rw [List.dropWhile_append_of_pos hparams]
    exact literal_append [')'] t
  have htext : "def on_tick(".toList ++ (p.params ++ ')' :: t) =
      "def".toList ++ (" on_tick(".toList ++ (p.params ++ ')' :: t)) := rfl
  rw [htext]
  simp only [onTick, hdef, hblank, hname, hopen, hclose, Option.bind_eq_bind, Option.bind_some]

theorem onTick_line (t : Text) : onTick (p.signature.line ++ t) =
    if p.marked then some (undecorated p.tail ++ t) else none := by
  have hassoc : p.signature.line ++ t = "def on_tick(".toList ++
      (p.params ++ ')' :: (p.result ++ ':' :: (undecorated p.tail ++ t))) := by
    rw [p.line_signature, List.append_assoc, List.append_assoc, List.cons_append,
      List.append_assoc, List.cons_append]
  rw [hassoc, p.onTick_parens]
  cases hmarked : p.marked with
  | true =>
      rw [List.dropWhile_append_of_pos (List.all_eq_true.mp hmarked), if_pos rfl]
      exact literal_append [':'] _
  | false =>
      -- the expression wants the colon where the annotation is
      have hreturns := p.returns
      cases hdrop : p.result.dropWhile isSpace with
      | nil =>
          rw [marked, List.all_eq_true.mpr (List.dropWhile_eq_nil_iff.mp hdrop)] at hmarked
          cases hmarked
      | cons c rest =>
          rw [hdrop] at hreturns
          rw [List.dropWhile_append, hdrop, if_neg Bool.false_ne_true]
          exact literal_of_ne (fun heq => hreturns (congrArg some heq.symm)) _ _

theorem markOnTick_marked (hmarked : p.marked = true) (t : Text) :
    markOnTick true (p.signature.line ++ t) = p.top ++ t := by
  have hsome := p.onTick_line t
  rw [hmarked, if_pos rfl] at hsome
  rw [top, hmarked, if_pos rfl, List.append_assoc]
  cases htext : p.signature.line ++ t with
  | nil =>
      rw [htext] at hsome
      cases hsome
  | cons c x =>
      rw [htext] at hsome
      rw [markOnTick, if_pos rfl, hsome]
      rfl

theorem markOnTick_header {ls : List Text} (hls : ∀ l ∈ ls, Inner l) :
    markOnTick true (['\n'].intercalate (p.signature.line :: ls)) =
      ['\n'].intercalate (p.top :: ls) := by
  have hdots : p.signature.line.all isDot = true := dots_undecorated p.signature.dots_text
  cases hmarked : p.marked with
  | true =>
      cases ls with
      | nil =>
          have hmark := p.markOnTick_marked hmarked []
          rw [List.append_nil, List.append_nil] at hmark
          rw [List.intercalate_singleton, List.intercalate_singleton, hmark]
      | cons l ls =>
          rw [join_cons (List.cons_ne_nil _ _), join_cons (List.cons_ne_nil _ _),
            p.markOnTick_marked hmarked]
  | false =>
      have hnone : ∀ t, onTick (p.signature.line ++ t) = none := fun t => by
        rw [p.onTick_line, hmarked, if_neg Bool.false_ne_true]
      have htop : p.top = p.signature.line := by rw [top, hmarked, if_neg Bool.false_ne_true]
      rw [htop]
      cases ls with
      | nil =>
          rw [List.intercalate_singleton]
          have hlast := hnone []
          rw [List.append_nil] at hlast
          exact markOnTick_last hdots true fun _ => hlast
      | cons l ls =>
          rw [join_cons (List.cons_ne_nil _ _), markOnTick_inside hdots true _ fun _ => hnone _,
            markOnTick_lines hls, ← join_cons (List.cons_ne_nil _ _)]

theorem markOnTick_join (before : List Before) :
    markOnTick true (['\n'].intercalate
      (before.map Before.line ++ p.signature.line :: p.body.lines p.margin 1)) =
        ['\n'].intercalate (before.map Before.line ++ p.top :: p.body.lines p.margin 1) := by
  induction before with
  | nil => exact p.markOnTick_header (p.body.inner_lines p.margin 0)
  | cons x before ih =>
      have hne : ∀ t, before.map Before.line ++ t :: p.body.lines p.margin 1 ≠ [] := fun t =>
        List.append_ne_nil_of_right_ne_nil _ (List.cons_ne_nil _ _)
      rw [List.map_cons, List.cons_append, List.cons_append, x.inner_line.mark_cons (hne _),
        join_cons (hne _), ih]

theorem stripped_text : stripped p.text = ['\n'].intercalate p.seen := by
  have hlines : List.Forall₂ Passes p.lines
      (p.before.map Before.line ++ p.signature.line :: p.body.lines p.margin 1) := by
    -- line by line: those before, the header, the body
    refine List.rel_append ?_ (.cons p.passes_header (p.body.passes p.margin 0))
    exact List.forall₂_map_left_iff.mpr (List.forall₂_map_right_iff.mpr
      (List.forall₂_same.mpr fun x _ => x.passes))
  rw [stripped, text, withoutImports_join hlines, markOnTick_join, seen]

theorem dots_top : p.top.all isDot = true := by
  have htail : p.tail.all isDot = true := by
    have hdots := p.dots
    simp only [List.all_append, List.all_cons, Bool.and_eq_true] at hdots
    exact hdots.2.2.2.2
  rw [top]
  split
  · rw [List.all_append, dots_undecorated htail]
    rfl
  · exact dots_undecorated p.signature.dots_text

theorem seen_oneLine : ∀ l ∈ p.seen, OneLine l := by
  intro l hl
  rcases List.mem_append.mp hl with hl | hl
  · obtain ⟨x, -, rfl⟩ := List.mem_map.mp hl
    exact newline_of_dots x.inner_line.1
  · rcases List.mem_cons.mp hl with rfl | hl
    · exact newline_of_dots p.dots_top
    · exact newline_of_dots (p.body.inner_lines p.margin 0 l hl).1

end Program

end VidhiArena.Browser.Transpile
