import VidhiArena.Browser.StrategyText

/-!
# The blocks of a transpiled strategy

A whole strategy, from its text to the text of the output. Which trees of blocks the output
keeps is a matter of the margin, of the headers that are seen, and of each line by itself.
-/

namespace VidhiArena.Browser.Transpile

open Foundation.BracedLines

variable {t a b l l' : Text}

/-! ## The line of the header -/

theorem takeWhile_replaceCallFrom {name replacement : Text} (t : Text) : ∀ {run : Text},
    run.all isWord = true → run ++ t.takeWhile isWord ≠ name →
      (replaceCallFrom name replacement run [] t).takeWhile isWord = run ++ t.takeWhile isWord := by
  have hself : ∀ {run : Text}, run.all isWord = true → run.takeWhile isWord = run := fun h =>
    List.takeWhile_eq_self_iff.mpr (List.all_eq_true.mp h)
  induction t with
  | nil =>
      intro run hrun _
      rw [replaceCallFrom, List.append_nil, hself hrun]
      exact (List.append_nil run).symm
  | cons c t ih =>
      intro run hrun hname
      rw [replaceCallFrom]
      by_cases hc : isWord c = true
      · have happend : run ++ c :: t.takeWhile isWord = (run ++ [c]) ++ t.takeWhile isWord := by
          rw [List.append_assoc]
          rfl
        rw [List.takeWhile_cons_of_pos hc, happend] at hname ⊢
        rw [if_pos hc, if_pos rfl]
        refine ih ?_ hname
        rw [List.all_append, hrun, List.all_cons, hc]
        rfl
      · rw [List.takeWhile_cons_of_neg hc, List.append_nil] at hname ⊢
        rw [if_neg hc, if_neg fun h => hname h.1, if_neg fun h => hname h.1,
          takeWhile_append_cons hc, hself hrun]

theorem takeWhile_calls {w : Text} (h : t.takeWhile isWord = w)
    (hw : w ∉ ["abs", "round", "int", "float", "len"].map String.toList) :
    (calls t).takeWhile isWord = w := by
  have hcall : ∀ {name replacement : String} {t : Text}, t.takeWhile isWord = w →
      name.toList ∈ ["abs", "round", "int", "float", "len"].map String.toList →
        (replaceCall name replacement t).takeWhile isWord = w := by
    intro name replacement t ht hname
    have hne : [] ++ t.takeWhile isWord ≠ name.toList := by
      rw [List.nil_append, ht]
      exact fun heq => hw (heq ▸ hname)
    rw [replaceCall, takeWhile_replaceCallFrom t rfl hne, List.nil_append, ht]
  unfold calls
  exact hcall (hcall (hcall (hcall (hcall h (by decide)) (by decide)) (by decide)) (by decide))
    (by decide)

theorem takeWhile_of_printCall {rest : Text} (h : printCall t = some rest) :
    t.takeWhile isWord = "print".toList := by
  obtain ⟨t', ht', h⟩ := Option.bind_eq_some_iff.mp h
  rw [eq_of_literal ht']
  refine takeWhile_of_bounded (by decide) ?_
  cases t' with
  | nil => exact bounded_nil
  | cons c t' =>
      by_cases hc : isSpace c = true
      · exact bounded_cons.mpr (isWord_of_isSpace hc)
      · rw [List.dropWhile_cons_of_neg hc] at h
        obtain ⟨rfl, -⟩ := List.cons.inj (eq_of_literal h)
        rfl

theorem takeWhile_statementText {w : Text} (h : t.takeWhile isWord = w)
    (hw : w ∉ ["print", "abs", "round", "int", "float", "len"].map String.toList) :
    (statementText t).takeWhile isWord = w := by
  have hprint : printCall t = none :=
    Option.eq_none_iff_forall_ne_some.mpr fun rest hrest =>
      hw (h ▸ takeWhile_of_printCall hrest ▸ List.mem_cons_self)
  have hcalls := takeWhile_calls h fun hmem => hw (List.mem_cons_of_mem _ hmem)
  rw [statementText, printText, hprint]
  dsimp only
  split
  · rw [takeWhile_append_cons (by decide), hcalls]
  · exact hcalls

theorem replaceCallFrom_append {name replacement : Text} {c : Char} (hword : isWord c = false)
    (hopen : c ≠ '(') (hspace : isSpace c = false) (t : Text) : ∀ (a run gap : Text),
      replaceCallFrom name replacement run gap (a ++ c :: t) =
        replaceCallFrom name replacement run gap a ++
          c :: replaceCallFrom name replacement [] [] t := by
  intro a
  induction a with
  | nil =>
      intro run gap
      have hnil : replaceCallFrom name replacement run gap [] = run ++ gap := rfl
      rw [List.nil_append, hnil, replaceCallFrom, if_neg (Bool.eq_false_iff.mp hword),
        if_neg fun h => hopen h.2, if_neg fun h => Bool.eq_false_iff.mp hspace h.2]
  | cons d a ih =>
      intro run gap
      rw [List.cons_append, replaceCallFrom, replaceCallFrom]
      split_ifs <;> simp only [ih, List.append_assoc, List.cons_append]

theorem calls_append {c : Char} (hword : isWord c = false) (hopen : c ≠ '(')
    (hspace : isSpace c = false) (a t : Text) : calls (a ++ c :: t) = calls a ++ c :: calls t := by
  have hcall : ∀ (name replacement : String) (a t : Text),
      replaceCall name replacement (a ++ c :: t) =
        replaceCall name replacement a ++ c :: replaceCall name replacement t :=
    fun name replacement a t => replaceCallFrom_append hword hopen hspace t a [] []
  unfold calls
  rw [hcall, hcall, hcall, hcall, hcall]

theorem content_mark (t : Text) :
    ∃ note, content (Program.mark ++ t) = .statement (Program.mark ++ note) := by
  have hsplit : ∀ t, Program.mark ++ t = "/* on_tick *".toList ++ '/' :: t := fun _ => rfl
  have hsolid : Solid Program.mark := by decide
  have hstrip : stripComment Program.mark = Program.mark := by decide
  have hword : keywords "/* on_tick *".toList = "/* on_tick *".toList := by decide
  have hcall : calls "/* on_tick *".toList = "/* on_tick *".toList := by decide
  have htrim : ∀ t, (Program.mark ++ t).rdropWhile isSpace =
      Program.mark ++ t.rdropWhile isSpace := fun t => by
    rw [hsplit, hsplit, rdropWhile_append (by decide)]
  obtain ⟨t', hcleaned⟩ : ∃ t', cleaned (Program.mark ++ t) = Program.mark ++ t' :=
    ⟨_, by rw [cleaned, trim_of_solid (hsolid.append t), htrim, stripComment_append hstrip, htrim]⟩
  have hkeywords : keywords (Program.mark ++ t') = Program.mark ++ keywords t' := by
    rw [hsplit, keywords_append (show Bounded ('/' :: t') from rfl), keywords_cons (by decide),
      hword, hsplit]
  have hcalls : calls (Program.mark ++ keywords t') = Program.mark ++ calls (keywords t') := by
    rw [hsplit, calls_append (by decide) (by decide) (by decide), hcall, hsplit]
  have hfirst : (Program.mark ++ keywords t').takeWhile isWord ∉ blockWords :=
    show [] ∉ blockWords by decide
  have hprint : printText (Program.mark ++ keywords t') = Program.mark ++ keywords t' := rfl
  have hcomment : literal "/*".toList (Program.mark ++ calls (keywords t')) =
      some (" on_tick */".toList ++ calls (keywords t')) := literal_append "/*".toList _
  refine ⟨calls (keywords t'), ?_⟩
  rw [content, hcleaned, hkeywords, emitted_statement hfirst, statementText, hprint, hcalls, if_neg]
  rw [hcomment]
  exact fun h => Option.some_ne_none _ h.2.2.2.2

namespace Program

variable (p : Program)

/-- Read by its braces, the output is the mark of the header, with what may be left behind its
colon, and the statements, each in its blocks. -/
def KeepsBlocks : Prop :=
  ∃ note, outline ((_transpile p.text).splitOn '\n') =
    some ((mark ++ note, []) :: p.body.blocks.outline [])

def label : Text := (content p.top).text

theorem content_marked (hmarked : p.marked = true) :
    content p.top = .statement p.label ∧ ∃ note, p.label = mark ++ note := by
  obtain ⟨note, hcontent⟩ := content_mark (undecorated p.tail)
  have htop : p.top = mark ++ undecorated p.tail := by rw [top, hmarked, if_pos rfl]
  rw [label, htop, hcontent, Emitted.text]
  exact ⟨rfl, note, rfl⟩

/-- A header with an annotation is skipped like that of another function, or left as it is. -/
theorem label_unmarked (hmarked : p.marked = false) :
    content p.top = .opens p.label ∧ p.label = "/* def skipped */".toList ∨
      content p.top = .statement p.label ∧ p.label.takeWhile isWord = "def".toList := by
  have htop : p.top = p.signature.line := by rw [top, hmarked, if_neg Bool.false_ne_true]
  have hlabel : p.label = p.signature.shown := by rw [label, htop, Header.shown]
  rw [htop, hlabel]
  cases hseen : p.signature.seen with
  | true => exact .inl ⟨p.signature.content_opens rfl hseen, p.signature.shown_of_seen hseen⟩
  | false =>
      refine .inr ⟨p.signature.content_unseen hseen, ?_⟩
      rw [Header.shown, p.signature.emitted_opens rfl, hseen, if_neg Bool.false_ne_true,
        Emitted.text]
      exact takeWhile_statementText p.signature.takeWhile_code (by decide)

theorem marked_of_label {note : Text} (hlabel : p.label = mark ++ note) : p.marked = true := by
  cases hmarked : p.marked with
  | true => rfl
  | false =>
      rcases p.label_unmarked hmarked with ⟨-, hother⟩ | ⟨-, hother⟩
      · have hfour : "/* d".toList = "/* o".toList :=
          congrArg (List.take 4) (hother.symm.trans hlabel)
        exact absurd hfour (by decide)
      · rw [hlabel] at hother
        cases hother

theorem solid_top : Solid p.top ∧ p.top.head? ≠ some '#' := by
  rw [top]
  split
  · have hmark : Solid mark := by decide
    have hfirst : mark.head? ≠ some '#' := by decide
    exact ⟨hmark.append _, hfirst⟩
  · exact ⟨p.signature.solid_line, p.signature.first_line⟩

theorem solid_label : Solid p.label := p.solid_top.1.content p.solid_top.2

/-! ## The loop -/

def init : State := (p.before.map Before.line).foldl step ⟨[], [0]⟩

theorem init_eq : p.init.indentStack = [0] ∧ events p.init.out = [] := by
  have hbefore : ∀ (before : List Before) (st : State),
      ((before.map Before.line).foldl step st).indentStack = st.indentStack ∧
        events ((before.map Before.line).foldl step st).out = events st.out := by
    intro before
    induction before with
    | nil => exact fun st => ⟨rfl, rfl⟩
    | cons x before ih =>
        intro st
        obtain ⟨hstack, hevents⟩ := ih (step st x.line)
        rw [step_gap x.isGap_line] at hstack hevents
        rw [List.map_cons, List.foldl_cons, step_gap x.isGap_line]
        refine ⟨hstack, hevents.trans ?_⟩
        rw [events_cons]
        exact List.append_nil _
  exact hbefore p.before ⟨[], [0]⟩

def start : State := step p.init p.top

theorem start_eq : p.start = push 0 ⟨p.init.out, [0]⟩ (content p.top) := by
  have hnone : ∀ c ∈ ([] : Text), isSpace c = true := fun c hc => absurd hc List.not_mem_nil
  have hstep := step_margin hnone p.solid_top.1 p.solid_top.2 p.init
  rw [List.nil_append, p.init_eq.1] at hstep
  exact hstep

theorem events_start : events p.start.out = [.item p.label] := by
  have hline := lineEvents_solid 0 p.solid_label
  rw [List.replicate_zero, List.nil_append] at hline
  have hpush : p.start.out = p.label :: p.init.out := by
    rw [start_eq]
    cases hmarked : p.marked with
    | true => rw [(p.content_marked hmarked).1, push, List.replicate_zero, List.nil_append]
    | false =>
        rcases p.label_unmarked hmarked with ⟨hcontent, -⟩ | ⟨hcontent, -⟩
        · rw [hcontent, push, List.replicate_zero, List.nil_append]
        · rw [hcontent, push, List.replicate_zero, List.nil_append]
  rw [hpush, events_cons, p.init_eq.2, hline]
  rfl

def said : List Event :=
  let st := (p.body.lines p.margin 1).foldl step p.start
  events (closeAll st.out st.indentStack)

theorem out_seen : (out p.seen).flatMap lineEvents = p.said := by
  have hseen : p.seen = (p.before.map Before.line ++ [p.top]) ++ p.body.lines p.margin 1 := by
    rw [seen, List.append_assoc]
    rfl
  rw [out, hseen, List.foldl_append, List.foldl_append]
  rfl

theorem said_of_run {es : List Event} (hes : events
    ((p.body.lines p.margin 1).foldl step p.start).out = events p.start.out ++ es) :
    ∃ n, p.said = .item p.label :: (es ++ List.replicate n .close) := by
  obtain ⟨columns, hcolumns⟩ := closeAll_grows
    ((p.body.lines p.margin 1).foldl step p.start).indentStack
    ((p.body.lines p.margin 1).foldl step p.start).out
  refine ⟨columns.length, ?_⟩
  rw [said, hcolumns, events_closers, hes, p.events_start]
  rfl

theorem said_grows : ∃ es, p.said = .item p.label :: es ∧
    es.countP Event.isItem = p.body.lineCount := by
  obtain ⟨es, hes, hcount⟩ := p.body.run_grows (m := p.margin) 1 p.start
  obtain ⟨n, hsaid⟩ := p.said_of_run hes
  have hclose : ¬ Event.close.isItem = true := Bool.false_ne_true
  refine ⟨_, hsaid, ?_⟩
  rw [List.countP_append, List.countP_replicate, if_neg hclose, hcount]
  rfl

theorem keepsBlocks_said : p.KeepsBlocks ↔
    ∃ note, replay p.said [] = some ((mark ++ note, []) :: p.body.blocks.outline []) := by
  have hout : out p.seen ≠ [] := by
    intro hnil
    obtain ⟨es, hsaid, -⟩ := p.said_grows
    rw [← out_seen, hnil] at hsaid
    cases hsaid
  have hseen : p.seen ≠ [] := List.append_ne_nil_of_right_ne_nil _ (List.cons_ne_nil _ _)
  rw [KeepsBlocks, _transpile, stripped_text, List.splitOn_intercalate _ p.seen_oneLine hseen,
    List.splitOn_intercalate _ (out_oneLine p.seen_oneLine) hout, outline, out_seen]

/-- Where no suite stands behind a header and the margin has four columns. -/
theorem said_of_wide (hmarked : p.marked = true) (hbelow : p.body.Below)
    (hwide : p.body.HasBlock → 4 ≤ p.margin.columns) : p.said = .item p.label :: p.body.said := by
  have hstart : Settled [0] (1 * p.margin.columns) p.start [.item p.label] false := by
    rw [start_eq, (p.content_marked hmarked).1, push]
    exact settled_solid p.solid_label p.init_eq.2 0
  have hrun := Settled.run p.body hbelow p.chained hwide ⟨0, [], rfl, Nat.zero_le _⟩ hstart
  rw [said, hrun.events_closeAll, Code.begins_of_chained p.chained]
  rfl

end Program

/-! ## Plain lines -/

theorem all_of_subset {p : Char → Bool} (h : b.all p = true) (hab : a ⊆ b) : a.all p = true :=
  List.all_eq_true.mpr fun c hc => List.all_eq_true.mp h c (hab hc)

theorem calm_replaceCallFrom {name replacement : Text} (hr : Calm replacement) (t : Text) :
    ∀ {run gap}, run.all isPlain = true → gap.all isPlain = true → t.all isPlain = true →
      Calm (replaceCallFrom name replacement run gap t) := by
  have happend : ∀ {a b : Text}, a.all isPlain = true → b.all isPlain = true →
      (a ++ b).all isPlain = true := by
    intro a b ha hb
    rw [List.all_append, ha, hb]
    rfl
  induction t with
  | nil => exact fun hrun hgap _ => calm_of_plain (happend hrun hgap)
  | cons c t ih =>
      intro run gap hrun hgap ht
      rw [List.all_cons, Bool.and_eq_true] at ht
      have hc : [c].all isPlain = true := by
        rw [List.all_cons, ht.1]
        rfl
      rw [replaceCallFrom]
      split
      · split
        · exact ih (happend hrun hc) rfl ht.2
        · exact (calm_of_plain (happend hrun hgap)).append (ih hc rfl ht.2)
      · split
        · exact hr.append (ih rfl rfl ht.2)
        · split
          · exact ih hrun (happend hgap hc) ht.2
          · exact (calm_of_plain (happend hrun hgap)).append
              ((calm_of_plain hc).append (ih rfl rfl ht.2))

/-- The calls of a plain line, of which `len` alone leaves comments. -/
theorem calm_calls (h : t.all isPlain = true) : Calm (calls t) := by
  have hcall : ∀ {name replacement : String} {t : Text},
      replacement.toList.all isPlain = true → t.all isPlain = true →
        (replaceCall name replacement t).all isPlain = true := fun hr ht =>
    all_replaceCallFrom hr _ rfl rfl ht
  refine calm_replaceCallFrom (fun opened => ?_) _ rfl rfl
    (hcall (by decide) <| hcall (by decide) <| hcall (by decide) <| hcall (by decide) h)
  cases opened with
  | false => exact ⟨false, by decide⟩
  | true => exact ⟨false, by decide⟩

theorem Statement.legible (s : Statement) (hplain : s.text.all isPlain = true)
    (hprint : s.text.takeWhile isWord ≠ "print".toList) :
    effect s.shown = some false := by
  have hs := s.isStatement
  have hline : (keywords (cleaned (undecorated s.text))).all isPlain = true :=
    all_keywords (by decide) (all_of_subset hplain (List.Subset.trans (cleaned_subset _)
      (undecorated_isPrefix (newline_of_dots s.dots)).subset))
  have hfirst : (keywords (cleaned (undecorated s.text))).takeWhile isWord ≠ "print".toList := by
    rw [Ne, takeWhile_keywords (by decide), takeWhile_cleaned hs.solid,
      takeWhile_undecorated s.dots]
    exact hprint
  have hcall : printCall (keywords (cleaned (undecorated s.text))) = none :=
    Option.eq_none_iff_forall_ne_some.mpr fun rest hrest => hfirst (takeWhile_of_printCall hrest)
  have hcalm := calm_calls hline
  rw [Statement.shown, hs.content, Emitted.text, statementText, printText, hcall]
  dsimp only
  split
  · exact (hcalm.append (calm_of_plain (by decide))).effect
  · exact hcalm.effect

/-- A header that is seen, with a plain text, is legible, unless it is a function's. -/
theorem Header.legible (h : Header) (hplain : h.rest.all isPlain = true) (hseen : h.seen = true)
    (hdef : h.keyword ≠ .def_) : effect h.shown = some true := by
  have hcode : h.code.all isPlain = true := by
    have hkeyword : h.keyword.text.all isPlain = true := by cases h.keyword <;> decide
    have htext : h.text.all isPlain = true := by rw [text, List.all_append, hkeyword, hplain]; rfl
    exact all_keywords (by decide) (all_of_subset htext (List.Subset.trans (cleaned_subset _)
      (undecorated_isPrefix (newline_of_dots h.dots_text)).subset))
  have hlast := all_of_subset hcode (List.dropLast_subset _)
  have hopens : ∀ {a b : Text}, a.all isPlain = true → b.all isPlain = true →
      effect (a ++ b ++ ") \x7b".toList) = some true := fun ha hb =>
    ((calm_of_plain ha).append (calm_of_plain hb)).effect_opens
  have hcond : ∀ word, (trim (dropWord word h.code.dropLast)).all isPlain = true := fun word =>
    all_of_subset hlast (List.Subset.trans (trim_subset _) (dropWord_subset word _))
  rw [h.shown_of_seen hseen]
  cases hk : h.keyword with
  | def_ => exact absurd hk hdef
  | if_ => exact hopens (by decide) (hcond _)
  | while_ => exact hopens (by decide) (hcond _)
  | elif_ => exact hopens (by decide) (all_of_subset hcode (List.Subset.trans (trim_subset _) <|
      List.Subset.trans (dropColon_subset _) (dropWord_subset _ _)))
  | for_ =>
      show effect (forText h.code.dropLast) = some true
      rcases forText_cases h.code.dropLast with hother | ⟨a, ha, hmem⟩
      · rw [hother]
        decide
      · rw [ha]
        have hown : ∀ c ∈ "forletcns(=0;<+ ".toList, isPlain c = true :=
          forall_of_all (by decide)
        exact (calm_of_plain (List.all_eq_true.mpr fun c hc =>
          (hmem c hc).elim (List.all_eq_true.mp hlast c) (hown c))).effect_opens
  | except_ =>
      have hspec : ((literal "except".toList h.code).map (·.dropWhile isSpace)).getD h.code ⊆
          h.code := by
        cases hrest : literal "except".toList h.code with
        | none =>
            rw [Option.map_none, Option.getD_none]
            exact List.Subset.refl _
        | some rest =>
            rw [Option.map_some, Option.getD_some]
            exact List.Subset.trans (List.dropWhile_suffix isSpace).subset (literal_subset hrest)
      have hplain := all_of_subset hcode (List.Subset.trans (trim_subset _) <|
        List.Subset.trans (dropColon_subset _) hspec)
      show effect (exceptText h.code) = some true
      dsimp only [exceptText]
      refine hopens (by decide) ?_
      split
      · decide
      · exact hplain
  | else_ => exact (by decide : effect "else \x7b".toList = some true)
  | try_ => exact (by decide : effect "try \x7b".toList = some true)
  | finally_ => exact (by decide : effect "finally \x7b".toList = some true)
  | with_ => exact (by decide : effect "\x7b /* with */".toList = some true)

/-- Every line is plain; none prints, and none is the header of a function, or of a block that
has its body behind it. -/
def Code.Plain : Code → Prop
  | done => True
  | gap _ rest => rest.Plain
  | simple s rest =>
      s.text.all isPlain = true ∧ s.text.takeWhile isWord ≠ "print".toList ∧ rest.Plain
  | block h body rest =>
      h.rest.all isPlain = true ∧ h.seen = true ∧ h.keyword ≠ .def_ ∧ body.Plain ∧ rest.Plain
  | inline _ _ _ _ => False

theorem Code.legible_of_plain (c : Code) (h : c.Plain) : c.blocks.Legible := by
  induction c with
  | done => exact trivial
  | gap g rest ih => exact ih h
  | simple s rest ih => exact ⟨s.legible h.1 h.2.1, ih h.2.2⟩
  | block hd body rest ihbody ihrest =>
      exact ⟨hd.legible h.1 h.2.1 h.2.2.1, ihbody h.2.2.2.1, ihrest h.2.2.2.2⟩
  | inline => exact h.elim

/-! ## When the blocks are kept -/

def Code.NoFunction : Code → Prop
  | done => True
  | gap _ rest => rest.NoFunction
  | simple _ rest => rest.NoFunction
  | block h body rest => h.keyword ≠ .def_ ∧ body.NoFunction ∧ rest.NoFunction
  | inline h _ _ rest => h.keyword ≠ .def_ ∧ rest.NoFunction

theorem Code.noFunction_of_legible (c : Code) : ∀ {after : Bool}, c.Chained after → c.Below →
    c.Closed → c.blocks.Legible → c.NoFunction := by
  induction c with
  | done => exact fun _ _ _ _ => trivial
  | gap g rest ih =>
      exact fun hchained hbelow hclosed hlegible => ih hchained hbelow hclosed hlegible
  | simple s rest ih =>
      exact fun hchained hbelow hclosed hlegible => ih hchained hbelow hclosed hlegible.2
  | block hd body rest ihbody ihrest =>
      intro after hchained hbelow hclosed hlegible
      refine ⟨fun hdef => ?_, ihbody hchained.2.1 hbelow.1 hclosed.2.1 hlegible.2.1,
        ihrest hchained.2.2 hbelow.2 hclosed.2.2 hlegible.2.2⟩
      have hlast := hchained.2.2
      rw [show hd.keyword.goesOn = false by rw [hdef]; rfl] at hlast
      have hseen := hclosed.1
      rw [closes, begins_of_chained hlast, Bool.false_and, Bool.or_false] at hseen
      -- its line is a comment, and opens nothing
      have heffect := hlegible.1
      rw [hd.shown_of_seen hseen, hdef] at heffect
      exact absurd heffect (by decide : effect "/* def skipped */".toList ≠ some true)
  | inline => exact fun _ hbelow => hbelow.elim

structure Program.Fits (p : Program) : Prop where
  /-- Only blanks stand between the parentheses of `on_tick` and the colon. -/
  marked : p.marked = true
  /-- What stands behind the colon leaves nothing open. -/
  label : effect p.label = some false
  columns : p.body.HasBlock → 4 ≤ p.margin.columns
  /-- Every body stands below its header. -/
  below : p.body.Below
  /-- Every header ends with its colon when it is looked at, or a clause writes its brace. -/
  closed : p.body.Closed
  noFunction : p.body.NoFunction
  /-- Each line by itself becomes a line that leaves nothing open, or just its own block. -/
  legible : p.body.blocks.Legible

namespace Program

variable {p : Program}

theorem KeepsBlocks.marked (h : p.KeepsBlocks) : p.marked = true := by
  obtain ⟨note, hreplay⟩ := p.keepsBlocks_said.mp h
  obtain ⟨es, hsaid, -⟩ := p.said_grows
  rw [hsaid] at hreplay
  obtain ⟨-, -, hlabel, -, -⟩ := replay_item_cases hreplay
  exact p.marked_of_label hlabel

theorem KeepsBlocks.below (h : p.KeepsBlocks) : p.body.Below := by
  obtain ⟨note, hreplay⟩ := p.keepsBlocks_said.mp h
  obtain ⟨es, hsaid, hcount⟩ := p.said_grows
  have hlength := length_of_replay hreplay
  rw [hsaid, List.countP_cons_of_pos rfl, hcount, List.length_cons] at hlength
  -- fewer lines are emitted than the tree has statements and headers
  by_contra hbelow
  have hlt := (p.body.lineCount_lt []).2 hbelow
  omega

theorem KeepsBlocks.columns (h : p.KeepsBlocks) (hblock : p.body.HasBlock) :
    4 ≤ p.margin.columns := by
  by_contra hnarrow
  obtain ⟨note, hreplay⟩ := p.keepsBlocks_said.mp h
  have hstack : p.start.indentStack = [0] := by
    rw [p.start_eq, (p.content_marked h.marked).1, push]
  obtain ⟨es, hes, hread⟩ := narrow (Nat.not_le.mp hnarrow) p.body 1 p.start hstack h.below
    p.chained p.filled
  rcases hread with ⟨hstack, hrendered, hlength⟩ | hread
  · -- no block has been closed
    have hsaid : p.said = .item p.label :: es := by
      have hnone : ∀ out, closeAll out [0] = out := fun _ => rfl
      rw [said, hstack, hnone, hes, p.events_start]
      rfl
    rw [hsaid] at hreplay
    obtain ⟨-, -, hlabel, -, -⟩ := replay_item_cases hreplay
    rw [← hlabel] at hreplay
    have hevents := ((hrendered.replay_cons_iff p.filled).mp hreplay).2.2
    exact absurd (hlength hblock) (hevents ▸ Nat.lt_irrefl _)
  · obtain ⟨n, hsaid⟩ := p.said_of_run hes
    rw [hsaid] at hreplay
    obtain ⟨opens, -, -, -, hreplay⟩ := replay_item_cases hreplay
    refine hread (List.replicate n .close) _ [] [] (hreplay.trans ?_)
    rw [List.append_nil]

theorem keepsBlocks_iff_of_wide (hmarked : p.marked = true) (hbelow : p.body.Below)
    (hwide : p.body.HasBlock → 4 ≤ p.margin.columns) : p.KeepsBlocks ↔
      effect p.label = some false ∧ p.body.blocks.Legible ∧ p.body.Closed := by
  obtain ⟨note, hlabel⟩ := (p.content_marked hmarked).2
  have hread := (p.body.rendered_said hbelow).replay_cons_iff (t := p.label) p.filled
  rw [← p.said_of_wide hmarked hbelow hwide, p.body.said_eq_events_iff hbelow] at hread
  rw [← hread, keepsBlocks_said]
  -- the note behind the mark is what the label says
  constructor
  · rintro ⟨note, hreplay⟩
    have hcons := hreplay
    rw [p.said_of_wide hmarked hbelow hwide] at hcons
    obtain ⟨-, -, hlabel, -, -⟩ := replay_item_cases hcons
    rw [hreplay, hlabel]
  · exact fun hreplay => ⟨note, by rw [hreplay, hlabel]⟩

end Program

/-! A block behind margins of four blanks and of two. -/

/-- Sells a share while the position is long. -/
def sellWhenLong (m : Margin) : Program where
  before := []
  params := "state, orders".toList
  result := []
  tail := []
  margin := m
  body := .block
    { keyword := .if_
      rest := " state.position > 0:".toList
      bounded := rfl
      bare := fun hbare => absurd hbare (by decide)
      dots := by decide
      unquoted := .of_forall (forall_of_all (by decide)) }
    (.simple ⟨"orders.market_sell(1)".toList, by decide, by decide, by decide, by decide,
      .of_forall (forall_of_all (by decide))⟩ .done) .done
  closed := by decide
  returns := by decide
  dots := by decide
  unquoted := .of_forall (forall_of_all (by decide))
  unmarked := by decide
  chained := ⟨fun h => absurd h (by decide), trivial, trivial⟩
  filled := ⟨fun h => (nomatch h), trivial, trivial⟩

example : (sellWhenLong ⟨"    ".toList, forall_of_all (by decide), by decide⟩).KeepsBlocks :=
  ⟨[], by decide +kernel⟩

end VidhiArena.Browser.Transpile
