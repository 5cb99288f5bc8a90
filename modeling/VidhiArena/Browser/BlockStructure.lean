import VidhiArena.Browser.SourceBlocks

/-!
# Blocks of the output

What the transpiler makes of a tree of blocks. Where a margin has at least four columns, the
stack of columns follows the headers that are taken for one: a block is closed by the first
line behind it, and a clause such as `else` finds the closing brace that it goes on from, or
writes one. Where a margin has fewer, a header's own body closes it.
-/

namespace VidhiArena.Browser.Transpile

open Foundation.BracedLines

variable {t : Text} {st : State} {es : List Event} {base : List Nat} {n w : Nat} {b : Bool}

/-! ## Lines of the output -/

/-- What the output says, which is kept with its newest line first. -/
def events (out : List Text) : List Event := out.reverse.flatMap lineEvents

theorem events_cons (l : Text) (out : List Text) :
    events (l :: out) = events out ++ lineEvents l := by
  rw [events, List.reverse_cons, List.flatMap_append, List.flatMap_singleton]
  rfl

theorem dropWhile_replicate (n : Nat) (ht : Solid t) :
    (List.replicate n ' ' ++ t).dropWhile isSpace = t := by
  have hspaces : ∀ c ∈ List.replicate n ' ', isSpace c = true := by
    intro c hc
    rw [List.eq_of_mem_replicate hc]
    decide
  rw [List.dropWhile_append_of_pos hspaces]
  cases t with
  | nil => exact absurd ht not_solid_nil
  | cons c t => exact List.dropWhile_cons_of_neg (Bool.eq_false_iff.mp (solid_cons.mp ht).1)

theorem lineEvents_solid (n : Nat) (ht : Solid t) :
    lineEvents (List.replicate n ' ' ++ t) = [.item t] := by
  rw [lineEvents, dropWhile_replicate n ht]
  cases t with
  | nil => exact absurd ht not_solid_nil
  | cons c t => exact if_neg (solid_cons.mp ht).2

theorem dropWhile_closer (n : Nat) (t : Text) :
    (closer n ++ t).dropWhile isSpace = '\x7d' :: t := by
  have hspaces : ∀ c ∈ List.replicate n ' ', isSpace c = true := by
    intro c hc
    rw [List.eq_of_mem_replicate hc]
    decide
  rw [closer, List.append_assoc, List.dropWhile_append_of_pos hspaces]
  rfl

theorem lineEvents_closer (n : Nat) : lineEvents (closer n) = [.close] := by
  have h := dropWhile_closer n []
  rw [List.append_nil] at h
  rw [lineEvents, h]
  rfl

theorem lineEvents_written (n : Nat) (ht : Solid t) :
    lineEvents (List.replicate n ' ' ++ "\x7d ".toList ++ t) = [.close, .item t] := by
  have hspaces : ∀ c ∈ List.replicate n ' ', isSpace c = true := by
    intro c hc
    rw [List.eq_of_mem_replicate hc]
    decide
  have hdrop : (List.replicate n ' ' ++ "\x7d ".toList ++ t).dropWhile isSpace =
      '\x7d' :: ' ' :: t := by
    rw [List.append_assoc, List.dropWhile_append_of_pos hspaces]
    rfl
  have hitem : item (' ' :: t) = [.item t] := by
    rw [item, show (' ' :: t).dropWhile isSpace = t from dropWhile_replicate 1 ht]
    cases t with
    | nil => exact absurd ht not_solid_nil
    | cons c t => rfl
  rw [lineEvents, hdrop]
  exact congrArg (.close :: ·) hitem

theorem lineEvents_of_trim {l : Text} (hl : trim l = ['\x7d']) : lineEvents l = [.close] := by
  have hspaces : ∀ c ∈ (l.dropWhile isSpace).rtakeWhile isSpace, isSpace c = true :=
    fun c hc => List.mem_rtakeWhile_imp hc
  have hdrop : l.dropWhile isSpace = '\x7d' :: (l.dropWhile isSpace).rtakeWhile isSpace := by
    have := List.rdropWhile_append_rtakeWhile (p := isSpace) (l := l.dropWhile isSpace)
    rw [show (l.dropWhile isSpace).rdropWhile isSpace = ['\x7d'] from hl] at this
    exact this.symm
  have hitem : item ((l.dropWhile isSpace).rtakeWhile isSpace) = [] := by
    rw [item, List.dropWhile_eq_nil_iff.mpr hspaces]
  rw [lineEvents, hdrop]
  exact congrArg (.close :: ·) hitem

theorem lineEvents_brace {l : Text} (hl : trim l = ['\x7d']) (ht : Solid t) :
    lineEvents (l ++ ' ' :: t) = lineEvents l ++ [.item t] := by
  have hspaces : ∀ c ∈ (l.dropWhile isSpace).rtakeWhile isSpace, isSpace c = true :=
    fun c hc => List.mem_rtakeWhile_imp hc
  have hdrop : l.dropWhile isSpace =
      '\x7d' :: (l.dropWhile isSpace).rtakeWhile isSpace := by
    have := List.rdropWhile_append_rtakeWhile (p := isSpace) (l := l.dropWhile isSpace)
    rw [show (l.dropWhile isSpace).rdropWhile isSpace = ['\x7d'] from hl] at this
    exact this.symm
  have hitem : ∀ {spaces : Text}, (∀ c ∈ spaces, isSpace c = true) →
      item (spaces ++ ' ' :: t) = [.item t] ∧ item spaces = [] := by
    intro spaces hspaces
    have hnil : spaces.dropWhile isSpace = [] := List.dropWhile_eq_nil_iff.mpr hspaces
    have htext : (spaces ++ ' ' :: t).dropWhile isSpace = t := by
      rw [List.dropWhile_append_of_pos hspaces]
      exact dropWhile_replicate 1 ht
    constructor
    · rw [item, htext]
      cases t with
      | nil => exact absurd ht not_solid_nil
      | cons c t => rfl
    · rw [item, hnil]
  generalize (l.dropWhile isSpace).rtakeWhile isSpace = spaces at hspaces hdrop
  have happend : (l ++ ' ' :: t).dropWhile isSpace = '\x7d' :: (spaces ++ ' ' :: t) := by
    rw [List.dropWhile_append, hdrop]
    rfl
  obtain ⟨hsome, hnone⟩ := hitem hspaces
  rw [lineEvents, lineEvents, happend, hdrop]
  show .close :: item (spaces ++ ' ' :: t) = (.close :: item spaces) ++ [.item t]
  rw [hsome, hnone]
  rfl

theorem trim_closer (n : Nat) : trim (closer n) = ['\x7d'] := by
  have h := dropWhile_closer n []
  rw [List.append_nil] at h
  rw [trim, h]
  rfl

theorem events_closers (columns : List Nat) (out : List Text) :
    events (columns.map closer ++ out) = events out ++ List.replicate columns.length .close := by
  induction columns with
  | nil => exact (List.append_nil _).symm
  | cons n columns ih =>
      rw [List.map_cons, List.cons_append, events_cons, ih, lineEvents_closer, List.append_assoc,
        ← List.replicate_succ']
      rfl

/-! ## The stack of columns -/

theorem closeBlocks_extra {indent b : Nat} (hb : b ≤ indent) (base : List Nat) :
    ∀ (extra : List Nat) (out : List Text), (∀ e ∈ extra, indent < e) →
      ∃ columns : List Nat, columns.length = extra.length ∧
        closeBlocks indent out (extra ++ b :: base) = ⟨columns.map closer ++ out, b :: base⟩ := by
  intro extra
  induction extra with
  | nil =>
      intro out _
      refine ⟨[], rfl, ?_⟩
      cases base with
      | nil => rfl
      | cons b' base => exact if_neg (Nat.not_lt.mpr hb)
  | cons e extra ih =>
      intro out hextra
      have hrest : ∀ e ∈ extra, indent < e := fun e he => hextra e (List.mem_cons_of_mem _ he)
      cases hcons : extra ++ b :: base with
      | nil => exact absurd hcons (List.append_ne_nil_of_right_ne_nil _ (List.cons_ne_nil _ _))
      | cons next rest =>
          obtain ⟨columns, hlength, hclose⟩ := ih (closer next :: out) hrest
          refine ⟨columns ++ [next], ?_, ?_⟩
          · rw [List.length_append, hlength]
            rfl
          · rw [List.cons_append, hcons, closeBlocks, if_pos (hextra e List.mem_cons_self), ← hcons,
              hclose, List.map_append, List.append_assoc]
            rfl

theorem closeAll_extra (b : Nat) : ∀ (extra : List Nat) (out : List Text),
    ∃ columns : List Nat, columns.length = extra.length ∧
      closeAll out (extra ++ [b]) = columns.map closer ++ out := by
  intro extra
  induction extra with
  | nil => exact fun out => ⟨[], rfl, rfl⟩
  | cons e extra ih =>
      intro out
      cases hcons : extra ++ [b] with
      | nil => exact absurd hcons (List.append_ne_nil_of_right_ne_nil _ (List.cons_ne_nil _ _))
      | cons next rest =>
          obtain ⟨columns, hlength, hclose⟩ := ih (closer next :: out)
          refine ⟨columns ++ [next], ?_, ?_⟩
          · rw [List.length_append, hlength]
            rfl
          · rw [List.cons_append, hcons, closeAll, ← hcons, hclose, List.map_append,
              List.append_assoc]
            rfl

/-! ## Steps -/

variable {margin : Text}

theorem takeWhile_margin (hm : ∀ c ∈ margin, isSpace c = true) (ht : Solid t) :
    (margin ++ t).takeWhile isSpace = margin := by
  rw [List.takeWhile_append_of_pos hm]
  cases t with
  | nil => exact absurd ht not_solid_nil
  | cons c t =>
      rw [List.takeWhile_cons_of_neg (Bool.eq_false_iff.mp (solid_cons.mp ht).1), List.append_nil]

theorem getIndent_margin (hm : ∀ c ∈ margin, isSpace c = true) (ht : Solid t) :
    getIndent (margin ++ t) = getIndent margin := by
  have hself : margin.takeWhile isSpace = margin := List.takeWhile_eq_self_iff.mpr hm
  rw [getIndent, getIndent, takeWhile_margin hm ht, hself]

theorem trim_margin (hm : ∀ c ∈ margin, isSpace c = true) (t : Text) :
    trim (margin ++ t) = trim t := by
  rw [trim, trim, List.dropWhile_append_of_pos hm]

theorem isGap_of_solid (ht : Solid t) (hcomment : t.head? ≠ some '#') : isGap t = false := by
  cases t with
  | nil => exact absurd ht not_solid_nil
  | cons c t =>
      have hspace := Bool.eq_false_iff.mp (solid_cons.mp ht).1
      have htrim : trim (c :: t) = c :: t.rdropWhile isSpace :=
        (trim_of_solid ht).trans (rdropWhile_append hspace [] t)
      rw [isGap, htrim, Bool.or_eq_false_iff]
      exact ⟨rfl, beq_eq_false_iff_ne.mpr hcomment⟩

theorem step_margin (hm : ∀ c ∈ margin, isSpace c = true) (ht : Solid t)
    (hcomment : t.head? ≠ some '#') (st : State) :
    step st (margin ++ t) = push (getIndent margin)
      (closeBlocks (getIndent margin) st.out st.indentStack) (content t) := by
  have hgap : isGap (margin ++ t) = false := by
    have := isGap_of_solid ht hcomment
    rwa [isGap, ← trim_margin hm t] at this
  have hcleaned : cleaned (margin ++ t) = cleaned t := by
    rw [cleaned, cleaned, trim_margin hm t]
  have hne : cleaned t ≠ [] := fun hnil => by
    have := solid_cleaned ht hcomment
    rw [hnil] at this
    exact not_solid_nil this
  rw [step, if_neg (Bool.eq_false_iff.mp hgap), getIndent_margin hm ht, hcleaned]
  exact if_neg hne

theorem step_gap {l : Text} (h : isGap l = true) (st : State) :
    step st l = ⟨[] :: st.out, st.indentStack⟩ := if_pos h

theorem getIndent_times (m : Margin) (k : Nat) : getIndent (m.times k) = k * m.columns := by
  have hself : ∀ {t : Text}, (∀ c ∈ t, isSpace c = true) →
      getIndent t = (t.map fun c => if c = '\t' then 4 else 1).sum := by
    intro t ht
    have := List.takeWhile_eq_self_iff.mpr ht
    rw [getIndent, this]
  have hone : m.times 1 = m.blanks := List.append_nil _
  have hcolumns : m.columns = (m.blanks.map fun c => if c = '\t' then 4 else 1).sum :=
    hself (hone ▸ m.spaces 1)
  rw [hself (m.spaces k), hcolumns]
  induction k with
  | zero => exact (Nat.zero_mul _).symm
  | succ k ih =>
      rw [Margin.times, List.replicate_succ, List.flatten_cons, List.map_append, List.sum_append,
        Nat.succ_mul, Nat.add_comm]
      exact congrArg (· + _) ih


/-! ## Margins of four columns -/

/-- The last line is not just a brace. -/
def Fresh (out : List Text) : Prop := ∀ l ∈ out.head?, lineEvents l ≠ [.close]

theorem fresh_cons {l : Text} (h : lineEvents l ≠ [.close]) (out : List Text) :
    Fresh (l :: out) := by
  intro l' hl'
  rwa [← Option.some.inj hl']

/-- The top of a stack is not to the right of a column. -/
def Under (base : List Nat) (n : Nat) : Prop := ∃ top rest, base = top :: rest ∧ top ≤ n

/-- At lines of column `n`, in the blocks whose columns are in `base`, with the events `es` once
the blocks that the next line closes are closed; `waiting` if there are such blocks. -/
def Settled (base : List Nat) (n : Nat) (st : State) (es : List Event) (waiting : Bool) : Prop :=
  ∃ extra : List Nat, st.indentStack = extra ++ base ∧ (∀ e ∈ extra, n < e) ∧
    (waiting = true ↔ extra ≠ []) ∧ Fresh st.out ∧
      events st.out ++ List.replicate extra.length .close = es

theorem settled_cons {l : Text} {out : List Text} (hl : lineEvents l ≠ [.close])
    (hes : events out ++ lineEvents l = es) : Settled base n ⟨l :: out, base⟩ es false := by
  refine ⟨[], rfl, fun _ he => absurd he List.not_mem_nil, ?_, fresh_cons hl out, ?_⟩
  · exact iff_of_false Bool.false_ne_true fun hne => hne rfl
  · rw [events_cons, hes]
    exact List.append_nil _

theorem settled_solid {out : List Text} (ht : Solid t) (hes : events out = es) (k : Nat) :
    Settled base n ⟨(List.replicate k ' ' ++ t) :: out, base⟩ (es ++ [.item t]) false := by
  refine settled_cons ?_ (by rw [hes, lineEvents_solid k ht])
  rw [lineEvents_solid k ht]
  exact fun heq => nomatch heq

namespace Settled

theorem gap (h : Settled base n st es b) {l : Text} (hl : isGap l = true) :
    Settled base n (step st l) es b := by
  obtain ⟨extra, hstack, hextra, hwaiting, -, hevents⟩ := h
  refine ⟨extra, ?_, hextra, hwaiting, ?_, ?_⟩
  · rw [step_gap hl, hstack]
  · rw [step_gap hl]
    exact fresh_cons (l := []) (List.cons_ne_nil _ _).symm _
  · rw [step_gap hl, events_cons]
    exact (congrArg (· ++ _) (List.append_nil _)).trans hevents

theorem leave (h : Settled ((n + 4) :: base) (n + w) st es b) :
    Settled base n st (es ++ [.close]) true := by
  obtain ⟨extra, hstack, hextra, -, hfresh, hevents⟩ := h
  refine ⟨extra ++ [n + 4], ?_, fun e he => ?_, ?_, hfresh, ?_⟩
  · rw [hstack, List.append_assoc]
    rfl
  · rcases List.mem_append.mp he with he | he
    · exact (Nat.le_add_right n w).trans_lt (hextra e he)
    · rw [List.mem_singleton.mp he]
      exact Nat.lt_add_of_pos_right (by decide)
  · exact iff_of_true rfl (List.append_ne_nil_of_right_ne_nil _ (List.cons_ne_nil _ _))
  · rw [← hevents, List.length_append, List.append_assoc, ← List.replicate_succ']
    rfl

theorem outdent (h : Settled base (n + w) st es b) : Settled base n st es b := by
  obtain ⟨extra, hstack, hextra, hrest⟩ := h
  exact ⟨extra, hstack, fun e he => (Nat.le_add_right n w).trans_lt (hextra e he), hrest⟩

theorem closed (hbase : Under base n) (h : Settled base n st es b) :
    ∃ out, closeBlocks n st.out st.indentStack = ⟨out, base⟩ ∧ events out = es ∧
      (b = true → ∃ n out', out = closer n :: out') ∧ (b = false → Fresh out) := by
  obtain ⟨extra, hstack, hextra, hwaiting, hfresh, hevents⟩ := h
  obtain ⟨top, rest, rfl, htop⟩ := hbase
  obtain ⟨columns, hlength, hclose⟩ := closeBlocks_extra htop rest extra st.out hextra
  refine ⟨columns.map closer ++ st.out, ?_, ?_, fun hb => ?_, fun hb => ?_⟩
  · rw [hstack, hclose]
  · rw [events_closers, hlength, hevents]
  · cases columns with
    | nil => exact absurd (List.length_eq_zero_iff.mp hlength.symm) (hwaiting.mp hb)
    | cons n columns => exact ⟨n, _, rfl⟩
  · have hnil : extra = [] := by
      by_contra hne
      rw [hwaiting.mpr hne] at hb
      cases hb
    rw [hnil] at hlength
    rw [List.length_eq_zero_iff.mp hlength]
    exact hfresh

variable {m : Margin} {k : Nat}

theorem statement (hbase : Under base (k * m.columns)) (h : Settled base (k * m.columns) st es b)
    (s : Statement) : Settled base (k * m.columns) (step st (m.times k ++ undecorated s.text))
      (es ++ [.item s.shown]) false := by
  have hs := s.isStatement
  obtain ⟨out, hclose, hevents, -⟩ := h.closed hbase
  rw [step_margin (m.spaces _) hs.solid hs.notComment, getIndent_times, hclose, s.content_line,
    push]
  exact settled_solid s.solid_shown hevents _

theorem header (hbase : Under base (k * m.columns)) (h : Settled base (k * m.columns) st es b)
    {hd : Header} (hseen : hd.seen = true) :
    Settled ((k * m.columns + 4) :: base) n (step st (m.times k ++ hd.line))
      (es ++ (if hd.keyword.continues && !b then [.close] else []) ++ [.item hd.shown]) false := by
  have hsolid := hd.solid_shown
  obtain ⟨out, hclose, hevents, hwaiting, hfresh⟩ := h.closed hbase
  rw [step_margin (m.spaces _) hd.solid_line hd.first_line, getIndent_times, hclose]
  cases hk : hd.keyword.continues with
  | false =>
      rw [hd.content_opens hk hseen, push, Bool.false_and, if_neg Bool.false_ne_true,
        List.append_nil]
      exact settled_solid hsolid hevents _
  | true =>
      rw [hd.content_continues hk, push]
      cases b with
      | true =>
          -- the brace is there
          obtain ⟨n, out', rfl⟩ := hwaiting rfl
          have hline := lineEvents_brace (trim_closer n) hsolid
          rw [lineEvents_closer] at hline
          rw [pushContinued, if_pos (trim_closer n)]
          refine settled_cons ?_ ?_
          · rw [hline]
            exact fun heq => nomatch heq
          · rw [hline, ← hevents, events_cons, lineEvents_closer, List.append_assoc,
              List.append_assoc]
            rfl
      | false =>
          have hline := lineEvents_written (k * m.columns) hsolid
          have hwritten : Settled ((k * m.columns + 4) :: base) n
              ⟨(List.replicate (k * m.columns) ' ' ++ "\x7d ".toList ++ hd.shown) :: out, _⟩
              (es ++ [.close, .item hd.shown]) false :=
            settled_cons (by rw [hline]; exact fun heq => nomatch heq) (by rw [hline, hevents])
          have hlast : pushContinued (List.replicate (k * m.columns) ' ') hd.shown out =
              (List.replicate (k * m.columns) ' ' ++ "\x7d ".toList ++ hd.shown) :: out := by
            cases out with
            | nil => rfl
            | cons last out =>
                exact if_neg fun heq => hfresh rfl last rfl (lineEvents_of_trim heq)
          rw [hlast, if_pos (show (true && !false) = true from rfl), List.append_assoc es]
          exact hwritten

theorem unseen (hbase : Under base (k * m.columns)) (h : Settled base (k * m.columns) st es b)
    {hd : Header} (hseen : hd.seen = false) :
    Settled base n (step st (m.times k ++ hd.line)) (es ++ [.item hd.shown]) false := by
  obtain ⟨out, hclose, hevents, -⟩ := h.closed hbase
  rw [step_margin (m.spaces _) hd.solid_line hd.first_line, getIndent_times, hclose,
    hd.content_unseen hseen, push]
  exact settled_solid hd.solid_shown hevents _

end Settled

theorem Gap.isGap_line {margin : Text} (g : Gap) (hm : ∀ c ∈ margin, isSpace c = true) :
    isGap (g.line margin) = true := by
  have hspaces : ∀ {t : Text}, (∀ c ∈ t, isSpace c = true) → isGap t = true := by
    intro t ht
    have hdrop := List.dropWhile_eq_nil_iff.mpr ht
    rw [isGap, trim, hdrop]
    rfl
  cases g with
  | blank t spaces dots => exact hspaces spaces
  | comment blanks note spaces dots unquoted =>
      have htrim : trim ('#' :: undecorated note) = '#' :: (undecorated note).rdropWhile isSpace :=
        rdropWhile_append (by decide) [] _
      rw [Gap.line, isGap, trim_margin spaces, htrim]
      rfl
  | doc q note quote inner apart => exact hspaces hm

/-- The lines of a tree: where there are blocks, four columns are enough for the braces of the
headers that have been seen. -/
theorem Settled.run {m : Margin} (c : Code) : ∀ {k base st es b after}, c.Below → c.Chained after →
    (c.HasBlock → 4 ≤ m.columns) → Under base (k * m.columns) →
    Settled base (k * m.columns) st es b →
      Settled base (k * m.columns) ((c.lines m k).foldl step st)
        (es ++ ((if c.begins && !b then [.close] else []) ++ c.said)) (c.waits b) := by
  -- the invariant of the loop, by induction over the tree, for any base of the stack
  induction c with
  | done =>
      intro k base st es b after _ _ _ _ h
      exact (List.append_nil es).symm ▸ h
  | gap g rest ih =>
      intro k base st es b after hbelow hchained hw hbase h
      exact ih hbelow hchained hw hbase (h.gap (g.isGap_line (m.spaces _)))
  | simple s rest ih =>
      intro k base st es b after hbelow hchained hw hbase h
      have hrun := ih hbelow hchained hw hbase (h.statement hbase s)
      rw [Code.begins_of_chained hchained, List.append_assoc] at hrun
      exact hrun
  | block hd body rest ihbody ihrest =>
      intro k base st es b after hbelow hchained hw hbase h
      have hcolumns : 4 ≤ m.columns := hw trivial
      have hdeeper : (k + 1) * m.columns = k * m.columns + m.columns := Nat.succ_mul k m.columns
      have hbegins := Code.begins_of_chained hchained.2.1
      rw [Code.lines, List.foldl_cons, List.foldl_append, Code.begins, Code.said, Code.waits,
        Code.closes]
      cases hseen : hd.seen with
      | true =>
          -- the body lies to the right of the pushed column
          have hunder : Under ((k * m.columns + 4) :: base) ((k + 1) * m.columns) :=
            ⟨_, _, rfl, hdeeper ▸ Nat.add_le_add_left hcolumns _⟩
          have hbody := ihbody hbelow.1 hchained.2.1 (fun _ => hcolumns) hunder
            (h.header hbase hseen)
          rw [hdeeper] at hbody
          have hrest := ihrest hbelow.2 hchained.2.2 (fun _ => hcolumns) hbase hbody.leave
          rw [hbegins] at hrest
          simpa using hrest
      | false =>
          -- the header pushed nothing, so that its body lies on the old base
          have hk := hd.continues_of_unseen hseen
          have hunder : Under base ((k + 1) * m.columns) := by
            obtain ⟨top, tail, heq, htop⟩ := hbase
            exact ⟨top, tail, heq, htop.trans (Nat.mul_le_mul_right _ (Nat.le_succ k))⟩
          have hbody := ihbody hbelow.1 hchained.2.1 (fun _ => hcolumns) hunder
            (h.unseen hbase hseen)
          rw [hdeeper] at hbody
          have hrest := ihrest hbelow.2 hchained.2.2 (fun _ => hcolumns) hbase hbody.outdent
          rw [hbegins] at hrest
          rw [hk]
          cases hcloses : rest.begins && !body.waits false with
          | true =>
              rw [hcloses] at hrest
              simpa [hcloses] using hrest
          | false =>
              rw [hcloses] at hrest
              simpa [hcloses] using hrest
  | inline => exact fun hbelow => hbelow.elim

theorem Settled.events_closeAll (h : Settled [0] n st es b) :
    events (closeAll st.out st.indentStack) = es := by
  obtain ⟨extra, hstack, -, -, -, hevents⟩ := h
  obtain ⟨columns, hlength, hclose⟩ := closeAll_extra 0 extra st.out
  rw [hstack, hclose, events_closers, hlength, hevents]

/-! ## Narrow margins -/

theorem closeBlocks_grows (indent : Nat) : ∀ (stack : List Nat) (out : List Text),
    ∃ columns : List Nat, (closeBlocks indent out stack).out = columns.map closer ++ out
  | [], out => ⟨[], rfl⟩
  | [_], out => ⟨[], rfl⟩
  | top :: next :: rest, out => by
      obtain ⟨columns, hcolumns⟩ := closeBlocks_grows indent (next :: rest) (closer next :: out)
      rw [closeBlocks]
      split
      · exact ⟨columns ++ [next], by rw [hcolumns, List.map_append, List.append_assoc]; rfl⟩
      · exact ⟨[], rfl⟩

theorem closeAll_grows : ∀ (stack : List Nat) (out : List Text),
    ∃ columns : List Nat, closeAll out stack = columns.map closer ++ out
  | [], out => ⟨[], rfl⟩
  | [_], out => ⟨[], rfl⟩
  | _ :: next :: rest, out => by
      obtain ⟨columns, hcolumns⟩ := closeAll_grows (next :: rest) (closer next :: out)
      exact ⟨columns ++ [next], by
        rw [closeAll, hcolumns, List.map_append, List.append_assoc]
        rfl⟩

theorem pushContinued_grows (n : Nat) (ht : Solid t) (out : List Text) :
    ∃ es, (es = [] ∨ es = [.close]) ∧
      events (pushContinued (List.replicate n ' ') t out) = events out ++ (es ++ [.item t]) := by
  cases out with
  | nil =>
      exact ⟨[.close], .inr rfl, by rw [pushContinued, events_cons, lineEvents_written n ht]; rfl⟩
  | cons last out =>
      rw [pushContinued]
      split
      · have hlast : trim last = ['\x7d'] := by assumption
        exact ⟨[], .inl rfl, by
          rw [events_cons, events_cons, lineEvents_brace hlast ht, List.append_assoc]
          rfl⟩
      · exact ⟨[.close], .inr rfl, by rw [events_cons, lineEvents_written n ht]; rfl⟩

theorem push_grows (indent : Nat) (st : State) {e : Emitted} (he : Solid e.text) :
    ∃ es, (es = [] ∨ es = [.close]) ∧
      events (push indent st e).out = events st.out ++ (es ++ [.item e.text]) := by
  cases e with
  | statement t | opens t =>
      exact ⟨[], .inl rfl, (events_cons _ _).trans (congrArg _ (lineEvents_solid indent he))⟩
  | continues t => exact pushContinued_grows indent he st.out

theorem step_grows (hm : ∀ c ∈ margin, isSpace c = true) (ht : Solid t)
    (hcomment : t.head? ≠ some '#') (hcontent : Solid (content t).text) (st : State) :
    ∃ es, events (step st (margin ++ t)).out = events st.out ++ es ∧
      es.countP Event.isItem = 1 := by
  rw [step_margin hm ht hcomment]
  obtain ⟨columns, hcolumns⟩ := closeBlocks_grows (getIndent margin) st.indentStack st.out
  obtain ⟨es, hcases, hes⟩ := push_grows (getIndent margin)
    (closeBlocks (getIndent margin) st.out st.indentStack) hcontent
  refine ⟨List.replicate columns.length .close ++ (es ++ [.item (content t).text]), ?_, ?_⟩
  · rw [hes, hcolumns, events_closers, List.append_assoc]
  · have hclose : ¬ Event.close.isItem = true := Bool.false_ne_true
    rw [List.countP_append, List.countP_replicate, if_neg hclose]
    rcases hcases with rfl | rfl
    · rfl
    · rfl

namespace Code

/-- The lines with something on them. -/
def lineCount : Code → Nat
  | done => 0
  | gap _ rest => rest.lineCount
  | simple _ rest | inline _ _ _ rest => 1 + rest.lineCount
  | block _ body rest => 1 + (body.lineCount + rest.lineCount)

theorem run_grows {m : Margin} (c : Code) : ∀ (k : Nat) (st : State),
    ∃ es, events ((c.lines m k).foldl step st).out = events st.out ++ es ∧
      es.countP Event.isItem = c.lineCount := by
  induction c with
  | done => exact fun k st => ⟨[], (List.append_nil _).symm, rfl⟩
  | gap g rest ih =>
      intro k st
      obtain ⟨es, hes, hcount⟩ := ih k (step st (g.line (m.times k)))
      refine ⟨es, hes.trans ?_, hcount⟩
      rw [step_gap (g.isGap_line (m.spaces k)), events_cons]
      exact congrArg (· ++ es) (List.append_nil _)
  | simple s rest ih =>
      intro k st
      have hs := s.isStatement
      obtain ⟨es, hes, hcount⟩ := step_grows (m.spaces k) hs.solid hs.notComment hs.solid_text st
      obtain ⟨es', hes', hcount'⟩ := ih k (step st (m.times k ++ undecorated s.text))
      refine ⟨es ++ es', ?_, ?_⟩
      · rw [lines, List.foldl_cons, hes', hes, List.append_assoc]
      · rw [List.countP_append, hcount, hcount', lineCount]
  | block hd body rest ihbody ihrest =>
      intro k st
      obtain ⟨es, hes, hcount⟩ :=
        step_grows (m.spaces k) hd.solid_line hd.first_line hd.solid_shown st
      obtain ⟨es₁, hes₁, hcount₁⟩ := ihbody (k + 1) (step st (m.times k ++ hd.line))
      obtain ⟨es₂, hes₂, hcount₂⟩ := ihrest k ((body.lines m (k + 1)).foldl step _)
      -- header, body and rest add one after the other
      refine ⟨es ++ (es₁ ++ es₂), ?_, ?_⟩
      · rw [lines, List.foldl_cons, List.foldl_append, hes₂, hes₁, hes, List.append_assoc,
          List.append_assoc]
      · rw [List.countP_append, List.countP_append, hcount, hcount₁, hcount₂, lineCount]
  | inline hd suite split rest ih =>
      intro k st
      obtain ⟨es, hes, hcount⟩ :=
        step_grows (m.spaces k) hd.solid_line hd.first_line hd.solid_shown st
      obtain ⟨es', hes', hcount'⟩ := ih k (step st (m.times k ++ hd.line))
      refine ⟨es ++ es', ?_, ?_⟩
      · rw [lines, List.foldl_cons, hes', hes, List.append_assoc]
      · rw [List.countP_append, hcount, hcount', lineCount]

theorem lineCount_lt (c : Code) (path : List Text) :
    c.lineCount ≤ (c.blocks.outline path).length ∧
      (¬ c.Below → c.lineCount < (c.blocks.outline path).length) := by
  induction c generalizing path with
  | done => exact ⟨le_rfl, fun hbelow => absurd trivial hbelow⟩
  | gap g rest ih => exact ih path
  | simple s rest ih =>
      obtain ⟨hle, hlt⟩ := ih path
      rw [lineCount, blocks, Blocks.outline, List.length_cons, Nat.add_comm]
      exact ⟨Nat.succ_le_succ hle, fun hbelow => Nat.succ_lt_succ (hlt hbelow)⟩
  | block hd body rest ihbody ihrest =>
      obtain ⟨hle, hlt⟩ := ihbody (hd.shown :: path)
      obtain ⟨hle', hlt'⟩ := ihrest path
      rw [lineCount, blocks, Blocks.outline, List.length_cons, List.length_append]
      refine ⟨by omega, fun hbelow => ?_⟩
      by_cases hbody : body.Below
      · have := hlt' fun hrest => hbelow ⟨hbody, hrest⟩
        omega
      · have := hlt hbody
        omega
  | inline hd suite split rest ih =>
      obtain ⟨hle, -⟩ := ih path
      rw [lineCount, blocks, Blocks.outline, List.length_cons, List.length_append]
      exact ⟨by simp only [Blocks.outline, List.length_cons]; omega,
        fun _ => by simp only [Blocks.outline, List.length_cons]; omega⟩

end Code

theorem closeBlocks_single (n b : Nat) (out : List Text) : closeBlocks n out [b] = ⟨out, [b]⟩ := rfl

theorem Header.push_content (h : Header) (hk : h.keyword.continues = false) (n : Nat) (st : State) :
    push n st (content h.line) = ⟨(List.replicate n ' ' ++ h.shown) :: st.out,
      if h.seen then (n + 4) :: st.indentStack else st.indentStack⟩ := by
  cases hseen : h.seen with
  | false => rw [h.content_unseen hseen, push, if_neg Bool.false_ne_true]
  | true => rw [h.content_opens hk hseen, push, if_pos rfl]

theorem Header.push_stack (h : Header) (hseen : h.seen = true) (n : Nat) (st : State) :
    (push n st (content h.line)).indentStack = (n + 4) :: st.indentStack := by
  cases hk : h.keyword.continues with
  | true => rw [h.content_continues hk, push]
  | false => rw [h.content_opens hk hseen, push]

/-- Behind a header that has been seen, under a narrow margin, the first line of the body closes
the block. -/
theorem first_line {m : Margin} (hm : m.columns < 4) (k : Nat) (c : Code) :
    ∀ st : State, st.indentStack = [k * m.columns + 4, 0] → c.Below → c.Chained false →
      c.blocks ≠ .done →
        ∃ t es, events ((c.lines m (k + 1)).foldl step st).out =
          events st.out ++ .close :: .item t :: es ∧
            ∀ path, ∃ L, c.blocks.outline path = (t, path) :: L := by
  -- one column too few: the block of the header is popped
  have hclose : ∀ {st : State}, st.indentStack = [k * m.columns + 4, 0] →
      closeBlocks (getIndent (m.times (k + 1))) st.out st.indentStack =
        ⟨closer 0 :: st.out, [0]⟩ := by
    intro st hst
    have hlt : getIndent (m.times (k + 1)) < k * m.columns + 4 := by
      rw [getIndent_times, Nat.succ_mul]
      exact Nat.add_lt_add_left hm _
    rw [hst, closeBlocks, if_pos hlt]
    rfl
  induction c with
  | done => exact fun _ _ _ _ hne => absurd rfl hne
  | gap g rest ih =>
      intro st hst hbelow hchained hne
      have hstep := step_gap (g.isGap_line (m.spaces (k + 1))) st
      obtain ⟨t, es, hes, houtline⟩ :=
        ih (step st (g.line (m.times (k + 1)))) (by rw [hstep]; exact hst) hbelow hchained hne
      refine ⟨t, es, hes.trans ?_, houtline⟩
      rw [hstep, events_cons]
      exact congrArg (· ++ _) (List.append_nil _)
  | simple s rest ih =>
      intro st hst _ _ _
      have hs := s.isStatement
      obtain ⟨es, hes, -⟩ :=
        rest.run_grows (k + 1) (step st (m.times (k + 1) ++ undecorated s.text))
      refine ⟨_, es, hes.trans ?_, fun path => ⟨_, rfl⟩⟩
      rw [step_margin (m.spaces _) hs.solid hs.notComment, hclose hst, s.content_line, push,
        events_cons, events_cons, lineEvents_closer, lineEvents_solid _ s.solid_shown,
        List.append_assoc, List.append_assoc]
      rfl
  | block hd body rest ihbody ihrest =>
      intro st hst _ hchained _
      have hk : hd.keyword.continues = false :=
        Bool.eq_false_iff.mpr fun hk => Bool.false_ne_true (hchained.1 hk)
      obtain ⟨es₁, hes₁, -⟩ := body.run_grows (k + 2) (step st (m.times (k + 1) ++ hd.line))
      obtain ⟨es₂, hes₂, -⟩ := rest.run_grows (k + 1) ((body.lines m (k + 2)).foldl step _)
      refine ⟨_, es₁ ++ es₂, ?_, fun path => ⟨_, rfl⟩⟩
      rw [Code.lines, List.foldl_cons, List.foldl_append, hes₂, hes₁,
        step_margin (m.spaces _) hd.solid_line hd.first_line, hclose hst, hd.push_content hk,
        events_cons, events_cons, lineEvents_closer, lineEvents_solid _ hd.solid_shown]
      simp only [List.append_assoc]
      rfl
  | inline => exact fun _ _ hbelow => hbelow.elim

/-- Nothing that begins so reads as the tree. -/
def Misread (b : Blocks) (es : List Event) : Prop :=
  ∀ more blocks path L, replay (es ++ more) blocks ≠ some (b.outline path ++ L)

theorem misread_block {h t : Text} {body rest : Blocks} {es₀ es : List Event}
    (hes₀ : es₀ = [] ∨ es₀ = [.close])
    (hbody : ∀ path, ∃ L, body.outline path = (t, path) :: L) :
    Misread (.block h body rest) (es₀ ++ .item h :: .close :: .item t :: es) := by
  intro more blocks path L hreplay
  obtain ⟨L', hL'⟩ := hbody (h :: path)
  rw [Blocks.outline, hL', List.append_assoc] at hreplay
  obtain ⟨blocks', hreplay⟩ : ∃ blocks', replay (.item h :: .close :: .item t :: (es ++ more))
      blocks' = some ((h, path) :: (t, h :: path) :: (L' ++ rest.outline path ++ L)) := by
    rcases hes₀ with rfl | rfl
    · exact ⟨blocks, hreplay⟩
    · obtain ⟨-, blocks', -, hreplay⟩ := replay_close_cases hreplay
      exact ⟨blocks', hreplay⟩
  obtain ⟨opens, -, -, rfl, hreplay⟩ := replay_item_cases hreplay
  obtain ⟨head, blocks'', hblocks, hreplay⟩ := replay_close_cases hreplay
  obtain ⟨-, -, -, rfl, -⟩ := replay_item_cases hreplay
  -- the header has opened one block at most
  cases opens with
  | false => cases hblocks
  | true => cases hblocks

namespace Misread

variable {h : Text} {body rest : Blocks} {es₁ es₂ : List Event}

theorem item (hrest : Misread rest es) : Misread (.item t rest) (.item t :: es) := by
  intro more blocks path L hreplay
  rw [Blocks.outline, List.cons_append] at hreplay
  obtain ⟨_, -, -, -, hreplay⟩ := replay_item_cases hreplay
  exact hrest _ _ _ _ hreplay

theorem inside (hbody : Misread body es₁) :
    Misread (.block h body rest) (.item h :: (es₁ ++ es₂)) := by
  intro more blocks path L hreplay
  rw [Blocks.outline, List.cons_append, List.cons_append, List.append_assoc,
    List.append_assoc] at hreplay
  obtain ⟨_, -, -, -, hreplay⟩ := replay_item_cases hreplay
  exact hbody _ _ _ _ hreplay

theorem behind (hrendered : body.Rendered es₁) (hbody : body.Filled) (hrest : Misread rest es₂) :
    Misread (.block h body rest) (.item h :: (es₁ ++ es₂)) := by
  intro more blocks path L hreplay
  rw [Blocks.outline, List.cons_append, List.cons_append, List.append_assoc,
    List.append_assoc] at hreplay
  obtain ⟨_, -, -, -, hreplay⟩ := replay_item_cases hreplay
  obtain ⟨blocks', hreplay, -⟩ := hrendered.legible_of_replay hbody hreplay
  exact hrest _ _ _ _ hreplay

end Misread

/-- Every block of the tree is left open, or one goes wrong. -/
def Narrowed (c : Code) (stack : List Nat) (es : List Event) : Prop :=
  stack = [0] ∧ c.blocks.Rendered es ∧ (c.HasBlock → es.length < c.blocks.events.length) ∨
    Misread c.blocks es

/-- A header that closes a block closes its own: the body stands behind the brace. -/
theorem misread_seen {m : Margin} (hm : m.columns < 4) {hd : Header} {body : Code}
    (rest : Code) {k : Nat} {st : State} (hst : st.indentStack = [0]) (hbelow : body.Below)
    (hchained : body.Chained false) (hfilled : body.blocks ≠ .done) (hseen : hd.seen = true) :
    ∃ es, events (((Code.block hd body rest).lines m k).foldl step st).out =
        events st.out ++ es ∧ Misread (Code.block hd body rest).blocks es := by
  have hstep : step st (m.times k ++ hd.line) =
      push (k * m.columns) ⟨st.out, [0]⟩ (content hd.line) := by
    rw [step_margin (m.spaces k) hd.solid_line hd.first_line, hst, getIndent_times,
      closeBlocks_single]
  obtain ⟨es₀, hes₀, hheader⟩ := push_grows (k * m.columns) ⟨st.out, [0]⟩ hd.solid_shown
  obtain ⟨t, es₁, hes₁, hbody⟩ := first_line hm k body (step st (m.times k ++ hd.line))
    (by rw [hstep, hd.push_stack hseen]) hbelow hchained hfilled
  obtain ⟨es₂, hes₂, -⟩ := rest.run_grows k ((body.lines m (k + 1)).foldl step _)
  refine ⟨es₀ ++ .item hd.shown :: .close :: .item t :: (es₁ ++ es₂), ?_,
    misread_block hes₀ hbody⟩
  rw [Code.lines, List.foldl_cons, List.foldl_append, hes₂, hes₁, hstep, hheader, ← Header.shown]
  simp only [List.append_assoc, List.cons_append, List.nil_append]

theorem narrow {m : Margin} (hm : m.columns < 4) (c : Code) :
    ∀ (k : Nat) (st : State) {after : Bool}, st.indentStack = [0] → c.Below →
      c.Chained after → c.blocks.Filled →
      ∃ es, events ((c.lines m k).foldl step st).out = events st.out ++ es ∧
        Narrowed c ((c.lines m k).foldl step st).indentStack es := by
  induction c with
  | done => exact fun k st _ hst _ _ _ =>
      ⟨[], (List.append_nil _).symm, .inl ⟨hst, .done, fun hblock => hblock.elim⟩⟩
  | gap g rest ih =>
      intro k st _ hst hbelow hchained hfilled
      have hstep := step_gap (g.isGap_line (m.spaces k)) st
      obtain ⟨es, hes, hread⟩ :=
        ih k (step st (g.line (m.times k))) (by rw [hstep]; exact hst) hbelow hchained hfilled
      refine ⟨es, hes.trans ?_, hread⟩
      rw [hstep, events_cons]
      exact congrArg (· ++ es) (List.append_nil _)
  | simple s rest ih =>
      intro k st _ hst hbelow hchained hfilled
      have hs := s.isStatement
      have hstep : step st (m.times k ++ undecorated s.text) =
          ⟨(List.replicate (getIndent (m.times k)) ' ' ++ s.shown) :: st.out, [0]⟩ := by
        rw [step_margin (m.spaces k) hs.solid hs.notComment, hst, s.content_line]
        rfl
      obtain ⟨es, hes, hread⟩ := ih k (step st (m.times k ++ undecorated s.text))
        (by rw [hstep]) hbelow hchained hfilled
      refine ⟨.item s.shown :: es, hes.trans ?_, ?_⟩
      · rw [hstep, events_cons, lineEvents_solid _ s.solid_shown, List.append_assoc]
        rfl
      · rcases hread with ⟨hstack, hrendered, hlength⟩ | hread
        · refine .inl ⟨hstack, .item _ hrendered, fun hblock => ?_⟩
          rw [Code.blocks, Blocks.events, List.length_cons, List.length_cons]
          exact Nat.succ_lt_succ (hlength hblock)
        · exact .inr hread.item
  | block hd body rest ihbody ihrest =>
      intro k st _ hst hbelow hchained hfilled
      cases hseen : hd.seen with
      | true =>
          obtain ⟨es, hes, hread⟩ := misread_seen hm rest (k := k) hst hbelow.1
            hchained.2.1 hfilled.1 hseen
          exact ⟨es, hes, .inr hread⟩
      | false =>
          rw [Code.lines, List.foldl_cons, List.foldl_append]
          have hk : hd.keyword.continues = false := hd.continues_of_unseen hseen
          have hheader : step st (m.times k ++ hd.line) =
              ⟨(List.replicate (k * m.columns) ' ' ++ hd.shown) :: st.out, [0]⟩ := by
            rw [step_margin (m.spaces k) hd.solid_line hd.first_line, hst, getIndent_times,
              closeBlocks_single, hd.push_content hk, hseen]
            rfl
          obtain ⟨es₁, hes₁, hread⟩ := ihbody (k + 1) (step st (m.times k ++ hd.line))
            (by rw [hheader]) hbelow.1 hchained.2.1 hfilled.2.1
          have hes : ∀ {es₂ : List Event}, events st.out ++ (.item hd.shown :: (es₁ ++ es₂)) =
              events ((body.lines m (k + 1)).foldl step (step st (m.times k ++ hd.line))).out ++
                es₂ := by
            intro es₂
            rw [hes₁, hheader, events_cons, lineEvents_solid _ hd.solid_shown, List.append_assoc,
              List.append_assoc]
            rfl
          -- nothing has closed the body; whether it is misread decides
          rcases hread with ⟨hstack, hrendered, -⟩ | hread
          · obtain ⟨es₂, hes₂, hread⟩ := ihrest k _ hstack hbelow.2 hchained.2.2 hfilled.2.2
            refine ⟨.item hd.shown :: (es₁ ++ es₂), hes₂.trans hes.symm, ?_⟩
            rcases hread with ⟨hstack, hrendered', -⟩ | hread
            · refine .inl ⟨hstack, .left _ hrendered hrendered', fun _ => ?_⟩
              have hle := hrendered.length_le
              have hle' := hrendered'.length_le
              simp only [Code.blocks, Blocks.events, List.length_cons, List.length_append]
              omega
            · exact .inr (hread.behind hrendered hfilled.2.1)
          · obtain ⟨es₂, hes₂, -⟩ := rest.run_grows k
              ((body.lines m (k + 1)).foldl step (step st (m.times k ++ hd.line)))
            exact ⟨.item hd.shown :: (es₁ ++ es₂), hes₂.trans hes.symm, .inr hread.inside⟩
  | inline => exact fun _ _ _ _ hbelow => hbelow.elim

end VidhiArena.Browser.Transpile
