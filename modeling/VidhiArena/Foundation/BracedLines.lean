import Mathlib.Algebra.Order.Group.Nat

/-!
# Lines with braces

How a text with braces is read line by line: what a line closes, what it says, and whether
it opens a block. Quotes and comments are those of C and JavaScript; a line has to close
its own, and at most its last brace stays open, at its end.

A tree of blocks is rendered as a sequence of events. A rendering that may leave blocks open
reads as the tree if and only if it closes them all and every line is legible by itself.
-/

namespace VidhiArena.Foundation.BracedLines

abbrev Text := List Char

/-- The characters that are trimmed. -/
def isSpace (c : Char) : Bool :=
  c ∈ [' ', '\t', '\n', '\r', '\x0b', '\x0c', '\u00a0', '\ufeff', '\u1680', '\u2028', '\u2029',
    '\u202f', '\u205f', '\u3000'] ∨ '\u2000' ≤ c ∧ c ≤ '\u200a'

theorem forall_of_all {p : Char → Prop} [DecidablePred p] {t : Text}
    (h : t.all (fun c => decide (p c)) = true) : ∀ c ∈ t, p c :=
  fun c hc => of_decide_eq_true (List.all_eq_true.mp h c hc)

/-! ## One line -/

inductive Mode where
  | code
  /-- behind a slash that may begin a comment -/
  | slash
  | quoted (quote : Char)
  | escaped (quote : Char)
  | lineComment
  | blockComment
  /-- behind an asterisk that may end the comment -/
  | star
  deriving DecidableEq

structure Scan where
  mode : Mode
  /-- the braces that are open -/
  depth : Nat
  /-- the last piece of code was an opening brace -/
  opened : Bool
  deriving DecidableEq

namespace Scan

def code (s : Scan) (c : Char) : Option Scan :=
  if c = '\x7b' then some ⟨.code, s.depth + 1, true⟩
  else if c = '\x7d' then if s.depth = 0 then none else some ⟨.code, s.depth - 1, false⟩
  else if c = '/' then some ⟨.slash, s.depth, s.opened⟩
  else if c = '\x22' ∨ c = '\x27' ∨ c = '\x60' then some ⟨.quoted c, s.depth, false⟩
  else some ⟨.code, s.depth, s.opened && isSpace c⟩

def read (s : Scan) (c : Char) : Option Scan :=
  match s.mode with
  | .code => s.code c
  | .slash =>
      if c = '/' then some { s with mode := .lineComment }
      else if c = '*' then some { s with mode := .blockComment }
      else { s with opened := false }.code c
  | .quoted quote =>
      if c = '\x5c' then some { s with mode := .escaped quote }
      else if c = quote then some { s with mode := .code }
      else some s
  | .escaped quote => some { s with mode := .quoted quote }
  | .lineComment => some s
  | .blockComment => if c = '*' then some { s with mode := .star } else some s
  | .star =>
      if c = '/' then some { s with mode := .code }
      else if c = '*' then some s
      else some { s with mode := .blockComment }

/-- At the end of the line: whether it opens a block. -/
def effect (s : Scan) : Option Bool :=
  if s.mode = .code ∨ s.mode = .slash ∨ s.mode = .lineComment then
    if s.depth = 0 then some false
    else if s.depth = 1 ∧ s.opened = true ∧ s.mode ≠ .slash then some true
    else none
  else none

end Scan

/-- Whether a line opens a block; `none` where it cannot be read by itself. -/
def effect (t : Text) : Option Bool := (t.foldlM Scan.read ⟨.code, 0, false⟩).bind Scan.effect

/-! ## A text -/

inductive Event where
  | item (t : Text)
  | close
  deriving DecidableEq

def Event.isItem : Event → Bool
  | .item _ => true
  | .close => false

def item (t : Text) : List Event :=
  match t.dropWhile isSpace with
  | [] => []
  | c :: t => [.item (c :: t)]

/-- A brace at its beginning closes a block; the rest of the line is an item. -/
def lineEvents (line : Text) : List Event :=
  match line.dropWhile isSpace with
  | [] => []
  | c :: t => if c = '\x7d' then .close :: item t else [.item (c :: t)]

/-- The items, each with the lines that have opened the blocks around it, the inner ones
first; `none` where the braces do not match. -/
def replay : List Event → List Text → Option (List (Text × List Text))
  | [], [] => some []
  | [], _ :: _ => none
  | .close :: _, [] => none
  | .close :: es, _ :: blocks => replay es blocks
  | .item t :: es, blocks =>
      match effect t with
      | none => none
      | some opens =>
          (replay es (if opens then t :: blocks else blocks)).map ((t, blocks) :: ·)

def outline (lines : List Text) : Option (List (Text × List Text)) :=
  replay (lines.flatMap lineEvents) []

/-! ## Trees of blocks -/

inductive Blocks where
  | done
  | item (t : Text) (rest : Blocks)
  | block (head : Text) (body rest : Blocks)
  deriving DecidableEq

namespace Blocks

def events : Blocks → List Event
  | done => []
  | item t rest => .item t :: rest.events
  | block head body rest => .item head :: (body.events ++ .close :: rest.events)

def outline (blocks : List Text) : Blocks → List (Text × List Text)
  | done => []
  | item t rest => (t, blocks) :: rest.outline blocks
  | block head body rest =>
      (head, blocks) :: (body.outline (head :: blocks) ++ rest.outline blocks)

def Filled : Blocks → Prop
  | done => True
  | item _ rest => rest.Filled
  | block _ body rest => body ≠ done ∧ body.Filled ∧ rest.Filled

/-- The heads open their blocks, and the other lines leave nothing open. -/
def Legible : Blocks → Prop
  | done => True
  | item t rest => effect t = some false ∧ rest.Legible
  | block head body rest => effect head = some true ∧ body.Legible ∧ rest.Legible

/-- A rendering of a tree that may leave blocks open. -/
inductive Rendered : Blocks → List Event → Prop where
  | done : Rendered .done []
  | item (t : Text) {rest : Blocks} {es : List Event} (hrest : Rendered rest es) :
      Rendered (.item t rest) (.item t :: es)
  | closed (head : Text) {body rest : Blocks} {es es' : List Event} (hbody : Rendered body es)
      (hrest : Rendered rest es') :
      Rendered (.block head body rest) (.item head :: (es ++ .close :: es'))
  | left (head : Text) {body rest : Blocks} {es es' : List Event} (hbody : Rendered body es)
      (hrest : Rendered rest es') : Rendered (.block head body rest) (.item head :: (es ++ es'))

end Blocks

variable {b : Blocks} {t : Text} {es : List Event} {blocks path : List Text}
  {L : List (Text × List Text)}

theorem replay_item {opens : Bool} (h : effect t = some opens) :
    replay (.item t :: es) blocks =
      (replay es (if opens then t :: blocks else blocks)).map ((t, blocks) :: ·) := by
  rw [replay, h]

theorem replay_item_cases {t' : Text} (h : replay (.item t :: es) blocks = some ((t', path) :: L)) :
    ∃ opens, effect t = some opens ∧ t = t' ∧ blocks = path ∧
      replay es (if opens then t :: blocks else blocks) = some L := by
  cases heffect : effect t with
  | none =>
      rw [replay, heffect] at h
      cases h
  | some opens =>
      rw [replay_item heffect] at h
      obtain ⟨L', hL', heq⟩ := Option.map_eq_some_iff.mp h
      obtain ⟨hhead, rfl⟩ := List.cons.inj heq
      exact ⟨opens, rfl, (Prod.mk.inj hhead).1, (Prod.mk.inj hhead).2, hL'⟩

theorem length_of_replay (h : replay es blocks = some L) : L.length = es.countP Event.isItem := by
  induction es generalizing blocks L with
  | nil =>
      cases blocks with
      | nil => exact congrArg List.length (Option.some.inj h).symm
      | cons head blocks => cases h
  | cons e es ih =>
      cases e with
      | close =>
          cases blocks with
          | nil => cases h
          | cons head blocks => exact ih h
      | item t =>
          rw [replay] at h
          split at h
          · cases h
          · obtain ⟨L', hL', rfl⟩ := Option.map_eq_some_iff.mp h
            rw [List.length_cons, ih hL', List.countP_cons_of_pos rfl]

theorem replay_close_cases (h : replay (.close :: es) blocks = some L) :
    ∃ head blocks', blocks = head :: blocks' ∧ replay es blocks' = some L := by
  cases blocks with
  | nil => cases h
  | cons head blocks' => exact ⟨head, blocks', rfl, h⟩

namespace Blocks

theorem replay_events (h : b.Legible) (es : List Event) (blocks : List Text) :
    replay (b.events ++ es) blocks = (replay es blocks).map (b.outline blocks ++ ·) := by
  induction b generalizing es blocks with
  | done => exact Option.map_id'.symm
  | item t rest ih =>
      rw [events, List.cons_append, replay_item h.1, if_neg Bool.false_ne_true, ih h.2,
        Option.map_map]
      rfl
  | block head body rest ihbody ihrest =>
      rw [events, List.cons_append, replay_item h.1, if_pos rfl, List.append_assoc,
        ihbody h.2.1, List.cons_append, replay, ihrest h.2.2, Option.map_map, Option.map_map]
      simp only [outline, Function.comp_def, List.cons_append, List.append_assoc]

namespace Rendered

variable {ds : List Event}

theorem blocks_of_replay (h : Rendered b ds) (hb : b ≠ .done)
    (hreplay : replay (ds ++ es) blocks = some (b.outline path ++ L)) : blocks = path := by
  cases h with
  | done => exact absurd rfl hb
  | item | closed | left =>
      obtain ⟨-, -, -, hpath, -⟩ := replay_item_cases hreplay
      exact hpath

theorem length_le (h : Rendered b ds) : ds.length ≤ b.events.length := by
  induction h with
  | done => exact le_rfl
  | item t hrest ih => exact Nat.succ_le_succ ih
  | closed head hbody hrest ihbody ihrest =>
      simp only [events, List.length_cons, List.length_append]
      omega
  | left head hbody hrest ihbody ihrest =>
      simp only [events, List.length_cons, List.length_append]
      omega

/-- What reads as the tree has not closed more than it has opened; and where it has closed
everything, every line is legible and every block closed at its end. -/
theorem legible_of_replay (h : Rendered b ds) (hb : b.Filled)
    (hreplay : replay (ds ++ es) blocks = some (b.outline path ++ L)) :
    ∃ blocks', replay es blocks' = some L ∧ blocks.length ≤ blocks'.length ∧
      (blocks'.length = blocks.length → b.Legible ∧ ds = b.events) := by
  induction h generalizing es blocks path L with
  | done => exact ⟨blocks, hreplay, le_rfl, fun _ => ⟨trivial, rfl⟩⟩
  | item t hrest ih =>
      obtain ⟨opens, heffect, -, -, hreplay⟩ := replay_item_cases hreplay
      obtain ⟨blocks', hes, hle, hlegible⟩ := ih hb hreplay
      cases opens with
      | false =>
          exact ⟨blocks', hes, hle, fun heq =>
            ⟨⟨heffect, (hlegible heq).1⟩, congrArg (.item t :: ·) (hlegible heq).2⟩⟩
      | true =>
          have hmore : blocks.length < blocks'.length := hle
          exact ⟨blocks', hes, hmore.le, fun heq => absurd heq hmore.ne'⟩
  | @closed head body rest ds ds' hbody hrest ihbody ihrest =>
      obtain ⟨hne, hfilled, hfilled'⟩ := hb
      rw [List.cons_append, outline, List.cons_append] at hreplay
      obtain ⟨opens, heffect, -, rfl, hreplay⟩ := replay_item_cases hreplay
      rw [List.append_assoc, List.append_assoc, List.cons_append] at hreplay
      have hinside := hbody.blocks_of_replay hne hreplay
      obtain ⟨blocks₁, hclose, hle₁, hlegible₁⟩ := ihbody hfilled hreplay
      obtain ⟨top, blocks₂, rfl, hreplay⟩ := replay_close_cases hclose
      obtain ⟨blocks₃, hes, hle₂, hlegible₂⟩ := ihrest hfilled' hreplay
      cases opens with
      | false => exact absurd (congrArg List.length hinside) (Nat.ne_of_lt (Nat.lt_succ_self _))
      | true =>
          have hle : blocks.length ≤ blocks₂.length := Nat.le_of_succ_le_succ hle₁
          refine ⟨blocks₃, hes, hle.trans hle₂, fun heq => ?_⟩
          obtain ⟨hbody, hds⟩ :=
            hlegible₁ (congrArg Nat.succ (Nat.le_antisymm (hle₂.trans heq.le) hle))
          obtain ⟨hrest, hds'⟩ := hlegible₂ (heq.trans (Nat.le_antisymm hle (hle₂.trans heq.le)))
          exact ⟨⟨heffect, hbody, hrest⟩, by rw [events, hds, hds']⟩
  | @left head body rest ds ds' hbody hrest ihbody ihrest =>
      obtain ⟨hne, hfilled, hfilled'⟩ := hb
      rw [List.cons_append, outline, List.cons_append] at hreplay
      obtain ⟨opens, -, -, rfl, hreplay⟩ := replay_item_cases hreplay
      rw [List.append_assoc, List.append_assoc] at hreplay
      have hinside := hbody.blocks_of_replay hne hreplay
      obtain ⟨blocks₁, hreplay, hle₁, -⟩ := ihbody hfilled hreplay
      obtain ⟨blocks₂, hes, hle₂, -⟩ := ihrest hfilled' hreplay
      cases opens with
      | false => exact absurd (congrArg List.length hinside) (Nat.ne_of_lt (Nat.lt_succ_self _))
      | true =>
          have hmore : blocks.length < blocks₂.length := hle₁.trans hle₂
          exact ⟨blocks₂, hes, hmore.le, fun heq => absurd heq hmore.ne'⟩

/-- Reading a rendering: it gives the tree back if and only if it closes every block and every
line is legible. -/
theorem replay_iff (h : Rendered b ds) (hb : b.Filled) :
    replay ds [] = some (b.outline []) ↔ b.Legible ∧ ds = b.events := by
  constructor
  · intro hreplay
    have hnil : replay (ds ++ []) [] = some (b.outline [] ++ []) := by
      rwa [List.append_nil, List.append_nil]
    obtain ⟨blocks', hes, -, hlegible⟩ := h.legible_of_replay hb hnil
    cases blocks' with
    | nil => exact hlegible rfl
    | cons head rest => cases hes
  · rintro ⟨hlegible, rfl⟩
    have := replay_events hlegible [] []
    rwa [List.append_nil, replay, Option.map_some, List.append_nil] at this

theorem replay_cons_iff (h : Rendered b ds) (hb : b.Filled) :
    replay (.item t :: ds) [] = some ((t, []) :: b.outline []) ↔
      effect t = some false ∧ b.Legible ∧ ds = b.events := by
  rw [← h.replay_iff hb]
  constructor
  · intro hreplay
    obtain ⟨opens, heffect, -, -, hreplay⟩ := replay_item_cases hreplay
    cases opens with
    | false => exact ⟨heffect, hreplay⟩
    | true =>
        -- then the tree would stand in a block
        cases h with
        | done => cases hreplay
        | item | closed | left =>
            obtain ⟨-, -, -, hpath, -⟩ := replay_item_cases hreplay
            cases hpath
  · rintro ⟨heffect, hreplay⟩
    rw [replay_item heffect, if_neg Bool.false_ne_true, hreplay]
    rfl

end Rendered

end Blocks

/-! ## Plain text -/

/-- It is neither a brace nor a quote nor part of a comment. -/
def isPlain (c : Char) : Bool := c ∉ ['\x7b', '\x7d', '/', '\x22', '\x27', '\x60']

/-- It opens and closes nothing, or everything that it opens. -/
def Calm (t : Text) : Prop := ∀ opened, ∃ opened',
  t.foldlM Scan.read ⟨.code, 0, opened⟩ = some ⟨.code, 0, opened'⟩

theorem Calm.append {t' : Text} (h : Calm t) (h' : Calm t') : Calm (t ++ t') := by
  intro opened
  obtain ⟨opened', hopened⟩ := h opened
  obtain ⟨opened'', hopened'⟩ := h' opened'
  exact ⟨opened'', by rw [List.foldlM_append, hopened]; exact hopened'⟩

theorem calm_of_plain (h : t.all isPlain = true) : Calm t := by
  induction t with
  | nil => exact fun opened => ⟨opened, rfl⟩
  | cons c t ih =>
      intro opened
      rw [List.all_cons, Bool.and_eq_true] at h
      obtain ⟨opened', hopened⟩ := ih h.2 (opened && isSpace c)
      have hc := of_decide_eq_true h.1
      simp only [List.mem_cons, List.not_mem_nil, or_false, not_or] at hc
      obtain ⟨hopen, hclose, hslash, hdouble, hsingle, hback⟩ := hc
      have hread : Scan.read ⟨.code, 0, opened⟩ c = some ⟨.code, 0, opened && isSpace c⟩ := by
        rw [Scan.read, Scan.code, if_neg hopen, if_neg hclose, if_neg hslash, if_neg]
        rintro (h | h | h)
        · exact hdouble h
        · exact hsingle h
        · exact hback h
      exact ⟨opened', by rw [List.foldlM_cons, hread]; exact hopened⟩

theorem Calm.effect (h : Calm t) : effect t = some false := by
  obtain ⟨opened, hopened⟩ := h false
  rw [BracedLines.effect, hopened]
  rfl

theorem Calm.effect_opens (h : Calm t) : BracedLines.effect (t ++ ") \x7b".toList) = some true := by
  obtain ⟨opened, hopened⟩ := h false
  rw [BracedLines.effect, List.foldlM_append, hopened]
  rfl

end VidhiArena.Foundation.BracedLines
