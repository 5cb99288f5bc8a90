import Mathlib.Algebra.Ring.Nat
import Mathlib.Data.List.DropRight
import VidhiArena.Foundation.BracedLines

/-!
# The transpiler of the browser

`ContestantRunner._transpile` turns a strategy into JavaScript with regular expressions,
line by line. Its blocks come from a stack of columns: a header pushes its own column plus
four, and a line that stands to the left of the top closes a block.
-/

namespace VidhiArena.Browser.Transpile

open Foundation.BracedLines

/-! ## Regular expressions -/

/-- `\w` -/
def isWord (c : Char) : Bool := c.isAlphanum || c = '_'

/-- `.` -/
def isDot (c : Char) : Bool := c ∉ ['\n', '\r', '\u2028', '\u2029']

def literal (word t : Text) : Option Text :=
  if word.isPrefixOf t then some (t.drop word.length) else none

/-- The text behind one or more of these characters. -/
def some1 (p : Char → Bool) (t : Text) : Option Text :=
  if (t.head?.any p) then some (t.dropWhile p) else none

def trim (t : Text) : Text := (t.dropWhile isSpace).rdropWhile isSpace

/-- `/^word\b/` -/
def startsWithWord (word line : Text) : Bool :=
  match literal word line with
  | some rest => !rest.head?.any isWord
  | none => false

/-- `replace(/.../gm, '')`: `matches?` gives the text behind a match at the beginning of a text,
which may be the beginning of a line; `skip` characters are still part of the last match. -/
def deleteAll (matches? : Bool → Text → Option Text) (skip : Nat) (atStart : Bool) : Text → Text
  | [] => []
  | c :: t =>
      match skip with
      | skip + 1 => deleteAll matches? skip (!isDot c) t
      | 0 =>
          match matches? atStart (c :: t) with
          | some rest => deleteAll matches? (t.length - rest.length) (!isDot c) t
          | none => c :: deleteAll matches? 0 (!isDot c) t

/-- The text behind the first `quote`. -/
def behind (quote : Text) : Text → Option Text
  | [] => none
  | c :: t => if quote.isPrefixOf (c :: t) then literal quote (c :: t) else behind quote t

/-- `/"""[\s\S]*?"""/`, for any quote. -/
def quoted (quote : Text) (_ : Bool) (t : Text) : Option Text :=
  (literal quote t).bind (behind quote)

/-- `/@\w+[^\n]*/` -/
def decorator (_ : Bool) (t : Text) : Option Text :=
  ((literal ['@'] t).bind (some1 isWord)).map fun t => t.dropWhile (· ≠ '\n')

/-- `/^from\s+\S+\s+import.*$/m` -/
def fromImport (atStart : Bool) (t : Text) : Option Text := do
  let t ← if atStart then literal "from".toList t else none
  let t ← some1 isSpace t
  let t ← some1 (fun c => !isSpace c) t
  let t ← some1 isSpace t
  let t ← literal "import".toList t
  pure (t.dropWhile isDot)

/-- `/^import\s+.*$/m` -/
def plainImport (atStart : Bool) (t : Text) : Option Text := do
  let t ← if atStart then literal "import".toList t else none
  let t ← some1 isSpace t
  pure (t.dropWhile isDot)

/-- `/^def\s+on_tick\s*\([^)]*\)\s*:/` -/
def onTick (t : Text) : Option Text := do
  let t ← literal "def".toList t
  let t ← some1 isSpace t
  let t ← literal "on_tick".toList t
  let t ← literal ['('] (t.dropWhile isSpace)
  let t ← literal [')'] (t.dropWhile (· ≠ ')'))
  literal [':'] (t.dropWhile isSpace)

/-- `replace(/^def.../m, '/* on_tick */')` -/
def markOnTick : Bool → Text → Text
  | _, [] => []
  | atStart, c :: t =>
      match if atStart then onTick (c :: t) else none with
      | some rest => "/* on_tick */".toList ++ rest
      | none => c :: markOnTick (!isDot c) t

/-- `replace(/#[^'"\n]*$/, '')` -/
def stripComment : Text → Text
  | [] => []
  | c :: t =>
      if c = '#' ∧ t.all (fun c => c ∉ ['\x27', '\x22', '\n']) then [] else c :: stripComment t

/-- `replace(/\bword\b/g, replacement)`; `run` holds the word characters just read. -/
def replaceWordFrom (word replacement run : Text) : Text → Text
  | [] => if run = word then replacement else run
  | c :: t =>
      if isWord c then replaceWordFrom word replacement (run ++ [c]) t
      else (if run = word then replacement else run) ++
        c :: replaceWordFrom word replacement [] t

def replaceWord (word replacement : String) (t : Text) : Text :=
  replaceWordFrom word.toList replacement.toList [] t

/-- `replace(/\bname\s*\(/g, replacement)`; `gap` holds the blanks behind the name. -/
def replaceCallFrom (name replacement run gap : Text) : Text → Text
  | [] => run ++ gap
  | c :: t =>
      if isWord c then
        if gap = [] then replaceCallFrom name replacement (run ++ [c]) [] t
        else run ++ gap ++ replaceCallFrom name replacement [c] [] t
      else if run = name ∧ c = '(' then replacement ++ replaceCallFrom name replacement [] [] t
      else if run = name ∧ isSpace c then replaceCallFrom name replacement run (gap ++ [c]) t
      else run ++ gap ++ c :: replaceCallFrom name replacement [] [] t

def replaceCall (name replacement : String) (t : Text) : Text :=
  replaceCallFrom name.toList replacement.toList [] [] t

/-! ## Lines -/

/-- Step 0, up to the header of `on_tick`: strings of three quotes, decorators and imports. -/
def withoutImports (raw : Text) : Text :=
  let src := deleteAll (quoted "\"\"\"".toList) 0 true raw
  let src := deleteAll (quoted "\x27\x27\x27".toList) 0 true src
  let src := deleteAll decorator 0 true src
  let src := deleteAll fromImport 0 true src
  deleteAll plainImport 0 true src

def stripped (raw : Text) : Text := markOnTick true (withoutImports raw)

def getIndent (line : Text) : Nat :=
  ((line.takeWhile isSpace).map fun c => if c = '\t' then 4 else 1).sum

/-- Python's words in JavaScript. (The last replacement of the source puts back what it finds.) -/
def keywords (line : Text) : Text :=
  replaceWord "not" "!" (replaceWord "or" "||" (replaceWord "and" "&&"
    (replaceWord "None" "null" (replaceWord "False" "false" (replaceWord "True" "true" line)))))

def blockWords : List Text :=
  ["if", "elif", "else", "for", "while", "def", "try", "except", "finally", "with"].map
    String.toList

def isBlockOpen (line : Text) : Bool :=
  blockWords.any (startsWithWord · line) && line.getLast? == some ':' && line.all isDot

/-- `/^word\s*:/` -/
def isColonWord (word line : Text) : Bool :=
  match literal word line with
  | some rest => (rest.dropWhile isSpace).head? == some ':'
  | none => false

/-- `replace(/^word\s+/, '')` -/
def dropWord (word line : Text) : Text := ((literal word line).bind (some1 isSpace)).getD line

/-- `replace(/:$/, '')` -/
def dropColon (line : Text) : Text := if line.getLast? = some ':' then line.dropLast else line

def elifText (line : Text) : Text :=
  "else if (".toList ++ trim (dropColon (dropWord "elif".toList line)) ++ ") \x7b".toList

def exceptText (line : Text) : Text :=
  let spec := trim (dropColon (((literal "except".toList line).map (·.dropWhile isSpace)).getD line))
  "catch(".toList ++ (if spec = [] then "_e".toList else spec) ++ ") \x7b".toList

/-- `for name in` and one or more blanks, up to these. -/
def forName (line : Text) : Option (Text × Text) := do
  let t ← (literal "for".toList line).bind (some1 isSpace)
  let t' ← (some1 isWord t).bind (some1 isSpace)
  let rest ← literal "in".toList t'
  if rest.head?.any isSpace then pure (t.takeWhile isWord, rest) else none

/-- `/^for\s+(\w+)\s+in\s+range\((\d+)\)\s*$/` -/
def forRange (line : Text) : Option (Text × Text) := do
  let (name, t) ← forName line
  let t ← literal "range(".toList (t.dropWhile isSpace)
  let rest ← (some1 Char.isDigit t).bind (literal [')'])
  if rest.all isSpace then pure (name, t.takeWhile Char.isDigit) else none

/-- `/^for\s+(\w+)\s+in\s+(.+)\s*$/`; where nothing stands behind `in`, a blank is given back. -/
def forEach (line : Text) : Option (Text × Text) := do
  let (name, t) ← forName line
  let rest := t.dropWhile isSpace
  if rest = [] then
    let c ← ((t.takeWhile isSpace).tail.filter isDot).getLast?
    pure (name, [c])
  else if (rest.dropWhile isDot).all isSpace then pure (name, rest.takeWhile isDot)
  else none

def forText (line : Text) : Text :=
  match forRange line with
  | some (x, n) => "for (let ".toList ++ x ++ " = 0; ".toList ++ x ++ " < ".toList ++ n ++
      "; ".toList ++ x ++ "++) \x7b".toList
  | none =>
      match forEach line with
      | some (x, items) =>
          "for (const ".toList ++ x ++ " of ".toList ++ items ++ ") \x7b".toList
      | none => "\x7b /* for */ ".toList

/-- What a block opener becomes, without its colon. -/
def openerText (line : Text) : Text :=
  if startsWithWord "if".toList line then
    "if (".toList ++ trim (dropWord "if".toList line) ++ ") \x7b".toList
  else if startsWithWord "for".toList line then forText line
  else if startsWithWord "while".toList line then
    "while (".toList ++ trim (dropWord "while".toList line) ++ ") \x7b".toList
  else if startsWithWord "def".toList line then "/* def skipped */".toList
  else if startsWithWord "try".toList line then "try \x7b".toList
  else if startsWithWord "with".toList line then "\x7b /* with */".toList
  else line ++ " \x7b".toList

/-- `/^print\s*\(/` -/
def printCall (line : Text) : Option Text :=
  (literal "print".toList line).bind fun t => literal ['('] (t.dropWhile isSpace)

def printText (line : Text) : Text :=
  match printCall line with
  | some rest =>
      let line := "/* print(".toList ++ rest
      if line.getLast? = some ')' then line.dropLast ++ ") */".toList else line
  | none => line

def calls (line : Text) : Text :=
  replaceCall "len" "/* len( */0 /* ) */" (replaceCall "float" "parseFloat("
    (replaceCall "int" "Math.trunc(" (replaceCall "round" "Math.round("
      (replaceCall "abs" "Math.abs(" line))))

def statementText (line : Text) : Text :=
  let line := calls (printText line)
  if line.getLast? ≠ some ';' ∧ line.getLast? ≠ some '\x7b' ∧ line.getLast? ≠ some '\x7d' ∧
      literal "//".toList line = none ∧ literal "/*".toList line = none then
    line ++ [';']
  else line

/-- What becomes of a line. -/
inductive Emitted where
  /-- `else {` and the like, which goes on behind a closing brace -/
  | continues (text : Text)
  | opens (text : Text)
  | statement (text : Text)
  deriving DecidableEq

def Emitted.text : Emitted → Text
  | continues t => t
  | opens t => t
  | statement t => t

def emitted (line : Text) : Emitted :=
  if startsWithWord "elif".toList line then .continues (elifText line)
  else if isColonWord "else".toList line then .continues "else \x7b".toList
  else if startsWithWord "except".toList line then .continues (exceptText line)
  else if isColonWord "finally".toList line then .continues "finally \x7b".toList
  else if isBlockOpen line then .opens (openerText line.dropLast)
  else .statement (statementText line)

/-! ## Blocks -/

/-- The output and the stack of columns, the newest first. -/
structure State where
  out : List Text
  indentStack : List Nat
  deriving DecidableEq

def closer (column : Nat) : Text := List.replicate column ' ' ++ ['\x7d']

/-- Close blocks when the indent decreases. (The last column is 0.) -/
def closeBlocks (indent : Nat) : List Text → List Nat → State
  | out, top :: next :: rest =>
      if indent < top then closeBlocks indent (closer next :: out) (next :: rest)
      else ⟨out, top :: next :: rest⟩
  | out, stack => ⟨out, stack⟩

/-- Close any remaining open blocks. -/
def closeAll : List Text → List Nat → List Text
  | out, _ :: next :: rest => closeAll (closer next :: out) (next :: rest)
  | out, _ => out

/-- A line that goes on behind the brace before it, if there is one. -/
def pushContinued (pfx text : Text) : List Text → List Text
  | [] => [pfx ++ "\x7d ".toList ++ text]
  | last :: out =>
      if trim last = ['\x7d'] then (last ++ ' ' :: text) :: out
      else (pfx ++ "\x7d ".toList ++ text) :: last :: out

def isGap (raw : Text) : Bool := trim raw = [] || (trim raw).head? == some '#'

/-- The line as it is looked at: without blanks around it and without a comment. -/
def cleaned (raw : Text) : Text := (stripComment (trim raw)).rdropWhile isSpace

def push (indent : Nat) (st : State) : Emitted → State
  | .continues text =>
      ⟨pushContinued (List.replicate indent ' ') text st.out, (indent + 4) :: st.indentStack⟩
  | .opens text =>
      ⟨(List.replicate indent ' ' ++ text) :: st.out, (indent + 4) :: st.indentStack⟩
  | .statement text => ⟨(List.replicate indent ' ' ++ text) :: st.out, st.indentStack⟩

def step (st : State) (raw : Text) : State :=
  if isGap raw then { st with out := [] :: st.out }
  else
    let st := closeBlocks (getIndent raw) st.out st.indentStack
    let line := cleaned raw
    if line = [] then { st with out := [] :: st.out }
    else push (getIndent raw) st (emitted (keywords line))

def out (lines : List Text) : List Text :=
  let st := lines.foldl step ⟨[], [0]⟩
  (closeAll st.out st.indentStack).reverse

def _transpile (raw : Text) : Text := ['\n'].intercalate (out ((stripped raw).splitOn '\n'))

end VidhiArena.Browser.Transpile
