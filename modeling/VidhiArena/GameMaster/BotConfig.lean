import Mathlib.Data.List.DropRight
import Mathlib.Data.Rat.Defs
import Mathlib.Algebra.Order.Field.Rat
import VidhiArena.Foundation.Settings

/-!
# Three readers of a bot configuration

`BotFleet::init` of `game-master/bot_fleet.hpp`, `parse_bot_config` of
`backend/forge/local_gm.py` and `parseBotConfig` of
`vidhi_context/src/engine/simulation.worker.js`.

Texts are lists of characters and numbers are exact, so a decimal has one value in all three
languages. `std::stod`, `float` and `parseFloat` read numbers as their documentation says; which
values `std::stod` refuses as out of range, and what the decimal digits outside ASCII are worth to
`float`, are parameters.
-/

namespace VidhiArena.GameMaster.BotConfig

open VidhiArena.Foundation

abbrev Text := List Char

/-! ## Numbers -/

inductive Value where
  | number (q : ℚ)
  | infinity (negative : Bool)
  | nan
deriving DecidableEq

def Value.signed (negative : Bool) : Value → Value
  | number q => number (if negative then -q else q)
  | infinity negative' => infinity (negative != negative')
  | nan => nan

/-- An optional sign; the flag is set by a minus. -/
def scanSign : Text → Bool × Text
  | '-' :: s => (true, s)
  | '+' :: s => (false, s)
  | s => (false, s)

/-- An optional exponent, zero if there is none. -/
def scanExponent (marker : Char) (s : Text) : ℤ × Text :=
  match s with
  | c :: rest =>
      let (negative, digits) := scanSign rest
      let exponent : ℤ := Nat.ofDigitChars 10 (digits.takeWhile Char.isDigit) 0
      if c.toLower = marker ∧ digits.takeWhile Char.isDigit ≠ [] then
        (if negative then -exponent else exponent, digits.dropWhile Char.isDigit)
      else (0, s)
  | [] => (0, [])

/-- Digits with an optional fraction and exponent, and the rest: each digit is worth
`radix ^ bits` times the next, and the exponent counts powers of `radix`. -/
def scanReal (digit : Char → Option ℕ) (radix bits : ℕ) (marker : Char) (s : Text) :
    Option (ℚ × Text) :=
  let isDigit c := (digit c).isSome
  let whole := s.takeWhile isDigit
  let (fraction, rest) := match s.dropWhile isDigit with
    | '.' :: rest => (rest.takeWhile isDigit, rest.dropWhile isDigit)
    | rest => ([], rest)
  let (exponent, rest) := scanExponent marker rest
  let mantissa := (whole ++ fraction).foldl (fun n c => n * radix ^ bits + (digit c).getD 0) 0
  if whole = [] ∧ fraction = [] then none
  else some (mantissa * (radix : ℚ) ^ (exponent - bits * fraction.length), rest)

def decimalDigit (c : Char) : Option ℕ := if c.isDigit then some (c.toNat - 48) else none

def hexDigit (c : Char) : Option ℕ :=
  if c.isDigit then some (c.toNat - 48)
  else if 'a' ≤ c.toLower ∧ c.toLower ≤ 'f' then some (c.toLower.toNat - 87)
  else none

def scanDecimal : Text → Option (ℚ × Text) := scanReal decimalDigit 10 1 'e'

/-- The number after `0x`. -/
def scanHex : Text → Option (ℚ × Text)
  | '0' :: x :: s => if x.toLower = 'x' then scanReal hexDigit 2 4 'p' s else none
  | _ => none

/-- The text begins with a word, in any case. -/
def beginsWith (word s : Text) : Bool := word.isPrefixOf (s.map Char.toLower)

/-! ## Blanks and case -/

/-- The blanks of all three languages beyond ASCII, with those of C. -/
def isBlank (c : Char) : Bool :=
  let n := c.toNat
  (9 ≤ n && n ≤ 13) || n == 0x20 || n == 0xA0 || n == 0x1680 || (0x2000 ≤ n && n ≤ 0x200A) ||
    n == 0x2028 || n == 0x2029 || n == 0x202F || n == 0x205F || n == 0x3000

/-- `isspace`. -/
def isCBlank (c : Char) : Bool := (9 ≤ c.toNat && c.toNat ≤ 13) || c.toNat == 0x20

/-- `str.isspace`. -/
def isPythonBlank (c : Char) : Bool :=
  isBlank c || (0x1C ≤ c.toNat && c.toNat ≤ 0x1F) || c.toNat == 0x85

/-- `WhiteSpace` and `LineTerminator`. -/
def isJsBlank (c : Char) : Bool := isBlank c || c.toNat == 0xFEFF

def strip (blank : Char → Bool) (s : Text) : Text := (s.dropWhile blank).rdropWhile blank

/-- `upper` and `toUpperCase`, as far as they matter for names made of ASCII letters: the long
s and the dotless i have such capitals, too. -/
def upper (s : Text) : Text :=
  s.map fun c => if c = 'ſ' then 'S' else if c = 'ı' then 'I' else c.toUpper

/-! ## Reading a number -/

/-- `std::stod`; `erange` says which values are out of range. It throws where this is an
error. -/
def stod (erange : ℚ → Bool) (s : Text) : Except Unit Value :=
  let (negative, s) := scanSign (s.dropWhile isCBlank)
  if beginsWith "inf".toList s then .ok (.infinity negative)
  else if beginsWith "nan".toList s then .ok .nan
  else
    match (scanHex s).or (scanDecimal s) with
    | some (q, _) =>
        if erange q then .error () else .ok ((Value.number q).signed negative)
    | none => .error ()

/-- Underscores are only allowed between digits; `prev` is the character before. -/
def dropUnderscores (prev : Char) : Text → Option Text
  | [] => if prev = '_' then none else some []
  | c :: s =>
      if c = '_' then if prev.isDigit then dropUnderscores c s else none
      else if prev = '_' ∧ ¬ c.isDigit then none
      else (dropUnderscores c s).map (c :: ·)

/-- `float`; `unicodeDigit` is the value of the decimal digits outside ASCII. -/
def pythonFloat (unicodeDigit : Char → Option ℕ) (s : Text) : Option Value := do
  let ascii c := if c.toNat < 128 then c else ((unicodeDigit c).map Nat.digitChar).getD '?'
  let s ← dropUnderscores '\x00' ((strip isPythonBlank s).map ascii)
  let (negative, s) := scanSign s
  let word := s.map Char.toLower
  if word = "inf".toList ∨ word = "infinity".toList then return .infinity negative
  if word = "nan".toList then return .nan
  let (q, rest) ← scanDecimal s
  if rest = [] then return (Value.number q).signed negative
  none

/-- `parseFloat`. -/
def parseFloat (s : Text) : Value :=
  let (negative, s) := scanSign (s.dropWhile isJsBlank)
  if "Infinity".toList.isPrefixOf s then .infinity negative
  else
    match scanDecimal s with
    | some (q, _) => (Value.number q).signed negative
    | none => .nan

/-- `value || 0`. -/
def Value.orZero : Value → Value
  | nan => number 0
  | value => value

/-! ## The bots -/

inductive Bot where
  | mm
  | mom
  | mr
  | noise
  | sniper
deriving DecidableEq

def Bot.ofKey (key : Text) : Option Bot :=
  if key = "MM".toList then some mm
  else if key = "MOM".toList then some mom
  else if key = "MR".toList then some mr
  else if key = "NOISE".toList then some noise
  else if key = "SNIPER".toList then some sniper
  else none

/-- What all three readers start from; other keys of a `dict` or an object count for nothing. -/
def defaults : Bot → Value := fun _ => .number 1

/-- The text before the first colon. -/
def keyOf (part : Text) : Text := part.takeWhile (· != ':')

def textOf (part : Text) : Text := (part.dropWhile (· != ':')).tail

/-! ## The readers -/

namespace BotFleet

/-- A token of `init`; the number is read whatever the key is. -/
def readToken (erange : ℚ → Bool) (token : Text) : Except Unit (Option (Bot × Value)) :=
  if ':' ∈ token then
    (stod erange (textOf token)).map fun value => (Bot.ofKey (keyOf token)).map (·, value)
  else .ok none

/-- The loop of `init`, from `start` on. -/
def initFrom (erange : ℚ → Bool) (agg : Bot → Value) : Text → Except Unit (Bot → Value)
  | [] => .ok agg
  | c :: rest =>
      match readToken erange ((c :: rest).takeWhile (· != ',')) with
      | .ok setting =>
          initFrom erange (Settings.assign agg setting) ((c :: rest).dropWhile (· != ',')).tail
      | .error e => .error e
termination_by config => config.length
decreasing_by
  have hdrop := (List.dropWhile_sublist (· != ',') (l := c :: rest)).length_le
  rw [List.length_tail]
  rw [List.length_cons] at hdrop ⊢
  omega

/-- `BotFleet::init`. -/
def init (erange : ℚ → Bool) (config : Text) : Except Unit (Bot → Value) :=
  initFrom erange defaults config

end BotFleet

namespace LocalGM

/-- A part, in the loop of `parse_bot_config`. -/
def readPart (unicodeDigit : Char → Option ℕ) (part : Text) : Option (Bot × Value) :=
  let part := strip isPythonBlank part
  if ':' ∈ part then do
    let value ← pythonFloat unicodeDigit (strip isPythonBlank (textOf part))
    let bot ← Bot.ofKey (upper (strip isPythonBlank (keyOf part)))
    return (bot, value)
  else none

/-- `parse_bot_config`. -/
def parseBotConfig (unicodeDigit : Char → Option ℕ) (config : Text) : Bot → Value :=
  if config = [] then defaults
  else
    (config.splitOn ',').foldl
      (fun cfg part => Settings.assign cfg (readPart unicodeDigit part)) defaults

end LocalGM

namespace SimulationWorker

/-- A part, in the callback of `parseBotConfig`: what stands behind a second colon is dropped. -/
def readPart (part : Text) : Option (Bot × Value) :=
  match (strip isJsBlank part).splitOn ':' with
  | key :: val :: _ =>
      if key = [] then none
      else (Bot.ofKey (upper (strip isJsBlank key))).map (·, (parseFloat val).orZero)
  | _ => none

/-- `parseBotConfig`. -/
def parseBotConfig (config : Text) : Bot → Value :=
  if config = [] then defaults
  else (config.splitOn ',').foldl (fun cfg part => Settings.assign cfg (readPart part)) defaults

end SimulationWorker

/-! ## The last part of each bot -/

/-- What the last part that a reader takes for this bot says, 1 if there is none. -/
def lastValue (read : Text → Option (Bot × Value)) (config : Text) (bot : Bot) : Value :=
  (Settings.last read (config.splitOn ',') bot).getD (.number 1)

theorem foldl_parts (read : Text → Option (Bot × Value)) (config : Text) :
    (config.splitOn ',').foldl (fun cfg part => Settings.assign cfg (read part)) defaults =
      lastValue read config :=
  funext fun bot => Settings.foldl_assign read (config.splitOn ',') defaults bot

namespace BotFleet

/-- What a token sets, if its number can be read. -/
def setting (erange : ℚ → Bool) (token : Text) : Option (Bot × Value) :=
  Settings.settled (readToken erange token)

theorem splitOn_comma (config : Text) :
    config.splitOn ',' = config.takeWhile (· != ',') ::
      match config.dropWhile (· != ',') with
      | [] => []
      | _ :: rest => rest.splitOn ',' := by
  have hcomma : ',' ∉ config.takeWhile (· != ',') := fun hin => by
    simpa using List.mem_takeWhile_imp hin
  have hconfig := List.takeWhile_append_dropWhile (p := (· != ',')) (l := config)
  cases hrest : config.dropWhile (· != ',') with
  | nil =>
      rw [hrest, List.append_nil] at hconfig
      rw [hconfig] at hcomma ⊢
      exact List.splitOn_eq_singleton hcomma
  | cons c rest =>
      have hc : (c != ',') = false := by
        have hhead := List.head_dropWhile_not (· != ',') (l := config) (by rw [hrest]; nofun)
        simpa [hrest] using hhead
      obtain rfl : c = ',' := by simpa using hc
      rw [hrest] at hconfig
      conv_lhs => rw [← hconfig]
      exact List.splitOn_append_cons_self_of_not_mem hcomma rest

/-- The loop reads the parts between the commas; an empty one at the end does nothing. -/
theorem initFrom_eq (erange : ℚ → Bool) (agg : Bot → Value) (rest : Text) :
    initFrom erange agg rest = (rest.splitOn ',').foldlM
      (fun agg token => (readToken erange token).map (Settings.assign agg)) agg := by
  induction agg, rest using initFrom.induct erange with
  | case1 agg =>
      rw [initFrom]
      rfl
  | case2 agg c rest setting hread ih =>
      rw [initFrom, hread, splitOn_comma, List.foldlM_cons, hread]
      change initFrom erange _ _ = List.foldlM _ (Settings.assign agg setting) _
      rw [ih]
      cases (c :: rest).dropWhile (· != ',') with
      | nil => rfl
      | cons => rfl
  | case3 agg c rest e hread =>
      rw [initFrom, hread, splitOn_comma, List.foldlM_cons, hread]
      rfl

/-- `init` does not throw if and only if the text of every token with a colon begins with a
number in range. -/
theorem init_eq_ok_iff {erange : ℚ → Bool} {config : Text} {agg : Bot → Value} :
    init erange config = .ok agg ↔
      (∀ token ∈ config.splitOn ',', ':' ∈ token → (stod erange (textOf token)).isOk = true) ∧
        lastValue (setting erange) config = agg := by
  have hread : ∀ token, (readToken erange token).isOk = true ↔
      (':' ∈ token → (stod erange (textOf token)).isOk = true) := by
    intro token
    rw [readToken]
    split
    · next hcolon =>
        rw [forall_prop_of_true hcolon]
        cases stod erange (textOf token) <;> rfl
    · next hcolon => exact iff_of_true rfl fun h => absurd h hcolon
  rw [init, initFrom_eq, Settings.foldlM_eq_ok_iff, ← foldl_parts]
  exact and_congr_left' (forall₂_congr fun token _ => hread token)

end BotFleet

theorem LocalGM.parseBotConfig_eq (unicodeDigit : Char → Option ℕ) (config : Text) :
    parseBotConfig unicodeDigit config = lastValue (readPart unicodeDigit) config := by
  rw [← foldl_parts, parseBotConfig]
  split
  · next hempty => rw [hempty]; rfl
  · rfl

theorem SimulationWorker.parseBotConfig_eq (config : Text) :
    parseBotConfig config = lastValue readPart config := by
  rw [← foldl_parts, parseBotConfig]
  split
  · next hempty => rw [hempty]; rfl
  · rfl

/-! ## Agreement -/

/-- The three readers agree, and `init` does not throw, if and only if the text after the
first colon of every part begins with a number that `std::stod` takes, and for each bot the last
part that has exactly its name as the key, the last one whose key and number Python takes and the
last one whose key JavaScript takes give the same number. -/
theorem parsers_agree_iff (erange : ℚ → Bool) (unicodeDigit : Char → Option ℕ) (config : Text) :
    (∃ agg, BotFleet.init erange config = .ok agg ∧
      LocalGM.parseBotConfig unicodeDigit config = agg ∧
      SimulationWorker.parseBotConfig config = agg) ↔
    (∀ part ∈ config.splitOn ',', ':' ∈ part → (stod erange (textOf part)).isOk = true) ∧
    ∀ bot, lastValue (LocalGM.readPart unicodeDigit) config bot =
        lastValue (BotFleet.setting erange) config bot ∧
      lastValue SimulationWorker.readPart config bot =
        lastValue (BotFleet.setting erange) config bot := by
  rw [LocalGM.parseBotConfig_eq, SimulationWorker.parseBotConfig_eq]
  constructor
  · rintro ⟨agg, hinit, hpython, hjs⟩
    obtain ⟨hread, rfl⟩ := BotFleet.init_eq_ok_iff.mp hinit
    exact ⟨hread, fun bot => ⟨congrFun hpython bot, congrFun hjs bot⟩⟩
  · rintro ⟨hread, hsame⟩
    exact ⟨_, BotFleet.init_eq_ok_iff.mpr ⟨hread, rfl⟩, funext fun bot => (hsame bot).1,
      funext fun bot => (hsame bot).2⟩

/-- With a blank after the comma the Game Master does not know the bot. -/
theorem blank_after_comma_disagrees :
    ¬ ∀ (erange : ℚ → Bool) (unicodeDigit : Char → Option ℕ) (config : Text),
      ∃ agg, BotFleet.init erange config = .ok agg ∧
        LocalGM.parseBotConfig unicodeDigit config = agg ∧
        SimulationWorker.parseBotConfig config = agg := by
  intro h
  obtain ⟨agg, hinit, hpython, -⟩ :=
    h (fun _ => false) (fun _ => none) "MM:1.0, SNIPER:0.0".toList
  obtain ⟨-, rfl⟩ := BotFleet.init_eq_ok_iff.mp hinit
  exact absurd (congrFun hpython .sniper) (by decide +kernel)

end VidhiArena.GameMaster.BotConfig
