import Mathlib.Logic.Function.Basic
import VidhiArena.Foundation.Calendar
import VidhiArena.Foundation.DoubleCount
import VidhiArena.Foundation.Faulting

/-!
# Credits

`DeductCredit` and its Lua script (`backend/credits/ledger.go`), the credit check of
`handleSubmit`, and `handleCredits` with `creditsUsed` (`backend/main.go`). Redis is up, a
script is one step. Times are seconds since 1 January 1970; the clock of the process is that
of Redis.

`incrementCredits`, which writes what `creditsUsed` reads, is called nowhere: no step is for
it. Nothing else writes the table `credit_ledger` either.
-/

namespace VidhiArena.Backend

open VidhiArena.Foundation Calendar

/-! ## State -/

/-- A counter in Redis. -/
structure Counter where
  value : Nat
  expiresAt : Option Nat
deriving DecidableEq

/-- A row of `credit_ledger`. -/
structure CreditRow where
  userID : String
  day : Nat
  used : Nat
deriving DecidableEq

/-- A call of `DeductCredit`: `granted` unless it returned `ErrDailyLimitReached`. -/
structure Deduction where
  userID : String
  day : Nat
  granted : Bool
deriving DecidableEq

structure CreditState where
  now : Nat
  redis : String → Option Counter
  creditLedger : List CreditRow
  log : List Deduction

/-- `fmt.Sprintf("vidhi:credits:used:%s:%s", userID, date)`. -/
def usedKey (userID : String) (date : Date) : String :=
  "vidhi:credits:used:" ++ userID ++ ":" ++ String.ofList date.name

/-- `fmt.Sprintf("credits:%s:%s", userID, date)`. -/
def creditsKey (userID : String) (date : Date) : String :=
  "credits:" ++ userID ++ ":" ++ String.ofList date.name

namespace CreditState

def init (now : Nat) : CreditState := ⟨now, fun _ => none, [], []⟩

/-- The UTC day, counted from 1 January 1970. -/
def today (s : CreditState) : Nat := s.now / 86400

/-- What `GET` finds. -/
def get (s : CreditState) (key : String) : Option Counter :=
  (s.redis key).filter fun c => c.expiresAt.all fun e => s.now < e

/-! ## Deducting -/

/-- `IncrementAndCheckScript`. Numbers of Lua are doubles; `INCR` keeps the expiry. -/
def incrementAndCheck (s : CreditState) (key : String) (limit : Nat) :
    Int × (String → Option Counter) :=
  let stored := s.get key
  let count := (stored.map Counter.value).getD 0
  let used := DoubleCount.toDouble count
  if used < DoubleCount.toDouble limit then
    let expiresAt := if used = 0 then some (s.now + 90000) else stored.bind Counter.expiresAt
    (DoubleCount.toDouble (used + 1), Function.update s.redis key (some ⟨count + 1, expiresAt⟩))
  else (-1, s.redis)

/-- `DeductCredit`, with what it returns in the log. -/
def deductCredit (s : CreditState) (userID : String) (dailyLimit : Nat) : CreditState :=
  let (newUsed, redis) := s.incrementAndCheck (usedKey userID (utcDate s.today)) dailyLimit
  { s with redis, log := s.log ++ [⟨userID, s.today, 0 ≤ newUsed⟩] }

inductive Move where
  /-- time passes -/
  | wait (d : Nat)
  | submit (userID : String) (isPractice : Bool)
deriving DecidableEq

def step (creditsPerDay : Nat) (s : CreditState) : Move → CreditState
  | .wait d => { s with now := s.now + d }
  | .submit userID isPractice => if isPractice then s else s.deductCredit userID creditsPerDay

def run (creditsPerDay now : Nat) (moves : List Move) : CreditState :=
  moves.foldl (step creditsPerDay) (init now)

/-! ## Reporting -/

def creditsUsed (s : CreditState) (userID : String) : Nat :=
  match s.get (creditsKey userID (utcDate s.today)) with
  | some c => c.value
  | none =>
      match s.creditLedger.find? (fun r => r.userID = userID ∧ r.day = s.today) with
      | some r => r.used
      | none => 0

/-- The answer of `handleCredits`. -/
structure CreditReport where
  userID : String
  used : Nat
  limit : Nat
  remaining : Nat
  /-- midnight UTC -/
  resetsAt : Nat
deriving DecidableEq

def handleCredits (creditsPerDay : Nat) (s : CreditState) (query : String) : CreditReport :=
  let userID := if query = "" then "anonymous" else query
  let used := s.creditsUsed userID
  { userID, used, limit := creditsPerDay, remaining := creditsPerDay - used,
    resetsAt := (s.today + 1) * 86400 }

/-! ## What happened -/

/-- The submissions of a user on a day. -/
def attempts (s : CreditState) (userID : String) (day : Nat) : Nat :=
  s.log.countP fun e => e.userID = userID ∧ e.day = day

def granted (s : CreditState) (userID : String) (day : Nat) : Nat :=
  s.log.countP fun e => (e.userID = userID ∧ e.day = day) ∧ e.granted = true

/-- Those that got `ErrDailyLimitReached`. -/
def refused (s : CreditState) (userID : String) (day : Nat) : Nat :=
  s.log.countP fun e => (e.userID = userID ∧ e.day = day) ∧ e.granted = false

/-- The counter of a user and a day, 0 when there is none. -/
def counter (s : CreditState) (userID : String) (day : Nat) : Nat :=
  ((s.get (usedKey userID (utcDate day))).map Counter.value).getD 0

end CreditState

/-! ## Keys -/

theorem toList_key (front userID : String) (date : Date) :
    (front ++ userID ++ ":" ++ String.ofList date.name).toList =
      front.toList ++ (userID.toList ++ ':' :: date.name) := by
  have hcolon : ":".toList = [':'] := by decide
  rw [String.toList_append, String.toList_append, String.toList_append, hcolon,
    String.toList_ofList, List.append_assoc, List.append_assoc, List.singleton_append]

theorem toList_usedKey (userID : String) (date : Date) : (usedKey userID date).toList =
    "vidhi:credits:used:".toList ++ (userID.toList ++ ':' :: date.name) := toList_key _ userID date

theorem toList_creditsKey (userID : String) (date : Date) : (creditsKey userID date).toList =
    "credits:".toList ++ (userID.toList ++ ':' :: date.name) := toList_key _ userID date

/-- A user id may hold colons, a date holds none: the last colon parts them. -/
theorem usedKey_inj {u v : String} {m n : Nat} (h : usedKey u (utcDate m) = usedKey v (utcDate n)) :
    u = v ∧ m = n := by
  have hlist : _ = _ := (toList_usedKey u _).symm.trans
    ((congrArg String.toList h).trans (toList_usedKey v _))
  obtain ⟨hu, hdate⟩ := append_cons_inj (Date.colon_notMem_name _) (Date.colon_notMem_name _)
    (List.append_cancel_left hlist)
  exact ⟨String.toList_inj.mp hu, utcDate_injective (Date.name_injective hdate)⟩

theorem creditsKey_ne_usedKey (u v : String) (d e : Date) : creditsKey u d ≠ usedKey v e := by
  intro h
  have hlist : _ = _ := (toList_creditsKey u d).symm.trans
    ((congrArg String.toList h).trans (toList_usedKey v e))
  have hletter : "credits:".toList = 'c' :: "redits:".toList := by decide
  have hletter' : "vidhi:credits:used:".toList = 'v' :: "idhi:credits:used:".toList := by decide
  rw [hletter, hletter'] at hlist
  exact absurd (List.cons.inj hlist).1 (by decide)

end VidhiArena.Backend
