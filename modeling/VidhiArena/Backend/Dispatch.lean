import Mathlib.Data.List.Infix
import VidhiArena.Backend.DatasetPath
import VidhiArena.Worker.JobQueue

/-!
# How a run reaches the Game Master

Step 5 of `runForgePipeline` in `backend/main.go` enqueues the run for the workers, or else
dispatches it itself. `dispatchToGameMaster` and `processJob` of `backend/worker/job_worker.go`
then each derive what the Game Master is started with from the row of the round.

`db` gives the row of a round, and is `none` without a database; the columns `tick_count` and
`bot_config` are never null. The file system is that of the one process that both run in.
-/

namespace VidhiArena.Backend

open VidhiArena.Foundation

/-- The columns of `rounds` that are read. -/
structure Round where
  tickCount : Int64
  botConfig : String
  datasetPath : Option String
  finalDatasetPath : Option String
deriving DecidableEq

/-- What the Game Master is told about the market. -/
structure GameMasterArgs where
  ticks : String
  botConfig : String
  dataset : Path
deriving DecidableEq

/-- The digits at the head of the text, at least one of them. -/
def scanDigits (chars : List Char) : Option Int :=
  match chars.takeWhile Char.isDigit with
  | [] => none
  | digits => some (Nat.ofDigitChars 10 digits 0)

/-- `fmt.Sscanf(raw, "%d", &ticks)`. -/
def scanInt (raw : String) : Option Int :=
  let value := match raw.toList.dropWhile isSpace with
    | '-' :: chars => (scanDigits chars).map fun n => -n
    | '+' :: chars => scanDigits chars
    | chars => scanDigits chars
  value.filter fun n => Int64.minValue.toInt ≤ n && n ≤ Int64.maxValue.toInt

def parseTicksOrDefault (raw : String) (fallback : Int) : Int :=
  match scanInt raw with
  | some ticks => if ticks ≤ 0 then fallback else ticks
  | none => fallback

variable {β : Type*} (fs : Path → Option β) (db : Option (String → Option Round))

/-- What the query for a round finds; an error of `Scan` leaves the defaults in place. -/
def queryRound (roundID : String) : Option Round := db.bind fun rounds => rounds roundID

def dispatchToGameMaster (roundID botConfig : String) : GameMasterArgs :=
  let row := queryRound db roundID
  let ticks := row.elim "100000" fun round => toString round.tickCount.toInt
  let roundBotConfig := row.elim "MM:1.0" Round.botConfig
  let actualBotConfig := if botConfig ≠ "" then botConfig else roundBotConfig
  let dbDatasetPath := (row.bind Round.datasetPath).getD ""
  let datasetPath := resolveDatasetPath fs dbDatasetPath (parseTicksOrDefault ticks 100000) false
  ⟨ticks, actualBotConfig, datasetPath⟩

/-- The part of `processJob` that reads the round. -/
def processJob (job : Worker.RunJob) : GameMasterArgs :=
  let row := queryRound db job.roundId
  let ticksInt := row.elim 100000 fun round => round.tickCount.toInt
  let roundBotConfig := row.elim "MM:1.0" Round.botConfig
  let actualBotConfig := if job.botConfig ≠ "" then job.botConfig else roundBotConfig
  let datasetPath := (row.bind Round.datasetPath).getD ""
  let finalDatasetPath := (row.bind Round.finalDatasetPath).getD ""
  let actualDataset :=
    if "run_final_".toList <:+: job.runId.toList then
      Worker.resolveDatasetPath fs finalDatasetPath ticksInt true
    else Worker.resolveDatasetPath fs datasetPath ticksInt false
  ⟨toString ticksInt, actualBotConfig, actualDataset⟩

/-- The run id that `handleSubmit` makes of the hexadecimal digits of the hash and the clock. -/
def submissionRunID (hash : List (Fin 16)) (millis : Int) : String :=
  "run_" ++ String.ofList ((hash.take 8).map fun digit => Nat.digitChar digit.val) ++ "_" ++
    toString millis

/-- What step 5 of `runForgePipeline` hands to the workers, the custom bot configuration not
among it. -/
def queuedJob (runID userID soPath roundID : String) (enqueuedAt : Int) : Worker.RunJob where
  runId := runID
  userId := userID
  soPath := soPath
  roundId := roundID
  botConfig := ""
  retries := 0
  enqueuedAt := enqueuedAt

/-- The same tick count, bot configuration and file. -/
def SameMarket (a b : GameMasterArgs) : Prop :=
  a.ticks = b.ticks ∧ a.botConfig = b.botConfig ∧ fs a.dataset = fs b.dataset

/-! ## Numbers in text -/

theorem toList_toString (n : Int) :
    (toString n).toList = (if n < 0 then ['-'] else []) ++ Nat.toDigits 10 n.natAbs := by
  rw [Int.toString_eq_repr, Int.repr_eq_if]
  by_cases h : 0 ≤ n
  · have habs : n.toNat = n.natAbs := by omega
    rw [if_pos h, if_neg (Int.not_lt.mpr h), Nat.toList_repr, habs]
    rfl
  · have habs : (-n).toNat = n.natAbs := by omega
    rw [if_neg h, if_pos (Int.not_le.mp h), String.toList_append, Nat.toList_repr, habs]
    rfl

theorem isSpace_of_isDigit {c : Char} (h : c.isDigit = true) : isSpace c = false := by
  have hrange : 48 ≤ c.toNat ∧ c.toNat ≤ 57 := Char.isDigit_iff_toNat.mp h
  simp only [isSpace, Bool.or_eq_false_iff, Bool.and_eq_false_iff, decide_eq_false_iff_not,
    beq_eq_false_iff_ne]
  omega

theorem isDigit_toDigits {n : Nat} : ∀ c ∈ Nat.toDigits 10 n, c.isDigit = true :=
  fun _ hc => Nat.isDigit_of_mem_toDigits (by decide) (by decide) hc

theorem scanDigits_toDigits (n : Nat) : scanDigits (Nat.toDigits 10 n) = some (n : Int) := by
  rw [scanDigits, List.takeWhile_eq_self_iff.mpr isDigit_toDigits]
  split
  · next hnil => exact absurd hnil Nat.toDigits_ne_nil
  · rw [Nat.ofDigitChars_ten_toDigits]

theorem scanInt_eq {raw : String} {n : Int} (h : raw.toList =
      (if n < 0 then ['-'] else []) ++ Nat.toDigits 10 n.natAbs)
    (hmin : Int64.minValue.toInt ≤ n) (hmax : n ≤ Int64.maxValue.toInt) : scanInt raw = some n := by
  have hvalue : (match raw.toList.dropWhile isSpace with
      | '-' :: chars => (scanDigits chars).map fun n => -n
      | '+' :: chars => scanDigits chars
      | chars => scanDigits chars) = some n := by
    by_cases hneg : n < 0
    · have habs : -(n.natAbs : Int) = n := by omega
      rw [h, if_pos hneg, List.singleton_append, List.dropWhile_cons_of_neg (by decide)]
      change (scanDigits (Nat.toDigits 10 n.natAbs)).map _ = _
      rw [scanDigits_toDigits, Option.map_some, habs]
    · have habs : (n.natAbs : Int) = n := by omega
      obtain ⟨c, digits, hdigits⟩ := List.exists_cons_of_ne_nil
        (Nat.toDigits_ne_nil (n := n.natAbs) (b := 10))
      have hc : c.isDigit = true := isDigit_toDigits c (hdigits ▸ List.mem_cons_self)
      rw [h, if_neg hneg, List.nil_append, hdigits,
        List.dropWhile_cons_of_neg (Bool.eq_false_iff.mp (isSpace_of_isDigit hc))]
      split
      · next heq =>
          rw [(List.cons.inj heq).1] at hc
          exact absurd hc (by decide)
      · next heq =>
          rw [(List.cons.inj heq).1] at hc
          exact absurd hc (by decide)
      · rw [← hdigits, scanDigits_toDigits, habs]
  rw [scanInt, hvalue, Option.filter_some_pos]
  rw [decide_eq_true hmin, decide_eq_true hmax]
  rfl

theorem scanInt_toString (n : Int64) : scanInt (toString n.toInt) = some n.toInt :=
  scanInt_eq (toList_toString n.toInt) n.minValue_le_toInt n.toInt_le

theorem parseTicks_toString (n : Int64) (fallback : Int) :
    parseTicksOrDefault (toString n.toInt) fallback =
      if n.toInt ≤ 0 then fallback else n.toInt := by
  rw [parseTicksOrDefault, scanInt_toString]

theorem not_final_submissionRunID (hash : List (Fin 16)) (millis : Int) :
    ¬ "run_final_".toList <:+: (submissionRunID hash millis).toList := by
  intro h
  have hhex : ∀ digit : Fin 16, Nat.digitChar digit.val ≠ 'i' := by decide
  have hin : 'i' ∈ (submissionRunID hash millis).toList := h.subset (by decide)
  simp only [submissionRunID, String.toList_append, List.mem_append, String.toList_ofList,
    toList_toString] at hin
  rcases hin with ((hin | hin) | hin) | hin | hin
  · exact absurd hin (by decide)
  · obtain ⟨digit, -, heq⟩ := List.mem_map.mp hin
    exact hhex digit heq
  · exact absurd hin (by decide)
  · split at hin
    · exact absurd hin (by decide)
    · exact absurd hin List.not_mem_nil
  · exact absurd (isDigit_toDigits _ hin) (by decide)

/-! ## The two paths -/

/-- The bot configuration of a round. -/
def roundBotConfig (roundID : String) : String :=
  (queryRound db roundID).elim "MM:1.0" Round.botConfig

/-- The stored name of the dataset of a round, trimmed. -/
def roundFile (roundID : String) : Path :=
  trimSpace (((queryRound db roundID).bind Round.datasetPath).getD "")

def roundDefault (roundID : String) : Path :=
  defaultName ((queryRound db roundID).elim 100000 fun round => round.tickCount.toInt) false

variable {fs db}

theorem ticks_eq (row : Option Round) :
    row.elim "100000" (fun round => toString round.tickCount.toInt) =
      toString (row.elim (100000 : Int) fun round => round.tickCount.toInt) := by
  cases row with
  | none => rfl
  | some round => rfl

/-- Both paths have the same default dataset, although only one replaces a count that is not
positive. -/
theorem defaultName_parseTicks (row : Option Round) :
    defaultName (parseTicksOrDefault
        (row.elim "100000" fun round => toString round.tickCount.toInt) 100000) false =
      defaultName (row.elim 100000 fun round => round.tickCount.toInt) false := by
  cases row with
  | none => decide
  | some round =>
      change defaultName (parseTicksOrDefault (toString round.tickCount.toInt) 100000) false =
        defaultName round.tickCount.toInt false
      rw [parseTicks_toString]
      split
      · next hle =>
          rw [defaultName, defaultName, Bool.false_or, Bool.false_or, decide_eq_false (by omega),
            decide_eq_false (by omega)]
      · rfl

theorem nil_not_mem_candidates {file default : Path} (hdefault : default ≠ []) :
    [] ∉ candidates file default := by
  rw [candidates]
  split
  · next hfile => split <;> simp [hfile.symm, hdefault.symm, Path.join_ne_nil]
  · simp [hdefault.symm, Path.join_ne_nil]

theorem nil_not_mem_workerCandidates {file default : Path} (hdefault : default ≠ []) :
    [] ∉ Worker.candidates file default := by
  rw [Worker.candidates]
  split
  · next hfile => split <;> simp [hfile.symm, hdefault.symm]
  · simp [hdefault.symm]

theorem file_backend (fs : Path → Option β) (stored : String) (ticks : Int) :
    fs (resolveDatasetPath fs stored ticks false) =
      (candidates (trimSpace stored) (defaultName ticks false)).findSome? fs := by
  refine Path.file_firstExisting ?_
    (nil_not_mem_candidates (isName_defaultName ticks false).1)
  exact List.mem_append_right _ (.tail _ (.tail _ (.head _)))

theorem file_worker (fs : Path → Option β) (stored : String) (ticks : Int) :
    fs (Worker.resolveDatasetPath fs stored ticks false) =
      (Worker.candidates (trimSpace stored) (defaultName ticks false)).findSome? fs := by
  refine Path.file_firstExisting ?_
    (nil_not_mem_workerCandidates (isName_defaultName ticks false).1)
  exact List.mem_append_right _ (.head _)

/-- Both paths start the Game Master alike if and only if the submission brings no bot
configuration of its own that differs from the round's, and the first file that exists in the
places of the backend's copy of `resolveDatasetPath` is the first one in those of the worker's. -/
theorem dispatch_agrees_iff (hash : List (Fin 16)) (millis : Int)
    (userID soPath roundID botConfig : String) (enqueuedAt : Int) :
    SameMarket fs (dispatchToGameMaster fs db roundID botConfig)
        (processJob fs db
          (queuedJob (submissionRunID hash millis) userID soPath roundID enqueuedAt)) ↔
      (botConfig = "" ∨ botConfig = roundBotConfig db roundID) ∧
      (candidates (roundFile db roundID) (roundDefault db roundID)).findSome? fs =
        (Worker.candidates (roundFile db roundID) (roundDefault db roundID)).findSome? fs := by
  have hdirect : fs (dispatchToGameMaster fs db roundID botConfig).dataset =
      (candidates (roundFile db roundID) (roundDefault db roundID)).findSome? fs := by
    simp only [dispatchToGameMaster]
    rw [file_backend fs, defaultName_parseTicks, roundFile, roundDefault]
  have hqueued : fs (processJob fs db
        (queuedJob (submissionRunID hash millis) userID soPath roundID enqueuedAt)).dataset =
      (Worker.candidates (roundFile db roundID) (roundDefault db roundID)).findSome? fs := by
    have hdataset : (processJob fs db
        (queuedJob (submissionRunID hash millis) userID soPath roundID enqueuedAt)).dataset =
        Worker.resolveDatasetPath fs (((queryRound db roundID).bind Round.datasetPath).getD "")
          ((queryRound db roundID).elim 100000 fun round => round.tickCount.toInt) false :=
      if_neg (not_final_submissionRunID hash millis)
    rw [hdataset, file_worker fs, roundFile, roundDefault]
  have hbot : (dispatchToGameMaster fs db roundID botConfig).botConfig = roundBotConfig db roundID ↔
      botConfig = "" ∨ botConfig = roundBotConfig db roundID := by
    change (if botConfig ≠ "" then botConfig else roundBotConfig db roundID) = _ ↔ _
    by_cases hempty : botConfig = ""
    · rw [if_neg (not_not.mpr hempty)]
      exact iff_of_true rfl (Or.inl hempty)
    · rw [if_pos hempty, or_iff_right hempty]
  rw [SameMarket, hdirect, hqueued, ← hbot]
  exact ⟨fun ⟨_, h, hfile⟩ => ⟨h, hfile⟩, fun ⟨h, hfile⟩ => ⟨ticks_eq _, h, hfile⟩⟩

/-- The custom bots of a submission are lost on the way through the queue. -/
theorem queue_drops_bot_config :
    ¬ ∀ (fs : Path → Option Unit) (db : Option (String → Option Round)) (hash : List (Fin 16))
        (millis : Int) (userID soPath roundID botConfig : String) (enqueuedAt : Int),
      SameMarket fs (dispatchToGameMaster fs db roundID botConfig)
        (processJob fs db
          (queuedJob (submissionRunID hash millis) userID soPath roundID enqueuedAt)) := by
  intro h
  have hbot := (h (fun _ => none) none [] 0 "ada" "/tmp/a.so" "round1" "SNIPER:0.9" 0).2.1
  exact absurd hbot (by decide)

end VidhiArena.Backend
