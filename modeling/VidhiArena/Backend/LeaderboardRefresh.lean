import Mathlib.Algebra.Ring.Int.Defs
import VidhiArena.Backend.Leaderboard
import VidhiArena.Foundation.Faulting

/-!
# Refreshing the leaderboard

When a completed run gets into the materialized view: `maybeRefreshLeaderboard` of
`backend/main.go` after `persistRun`, and `workerMaybeRefreshLeaderboard` of
`backend/worker/job_worker.go` after `Worker.updateRunStatus`. Each has its own limiter, which
drops a request that comes within five seconds of the last one it let pass; a request that
passes refreshes the view in a goroutine of its own.

Completions run side by side: each writes its row, then comes to its limiter. `REFRESH
MATERIALIZED VIEW` computes the view from the rows that are committed when it begins, and
PostgreSQL lets one refresh of a view run at a time. A refresh that finds another one at work
has its rows already and waits for its turn.
-/

namespace VidhiArena.Backend

open VidhiArena.Foundation Rows

variable {F : Type}

/-! ## State -/

/-- Who reports a completion; each has its own `lastRefresh`. -/
inductive Reporter where
  | backend
  | worker
deriving DecidableEq

structure RefreshState (F : Type) where
  runs : List (RunRow F)
  /-- the rows that the view was computed from -/
  seen : List (RunRow F)
  /-- the zero time at first -/
  lastRefresh : Reporter → Option Int
  /-- the completions that are written and have not come to their limiter -/
  reporting : List Reporter
  /-- the refreshes that are scheduled and have not begun -/
  scheduled : Nat
  /-- the refreshes under way, first come first served, each with its rows -/
  underWay : List (List (RunRow F))

inductive RefreshMove (F : Type) where
  /-- `Worker.updateRunStatus` with `complete` -/
  | update (runID : String) (result : GMResult F) (now : Int)
  /-- `persistRun` of a run that is complete -/
  | persist (r : RunResult F)
  | maybeRefresh (reporter : Reporter) (now : Int)
  | begin
  | finish

/-- `leaderboardRefreshMinGap`, in milliseconds. -/
def leaderboardRefreshMinGap : Int := 5000

/-- `time.Since(last) < minGap`. -/
def tooSoon (last : Option Int) (now : Int) : Bool :=
  last.any fun t => now - t < leaderboardRefreshMinGap

/-- What the view shows of a row, its rank apart. -/
structure ViewRow (F : Type) where
  userID : String
  roundID : Option String
  pnlPct : F
  p99NS : F
  totalFills : Int
  correctness : F
  violations : Int
  runID : String
  completedAt : Int
deriving DecidableEq

def RunRow.viewRow (row : RunRow F) : ViewRow F where
  userID := row.userID
  roundID := row.roundID
  pnlPct := row.pnlPct
  p99NS := row.p99NS
  totalFills := row.totalFills
  correctness := row.correctness
  violations := row.violations
  runID := row.runID
  completedAt := row.completedAt

/-- `user_id, round_id`, as the view shows them. -/
def ViewRow.userRound (row : ViewRow F) : String ×ₗ WithTop String :=
  toLex (row.userID, row.roundID.elim ⊤ WithTop.some)

/-- `(pnl_pct >= 0) DESC, pnl_pct DESC, p99_ns ASC`, as the view shows them. -/
def ViewRow.rankKey [LinearOrder F] [Zero F] (row : ViewRow F) : Boolᵒᵈ ×ₗ Fᵒᵈ ×ₗ F :=
  toLex (OrderDual.toDual (decide (0 ≤ row.pnlPct)),
    toLex (OrderDual.toDual row.pnlPct, row.p99NS))

/-! ## Steps -/

namespace RefreshState

def init (runs : List (RunRow F)) : RefreshState F := ⟨runs, runs, fun _ => none, [], 0, []⟩

/-- `maybeRefreshLeaderboard` and `workerMaybeRefreshLeaderboard`. -/
def maybeRefresh (s : RefreshState F) (reporter : Reporter) (now : Int) : RefreshState F :=
  if tooSoon (s.lastRefresh reporter) now then
    { s with reporting := s.reporting.erase reporter }
  else
    { s with
      lastRefresh := Function.update s.lastRefresh reporter (some now)
      reporting := s.reporting.erase reporter
      scheduled := s.scheduled + 1 }

def beginRefresh (s : RefreshState F) : RefreshState F :=
  if 0 < s.scheduled then
    { s with scheduled := s.scheduled - 1, underWay := s.underWay ++ [s.runs] }
  else s

def finishRefresh (s : RefreshState F) : RefreshState F :=
  match s.underWay with
  | [] => s
  | rows :: rest => { s with seen := rows, underWay := rest }

def step (rounds : List String) (s : RefreshState F) : RefreshMove F → RefreshState F
  | .update runID result now =>
      { s with
        runs := updateRunStatus s.runs runID .complete (some result) now
        reporting := .worker :: s.reporting }
  | .persist r =>
      { s with
        runs := persistRun rounds s.runs { r with status := .complete }
        reporting := .backend :: s.reporting }
  | .maybeRefresh reporter now =>
      if reporter ∈ s.reporting then s.maybeRefresh reporter now else s
  | .begin => s.beginRefresh
  | .finish => s.finishRefresh

def run (rounds : List String) (runs : List (RunRow F)) (moves : List (RefreshMove F)) :
    RefreshState F := moves.foldl (step rounds) (init runs)

variable [LinearOrder F] [Zero F]

/-- What the query of the view gives, round by round. -/
def query (runs : List (RunRow F)) (roundID : String) : List (ViewRow F) :=
  (standing runs roundID).map RunRow.viewRow

def leaderboard (s : RefreshState F) (roundID : String) : List (ViewRow F) :=
  query s.seen roundID

/-! ## What is wanted -/

/-- The view is what its query gives. -/
def UpToDate (s : RefreshState F) : Prop := ∀ roundID, s.leaderboard roundID = query s.runs roundID

/-- No completion is missing for good. -/
def NothingMissing (s : RefreshState F) : Prop :=
  s.reporting = [] → s.scheduled = 0 → s.underWay = [] → s.UpToDate

/-! ## The condition -/

/-- The best complete run of each user in each round, as it stands in `runs`. -/
def bests (runs : List (RunRow F)) : List (ViewRow F) := (bestRuns runs).map RunRow.viewRow

/-- The rows that the last refresh found when it began. -/
def lastBegun (s : RefreshState F) : List (RunRow F) := s.underWay.getLast?.getD s.seen

/-- A request is dropped only while a refresh is scheduled that has not begun, another
completion is on its way to a limiter, or everybody's best runs are those of the moment in
which the last refresh began. -/
def Harmless (s : RefreshState F) : RefreshMove F → Prop
  | .maybeRefresh reporter now =>
      tooSoon (s.lastRefresh reporter) now = true →
        s.scheduled ≠ 0 ∨ s.reporting ≠ [reporter] ∨ bests s.lastBegun = bests s.runs
  | _ => True

/-! ## The query and the best runs -/

variable {runs runs' : List (RunRow F)}

theorem query_eq (runs : List (RunRow F)) (roundID : String) :
    query runs roundID =
      orderBy ViewRow.rankKey ((bests runs).filter fun row => row.roundID = some roundID) := by
  rw [bests, List.filter_map, ← map_orderBy]
  rfl

theorem nodup_bests (runs : List (RunRow F)) : ((bests runs).map ViewRow.userRound).Nodup := by
  rw [bests, List.map_map]
  exact nodup_distinctOn _

theorem round_of_mem_bests {row : ViewRow F} (h : row ∈ bests runs) :
    ∃ roundID, row.roundID = some roundID := by
  obtain ⟨row, hrow, rfl⟩ := List.mem_map.mp h
  have hcomplete := (List.mem_filter.mp (mem_of_leastOfGroups hrow)).2
  rw [Bool.and_eq_true] at hcomplete
  exact Option.isSome_iff_exists.mp hcomplete.2

theorem mem_bests_iff {row : ViewRow F} :
    row ∈ bests runs ↔ ∃ roundID, row.roundID = some roundID ∧ row ∈ query runs roundID := by
  constructor
  · intro h
    obtain ⟨roundID, hround⟩ := round_of_mem_bests h
    refine ⟨roundID, hround, ?_⟩
    rw [query_eq, mem_orderBy, List.mem_filter]
    exact ⟨h, decide_eq_true hround⟩
  · rintro ⟨roundID, -, h⟩
    rw [query_eq, mem_orderBy] at h
    exact List.mem_of_mem_filter h

theorem bests_eq_iff :
    bests runs = bests runs' ↔ ∀ roundID, query runs roundID = query runs' roundID := by
  constructor
  · intro h roundID
    rw [query_eq, query_eq, h]
  · intro h
    have hperm : (bests runs).Perm (bests runs') := by
      rw [List.perm_ext_iff_of_nodup (nodup_bests runs).of_map (nodup_bests runs').of_map]
      intro row
      rw [mem_bests_iff, mem_bests_iff]
      exact exists_congr fun roundID => by rw [h]
    have hlisted : ∀ runs : List (RunRow F),
        (bests runs).Pairwise fun a b => a.userRound ≤ b.userRound := fun runs =>
      List.pairwise_map.mpr pairwise_leastOfGroups
    -- both lists are in the order of user and round, which occur once
    refine eq_of_perm ViewRow.userRound hperm (fun a ha b hb heq => ?_) (hlisted runs)
      (hlisted runs')
    exact List.inj_on_of_nodup_map (nodup_bests runs) ha hb heq

theorem upToDate_iff {s : RefreshState F} : s.UpToDate ↔ bests s.seen = bests s.runs :=
  bests_eq_iff.symm

/-! ## Runs -/

variable {s : RefreshState F}

/-- No completion will be missing once the refreshes under way are done. -/
def Covered (s : RefreshState F) : Prop :=
  s.reporting = [] → s.scheduled = 0 → bests s.lastBegun = bests s.runs

omit [LinearOrder F] [Zero F] in
theorem lastBegun_begin (hpos : 0 < s.scheduled) : s.beginRefresh.lastBegun = s.runs := by
  rw [beginRefresh, if_pos hpos, lastBegun, List.getLast?_concat]
  rfl

omit [LinearOrder F] [Zero F] in
/-- A refresh that is done leaves open only those that began later. -/
theorem lastBegun_finish (s : RefreshState F) : s.finishRefresh.lastBegun = s.lastBegun := by
  unfold finishRefresh
  split
  · rfl
  · next rows rest heq =>
      rw [lastBegun, lastBegun, heq, List.getLast?_cons]
      rfl

theorem Covered.nothingMissing (h : s.Covered) : s.NothingMissing := by
  intro hquiet hidle hnone
  have hbests := h hquiet hidle
  rw [lastBegun, hnone] at hbests
  exact upToDate_iff.mpr hbests

theorem Covered.finish (rounds : List String) (h : s.Covered) : (s.step rounds .finish).Covered := by
  show s.finishRefresh.Covered
  rw [Covered, lastBegun_finish]
  unfold finishRefresh
  split <;> exact h

theorem covered_of_finished (rounds : List String) : ∀ (n : Nat) (s : RefreshState F),
    s.underWay.length = n →
      ((List.replicate n .finish).foldl (step rounds) s).NothingMissing → s.Covered
  | 0, s, hlength, h => by
      have hnone : s.underWay = [] := List.length_eq_zero_iff.mp hlength
      intro hquiet hidle
      rw [lastBegun, hnone]
      exact upToDate_iff.mp (h hquiet hidle hnone)
  | n + 1, s, hlength, h => by
      -- the first refresh under way is done, and the last one decides
      obtain ⟨rows, rest, hcons⟩ := List.exists_cons_of_length_eq_add_one hlength
      have hlast := lastBegun_finish s
      have hfinish : s.finishRefresh = { s with seen := rows, underWay := rest } := by
        rw [finishRefresh, hcons]
      rw [hcons] at hlength
      have hrest := covered_of_finished rounds n s.finishRefresh
        (by rw [hfinish]; exact Nat.succ.inj hlength) h
      rw [Covered, hlast, hfinish] at hrest
      exact hrest

/-- The claim's property of a state, now and when the refreshes under way are done. -/
theorem covered_iff (rounds : List String) : s.Covered ↔
    ∀ n, ((List.replicate n .finish).foldl (step rounds) s).NothingMissing := by
  refine ⟨fun h n => ?_, fun h => covered_of_finished rounds _ s rfl (h _)⟩
  refine (List.foldlRecOn (motive := Covered) _ _ h fun s hs m hm => ?_).nothingMissing
  rw [List.eq_of_mem_replicate hm]
  exact hs.finish rounds

theorem erase_eq_nil_iff {l : List Reporter} {reporter : Reporter} (h : reporter ∈ l) :
    l.erase reporter = [] ↔ l = [reporter] := by
  constructor
  · intro hnil
    have hperm := List.perm_cons_erase h
    rw [hnil] at hperm
    exact List.perm_singleton.mp hperm
  · rintro rfl
    exact List.erase_cons_head reporter []

theorem Covered.step_iff (h : s.Covered) (rounds : List String) (m : RefreshMove F) :
    (s.step rounds m).Covered ↔ s.Harmless m := by
  cases m with
  | update runID result now => exact iff_of_true (fun hnil => nomatch hnil) trivial
  | persist r => exact iff_of_true (fun hnil => nomatch hnil) trivial
  | finish => exact iff_of_true (h.finish rounds) trivial
  | begin =>
      refine iff_of_true ?_ trivial
      show s.beginRefresh.Covered
      by_cases hpos : 0 < s.scheduled
      · -- a refresh that begins takes the rows as they are
        intro _ _
        rw [lastBegun_begin hpos, beginRefresh, if_pos hpos]
      · rwa [beginRefresh, if_neg hpos]
  | maybeRefresh reporter now =>
      simp only [RefreshState.step]
      split
      · next hin =>
          rw [RefreshState.maybeRefresh]
          split
          · next hsoon =>
              -- dropped: only `reporting` changes
              have hnil := erase_eq_nil_iff hin
              constructor
              · intro hcovered _
                by_cases hscheduled : s.scheduled = 0
                · by_cases hlast : s.reporting = [reporter]
                  · exact Or.inr (Or.inr (hcovered (hnil.mpr hlast) hscheduled))
                  · exact Or.inr (Or.inl hlast)
                · exact Or.inl hscheduled
              · intro hharmless hquiet hidle
                rcases hharmless hsoon with hscheduled | hother | hbests
                · exact absurd hidle hscheduled
                · exact absurd (hnil.mp hquiet) hother
                · exact hbests
          · next hpass =>
              -- let pass: a refresh is scheduled
              exact iff_of_true (fun _ hidle => nomatch hidle) fun hsoon => absurd hsoon hpass
      · next hout =>
          refine iff_of_true h fun _ => Or.inr (Or.inl fun heq => hout ?_)
          rw [heq]
          exact List.mem_singleton_self reporter

/-- No completion is missing from the leaderboard for good, in every sequence of completions
at any times, if and only if every request that a limiter drops is harmless: after each step, and
when the refreshes that are under way then are done. -/
theorem leaderboard_covers_iff (rounds : List String) (runs : List (RunRow F))
    (moves : List (RefreshMove F)) :
    (∀ pre, pre <+: moves → ∀ n,
      (run rounds runs (pre ++ List.replicate n .finish)).NothingMissing) ↔
      Along (step rounds) Harmless (init runs) moves := by
  have hcovered : ∀ pre : List (RefreshMove F),
      (∀ n, (run rounds runs (pre ++ List.replicate n .finish)).NothingMissing) ↔
        (pre.foldl (step rounds) (init runs)).Covered := by
    intro pre
    simp only [run, List.foldl_append]
    exact (covered_iff rounds).symm
  simp only [hcovered]
  exact foldl_inv_iff (fun _ m h => h.step_iff rounds m) moves fun _ _ => rfl

/-- The second of two completions within five seconds, while the refresh after the first one is
at work. -/
theorem second_completion_missing :
    ¬ ∀ (rounds : List String) (runs : List (RunRow Int)) (moves : List (RefreshMove Int)),
      (run rounds runs moves).NothingMissing := by
  intro h
  let queued (runID userID : String) : RunRow Int :=
    ⟨.zero, runID, userID, some "round1", .queued, "", 0, 0⟩
  have hview := h ["round1"] [queued "run_a" "ada", queued "run_b" "bob"]
    [.update "run_a" ⟨5, 5, 300, 900, 1000, 10, 0, 1, 0⟩ 10000, .maybeRefresh .worker 10001,
      .begin, .update "run_b" ⟨9, 9, 300, 900, 1000, 10, 0, 1, 0⟩ 12000,
      .maybeRefresh .worker 12001, .finish] rfl rfl rfl "round1"
  exact absurd (congrArg List.length hview) (by decide +kernel)

end RefreshState

end VidhiArena.Backend
