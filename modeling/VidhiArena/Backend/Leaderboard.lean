import Mathlib.Order.Lex
import Mathlib.Order.WithBot
import Mathlib.Data.List.Dedup
import Mathlib.Data.List.Induction
import Mathlib.Data.String.Basic
import VidhiArena.Backend.RunTable
import VidhiArena.Foundation.Rows

/-!
# The leaderboard and its fallback

The materialized view `leaderboard` of `backend/db/schema.sql`, read by
`loadLeaderboardFromDB`, and what `handleLeaderboard` of `backend/main.go` answers from
`runCache` when there is no view. The orders that Go leaves open (of `range` over a map, of
equal elements after `sort.Slice`) are existentially quantified.

An entry has the fields that both sides fill from a run; the display and team names are left
out.
-/

namespace VidhiArena.Backend

open VidhiArena.Foundation Rows OrderDual

variable {F : Type} [LinearOrder F]

structure LeaderboardEntry (F : Type) where
  rank : Nat
  userID : String
  pnlPct : F
  p99NS : F
  totalFills : Int
deriving DecidableEq

/-- The users and their runs, numbered from 1. -/
def ranked (standing : List (String × Measured F)) : List (LeaderboardEntry F) :=
  (standing.zipIdx 1).map fun x => ⟨x.2, x.1.1, x.1.2.pnlPct, x.1.2.p99NS, x.1.2.totalFills⟩

/-! ## The view -/

section View

variable [Zero F]

/-- `(pnl_pct >= 0) DESC, pnl_pct DESC, p99_ns ASC`. -/
def Measured.rankKey (m : Measured F) : Boolᵒᵈ ×ₗ Fᵒᵈ ×ₗ F :=
  toLex (toDual (decide (0 ≤ m.pnlPct)), toLex (toDual m.pnlPct, m.p99NS))

/-- `user_id, round_id`; a null stands after every round. -/
def RunRow.userRound (row : RunRow F) : String ×ₗ WithTop String :=
  toLex (row.userID, row.roundID.elim ⊤ WithTop.some)

omit [LinearOrder F] [Zero F] in
theorem userRound_inj {row row' : RunRow F} : row.userRound = row'.userRound ↔
    row.userID = row'.userID ∧ row.roundID = row'.roundID := by
  have hround : ∀ {q q' : Option String},
      q.elim ⊤ WithTop.some = q'.elim (⊤ : WithTop String) WithTop.some ↔ q = q' := by
    rintro (_ | q) (_ | q')
    · exact iff_of_true rfl rfl
    · exact iff_of_false (WithTop.top_ne_coe) nofun
    · exact iff_of_false (WithTop.coe_ne_top) nofun
    · exact WithTop.coe_inj.trans (Option.some_inj).symm
  rw [RunRow.userRound, RunRow.userRound, toLex_inj, Prod.mk.injEq, hround]

/-- The rows under `best_runs`: `status = 'complete' AND round_id IS NOT NULL`. -/
def completeRows (runs : List (RunRow F)) : List (RunRow F) :=
  runs.filter fun row => row.status = .complete && row.roundID.isSome

/-- The common table expression `best_runs`. -/
def bestRuns (runs : List (RunRow F)) : List (RunRow F) :=
  leastOfGroups RunRow.userRound (fun row => row.rankKey) (completeRows runs)

/-- A partition of the view, by `ROW_NUMBER()`. -/
def standing (runs : List (RunRow F)) (roundID : String) : List (RunRow F) :=
  orderBy (fun row => row.rankKey) ((bestRuns runs).filter fun row => row.roundID = some roundID)

/-- `loadLeaderboardFromDB` for a round, over a view that is up to date. -/
def loadLeaderboardFromDB (runs : List (RunRow F)) (roundID : String) :
    List (LeaderboardEntry F) :=
  (ranked ((standing runs roundID).map fun row => (row.userID, row.toMeasured))).take 100

end View

/-! ## The fallback -/

/-- One turn of the loop over `runCache`. -/
def keepBest (best : String → Option (RunResult F)) (run : RunResult F) :
    String → Option (RunResult F) :=
  if run.status ≠ .complete then best
  else
    match best run.userID with
    | none => Function.update best run.userID (some run)
    | some prev =>
        if prev.pnlPct < run.pnlPct then Function.update best run.userID (some run) else best

/-- `best` after the loop, for an order of the cache. -/
def bestOf (order : List (RunResult F)) : String → Option (RunResult F) :=
  order.foldl keepBest fun _ => none

/-- `listing` is `best` in an order that `sort.Slice` may leave. -/
structure Sorted (best : String → Option (RunResult F)) (listing : List (RunResult F)) :
    Prop where
  nodup : listing.Nodup
  mem_iff : ∀ run, run ∈ listing ↔ best run.userID = some run
  descending : listing.Pairwise fun a b => b.pnlPct ≤ a.pnlPct

/-- `handleLeaderboard` may answer `entries` from the cache; the round is not looked at. -/
def Fallback (runCache : List (RunResult F)) (entries : List (LeaderboardEntry F)) : Prop :=
  ∃ order listing, order.Perm runCache ∧ Sorted (bestOf order) listing ∧
    entries = ranked (listing.map fun run => (run.userID, run.toMeasured))

/-! ## How rows rank -/

section Rank

variable [Zero F] {m m' : Measured F}

theorem rankKey_le_iff : m.rankKey ≤ m'.rankKey ↔
    m'.pnlPct < m.pnlPct ∨ m.pnlPct = m'.pnlPct ∧ m.p99NS ≤ m'.p99NS := by
  unfold Measured.rankKey
  rw [Prod.Lex.toLex_le_toLex, Prod.Lex.toLex_le_toLex, toDual_lt_toDual, toDual_lt_toDual,
    toDual_inj, toDual_inj]
  constructor
  · rintro (hsign | ⟨-, h⟩)
    · obtain ⟨hneg, hpos⟩ := Bool.lt_iff.mp hsign
      exact Or.inl ((not_le.mp (of_decide_eq_false hneg)).trans_le (of_decide_eq_true hpos))
    · exact h
  · rintro (hlt | ⟨heq, hle⟩)
    · have hsign : decide (0 ≤ m'.pnlPct) ≤ decide (0 ≤ m.pnlPct) :=
        Bool.le_iff_imp.mpr fun h => decide_eq_true ((of_decide_eq_true h).trans hlt.le)
      rcases eq_or_lt_of_le hsign with h | h
      · exact Or.inr ⟨h.symm, Or.inl hlt⟩
      · exact Or.inl h
    · exact Or.inr ⟨by rw [heq], Or.inr ⟨heq, hle⟩⟩

theorem rankKey_inj (h : m.rankKey = m'.rankKey) :
    m.pnlPct = m'.pnlPct ∧ m.p99NS = m'.p99NS := by
  rcases rankKey_le_iff.mp h.le with hlt | ⟨heq, hle⟩
  · rcases rankKey_le_iff.mp h.ge with hlt' | ⟨heq', -⟩
    · exact absurd hlt hlt'.asymm
    · exact absurd heq' hlt.ne
  · rcases rankKey_le_iff.mp h.ge with hlt' | ⟨-, hle'⟩
    · exact absurd heq hlt'.ne
    · exact ⟨heq, le_antisymm hle hle'⟩

end Rank

/-- What an entry shows of a run, its rank apart. -/
def shows (x : String × Measured F) : String × F × F × Int :=
  (x.1, x.2.pnlPct, x.2.p99NS, x.2.totalFills)

omit [LinearOrder F] in
theorem take_ranked (n : Nat) (l : List (String × Measured F)) :
    (ranked l).take n = ranked (l.take n) := by
  ext i : 1
  simp only [ranked, List.getElem?_take, List.getElem?_map, List.getElem?_zipIdx]
  split <;> rfl

omit [LinearOrder F] in
theorem shows_of_ranked_eq {l l' : List (String × Measured F)} (h : ranked l = ranked l') :
    l.map shows = l'.map shows := by
  have hshown : ∀ l : List (String × Measured F), (ranked l).map
      (fun e => (e.userID, e.pnlPct, e.p99NS, e.totalFills)) = l.map shows := by
    intro l
    ext i : 1
    simp only [ranked, List.getElem?_map, List.getElem?_zipIdx, Option.map_map]
    rfl
  rw [← hshown, h, hshown]

/-! ## The best run of each user -/

/-- A complete run, and no complete run of its user has more profit. -/
structure Champion (runs : List (RunResult F)) (r : RunResult F) : Prop where
  mem : r ∈ runs
  complete : r.status = .complete
  best : ∀ r' ∈ runs, r'.status = .complete → r'.userID = r.userID → r'.pnlPct ≤ r.pnlPct

section Best

variable {order runs : List (RunResult F)} {r r' : RunResult F}

theorem keepBest_cases (best : String → Option (RunResult F)) (r : RunResult F) :
    (keepBest best r = best ∧ (r.status = .complete →
      ∃ prev, best r.userID = some prev ∧ r.pnlPct ≤ prev.pnlPct)) ∨
    (keepBest best r = Function.update best r.userID (some r) ∧ r.status = .complete ∧
      ∀ prev, best r.userID = some prev → prev.pnlPct < r.pnlPct) := by
  unfold keepBest
  split
  · next hstatus => exact Or.inl ⟨rfl, fun hcomplete => absurd hcomplete hstatus⟩
  · next hstatus =>
      have hcomplete := not_not.mp hstatus
      split
      · next hnone => exact Or.inr ⟨rfl, hcomplete, fun prev h => nomatch hnone.symm.trans h⟩
      · next prev hsome =>
          split
          · next hlt =>
              refine Or.inr ⟨rfl, hcomplete, fun prev' h => ?_⟩
              obtain rfl := Option.some.inj (hsome.symm.trans h)
              exact hlt
          · next hge => exact Or.inl ⟨rfl, fun _ => ⟨prev, hsome, not_lt.mp hge⟩⟩

/-- `best` holds the champions of the users seen. -/
structure Leads (seen : List (RunResult F)) (best : String → Option (RunResult F)) : Prop where
  champion : ∀ u r, best u = some r → r.userID = u ∧ Champion seen r
  covers : ∀ r ∈ seen, r.status = .complete → ∃ r', best r.userID = some r'

theorem Champion.concat (h : Champion order r)
    (hle : r'.status = .complete → r'.userID = r.userID → r'.pnlPct ≤ r.pnlPct) :
    Champion (order ++ [r']) r where
  mem := List.mem_append_left _ h.mem
  complete := h.complete
  best x hx hcomplete huser := by
    rcases List.mem_append.mp hx with hx | hx
    · exact h.best x hx hcomplete huser
    · obtain rfl := List.mem_singleton.mp hx
      exact hle hcomplete huser

theorem Leads.keepBest {best : String → Option (RunResult F)} (h : Leads order best)
    (r : RunResult F) : Leads (order ++ [r]) (keepBest best r) := by
  rcases keepBest_cases best r with ⟨heq, hpassed⟩ | ⟨heq, hcomplete, hprev⟩
  · rw [heq]
    constructor
    · intro u x hx
      obtain ⟨rfl, hbest⟩ := h.champion u x hx
      refine ⟨rfl, hbest.concat fun hcomplete huser => ?_⟩
      obtain ⟨prev, hprev, hle⟩ := hpassed hcomplete
      obtain rfl := Option.some.inj (hx.symm.trans (huser ▸ hprev))
      exact hle
    · intro x hx hcomplete
      rcases List.mem_append.mp hx with hx | hx
      · exact h.covers x hx hcomplete
      · obtain rfl := List.mem_singleton.mp hx
        obtain ⟨prev, hprev, -⟩ := hpassed hcomplete
        exact ⟨prev, hprev⟩
  · rw [heq]
    constructor
    · intro u x hx
      by_cases huser : u = r.userID
      · subst huser
        rw [Function.update_self] at hx
        obtain rfl := Option.some.inj hx
        refine ⟨rfl, List.mem_append_right _ (List.mem_singleton_self r), hcomplete, ?_⟩
        intro y hy hy' huser
        rcases List.mem_append.mp hy with hy | hy
        · obtain ⟨prev, hsome⟩ := h.covers y hy hy'
          obtain ⟨hprevUser, hbest⟩ := h.champion _ prev hsome
          exact (hbest.best y hy hy' hprevUser.symm).trans (hprev prev (huser ▸ hsome)).le
        · rw [List.mem_singleton.mp hy]
      · rw [Function.update_of_ne huser] at hx
        obtain ⟨rfl, hbest⟩ := h.champion u x hx
        exact ⟨rfl, hbest.concat fun _ h => absurd h.symm huser⟩
    · intro x hx hx'
      by_cases huser : x.userID = r.userID
      · exact ⟨r, by rw [huser, Function.update_self]⟩
      · rw [Function.update_of_ne huser]
        rcases List.mem_append.mp hx with hx | hx
        · exact h.covers x hx hx'
        · exact absurd (congrArg _ (List.mem_singleton.mp hx)) huser

theorem leads_bestOf (order : List (RunResult F)) : Leads order (bestOf order) := by
  induction order using List.reverseRecOn with
  | nil => exact ⟨fun _ _ h => (nomatch h), fun _ h => absurd h List.not_mem_nil⟩
  | append_singleton order r ih =>
      rw [bestOf, List.foldl_append]
      exact ih.keepBest r

theorem Champion.perm (hperm : order.Perm runs) (h : Champion order r) : Champion runs r :=
  ⟨hperm.mem_iff.mp h.mem, h.complete, fun r' hr' => h.best r' (hperm.mem_iff.mpr hr')⟩

theorem bestOf_first (h : Champion (r :: order) r) : bestOf (r :: order) r.userID = some r := by
  have hkept : (order.foldl keepBest (keepBest (fun _ => none) r)) r.userID = some r := by
    refine List.foldlRecOn (motive := fun best => best r.userID = some r) order keepBest ?_ ?_
    · rcases keepBest_cases (fun _ => none) r with ⟨-, hpassed⟩ | ⟨heq, -, -⟩
      · obtain ⟨prev, hprev, -⟩ := hpassed h.complete
        exact nomatch hprev
      · rw [heq, Function.update_self]
    · intro best hr x hx
      rcases keepBest_cases best x with ⟨heq, -⟩ | ⟨heq, hcomplete, hprev⟩
      · rw [heq, hr]
      · rw [heq]
        by_cases huser : x.userID = r.userID
        · have hlt := hprev r (huser ▸ hr)
          have hle := h.best x (List.mem_cons_of_mem _ hx) hcomplete huser
          exact absurd hlt hle.not_gt
        · rw [Function.update_of_ne (Ne.symm huser), hr]
  exact hkept

end Best

/-! ## Answers of the fallback -/

section Answers

variable {runs order listing : List (RunResult F)} {r : RunResult F}

theorem Sorted.champion (hperm : order.Perm runs) (h : Sorted (bestOf order) listing)
    (hr : r ∈ listing) : Champion runs r :=
  ((leads_bestOf order).champion _ r ((h.mem_iff r).mp hr)).2.perm hperm

theorem Sorted.nodup_users (h : Sorted (bestOf order) listing) :
    (listing.map fun run => run.userID).Nodup := by
  refine h.nodup.map_on fun a ha b hb huser => ?_
  exact Option.some.inj (((h.mem_iff a).mp ha).symm.trans (huser ▸ (h.mem_iff b).mp hb))

theorem Sorted.covers (hperm : order.Perm runs) (h : Sorted (bestOf order) listing)
    (hr : r ∈ runs) (hcomplete : r.status = .complete) :
    ∃ r' ∈ listing, r'.userID = r.userID := by
  obtain ⟨r', hr'⟩ := (leads_bestOf order).covers r (hperm.mem_iff.mpr hr) hcomplete
  have huser := ((leads_bestOf order).champion _ r' hr').1
  exact ⟨r', (h.mem_iff r').mpr (huser ▸ hr'), huser⟩

def competitors (runs : List (RunResult F)) : List String :=
  ((runs.filter fun r => r.status = .complete).map fun r => r.userID).dedup

omit [LinearOrder F] in
theorem mem_competitors {u : String} : u ∈ competitors runs ↔
    ∃ r ∈ runs, r.status = .complete ∧ r.userID = u := by
  rw [competitors, List.mem_dedup, List.mem_map]
  constructor
  · rintro ⟨r, hr, huser⟩
    obtain ⟨hr, hcomplete⟩ := List.mem_filter.mp hr
    exact ⟨r, hr, of_decide_eq_true hcomplete, huser⟩
  · rintro ⟨r, hr, hcomplete, huser⟩
    exact ⟨r, List.mem_filter.mpr ⟨hr, decide_eq_true hcomplete⟩, huser⟩

theorem Sorted.length_eq (hperm : order.Perm runs) (h : Sorted (bestOf order) listing) :
    listing.length = (competitors runs).length := by
  have husers : (listing.map fun run => run.userID).Perm (competitors runs) := by
    have hnodup : (competitors runs).Nodup := List.nodup_dedup _
    rw [List.perm_ext_iff_of_nodup h.nodup_users hnodup]
    intro u
    rw [mem_competitors, List.mem_map]
    constructor
    · rintro ⟨r, hr, huser⟩
      have hbest := h.champion hperm hr
      exact ⟨r, hbest.mem, hbest.complete, huser⟩
    · rintro ⟨r, hr, hcomplete, rfl⟩
      exact h.covers hperm hr hcomplete
  rw [← husers.length_eq, List.length_map]

/-- By profit, and of equal profit the slower before the faster. -/
def slowFirst (r : RunResult F) : Fᵒᵈ ×ₗ Fᵒᵈ := toLex (toDual r.pnlPct, toDual r.p99NS)

/-- Every champion is in some answer, in one that lists ties the other way round than the
view does. -/
theorem exists_answer (hr : Champion runs r) : ∃ order listing, order.Perm runs ∧
    Sorted (bestOf order) listing ∧ r ∈ listing ∧
    listing.Pairwise fun a b => slowFirst a ≤ slowFirst b := by
  have hperm : (r :: runs.erase r).Perm runs := (List.perm_cons_erase hr.mem).symm
  have hleads := leads_bestOf (r :: runs.erase r)
  let kept := (competitors runs).filterMap (bestOf (r :: runs.erase r))
  have hmem : ∀ x, x ∈ orderBy slowFirst kept ↔ bestOf (r :: runs.erase r) x.userID = some x := by
    intro x
    rw [mem_orderBy, List.mem_filterMap]
    constructor
    · rintro ⟨u, -, hu⟩
      rw [(hleads.champion u x hu).1, hu]
    · intro hx
      have hbest := ((hleads.champion _ x hx).2).perm hperm
      exact ⟨x.userID, mem_competitors.mpr ⟨x, hbest.mem, hbest.complete, rfl⟩, hx⟩
  have hkept : kept.Nodup := by
    refine (List.nodup_dedup _).filterMap fun u v x hu hv => ?_
    rw [← (hleads.champion u x hu).1, (hleads.champion v x hv).1]
  have hsorted := pairwise_orderBy slowFirst kept
  have hlead : Champion (r :: runs.erase r) r := hr.perm hperm.symm
  have hfirst := bestOf_first hlead
  refine ⟨r :: runs.erase r, orderBy slowFirst kept, hperm,
    ⟨(orderBy_perm slowFirst kept).nodup_iff.mpr hkept, hmem, hsorted.imp ?_⟩,
    (hmem r).mpr hfirst, hsorted⟩
  intro a b hab
  rcases Prod.Lex.toLex_le_toLex.mp hab with hlt | ⟨heq, -⟩
  · exact (toDual_lt_toDual.mp hlt).le
  · exact (toDual_inj.mp heq).ge

end Answers

/-! ## The view over stored runs -/

section Stored

variable [Zero F] {rounds : List String} {runs : List (RunResult F)} {roundID : String}

/-- The table once every run is stored. -/
def storedRuns (rounds : List String) (runs : List (RunResult F)) : List (RunRow F) :=
  runs.foldl (persistRun rounds) []

/-- What the view of a round takes into account: no practice runs, and runs of no other
round. -/
structure Counts (rounds : List String) (roundID : String) (r : RunResult F) : Prop where
  official : r.isPractice = false
  here : r.roundID = roundID
  known : roundID ∈ rounds

omit [LinearOrder F] [Zero F] in
theorem mem_storedRuns (hids : (runs.map RunResult.runID).Nodup) {row : RunRow F} :
    row ∈ storedRuns rounds runs ↔
      ∃ r ∈ runs, r.row.referencesRound rounds = true ∧ r.row = row := by
  rw [storedRuns, foldl_persistRun rounds hids fun _ _ _ h => absurd h List.not_mem_nil,
    List.nil_append, List.mem_filter, List.mem_map]
  constructor
  · rintro ⟨⟨r, hr, rfl⟩, href⟩
    exact ⟨r, hr, href, rfl⟩
  · rintro ⟨r, hr, href, rfl⟩
    exact ⟨⟨r, hr, rfl⟩, href⟩

omit [LinearOrder F] [Zero F] in
theorem counts_iff (hne : roundID ≠ "") {r : RunResult F} :
    r.row.referencesRound rounds = true ∧ r.row.roundID = some roundID ↔
      Counts rounds roundID r := by
  have hround : r.row.roundID = some roundID ↔ r.isPractice = false ∧ r.roundID = roundID := by
    change r.storedRound = some roundID ↔ _
    unfold RunResult.storedRound
    split
    · next h =>
        rw [Bool.and_eq_true, Bool.not_eq_true', bne_iff_ne] at h
        rw [Option.some.injEq]
        exact (and_iff_right h.1).symm
    · next h =>
        constructor
        · exact nofun
        · rintro ⟨hofficial, rfl⟩
          refine absurd ?_ h
          rw [hofficial, Bool.not_false, Bool.true_and, bne_iff_ne]
          exact hne
  rw [hround]
  constructor
  · rintro ⟨href, hofficial, hhere⟩
    refine ⟨hofficial, hhere, ?_⟩
    rw [RunRow.referencesRound, hround.mpr ⟨hofficial, hhere⟩] at href
    exact List.contains_iff_mem.mp href
  · rintro ⟨hofficial, hhere, hknown⟩
    refine ⟨?_, hofficial, hhere⟩
    rw [RunRow.referencesRound, hround.mpr ⟨hofficial, hhere⟩]
    exact List.contains_iff_mem.mpr hknown

end Stored

end VidhiArena.Backend
