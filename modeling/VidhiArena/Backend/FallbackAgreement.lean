import Mathlib.Algebra.Ring.Int.Defs
import VidhiArena.Backend.Leaderboard

/-!
# Where the fallback is the leaderboard

The fallback looks neither at the round nor at whether a run is for practice, breaks no ties
and shows everybody.
-/

namespace VidhiArena.Backend

open VidhiArena.Foundation Rows OrderDual

variable {F : Type} [LinearOrder F]

/-! ## Where the answers are the view -/

section Agreement

variable [Zero F] {rounds : List String} {runs : List (RunResult F)} {roundID : String}

/-- No two complete runs have the same profit and the same latency. -/
def Distinguished (runs : List (RunResult F)) : Prop :=
  ∀ r ∈ runs, ∀ r' ∈ runs, r.status = .complete → r'.status = .complete →
    r.pnlPct = r'.pnlPct → r.p99NS = r'.p99NS → r = r'

/-- A row of the view is a run that counts, the best of its user's that do. -/
structure Placed (rounds : List String) (runs : List (RunResult F)) (roundID : String)
    (r : RunResult F) : Prop where
  mem : r ∈ runs
  complete : r.status = .complete
  counts : Counts rounds roundID r
  best : ∀ r' ∈ runs, r'.status = .complete → Counts rounds roundID r' → r'.userID = r.userID →
    r.rankKey ≤ r'.rankKey

omit [LinearOrder F] [Zero F] in
theorem mem_completeRows (hids : (runs.map RunResult.runID).Nodup) (hne : roundID ≠ "")
    {row : RunRow F} :
    row ∈ completeRows (storedRuns rounds runs) ∧ row.roundID = some roundID ↔
      ∃ r ∈ runs, r.status = .complete ∧ Counts rounds roundID r ∧ r.row = row := by
  rw [completeRows, List.mem_filter, mem_storedRuns hids, Bool.and_eq_true, decide_eq_true_eq]
  constructor
  · rintro ⟨⟨⟨r, hr, href, rfl⟩, hcomplete, -⟩, hround⟩
    exact ⟨r, hr, hcomplete, (counts_iff hne).mp ⟨href, hround⟩, rfl⟩
  · rintro ⟨r, hr, hcomplete, hcounts, rfl⟩
    obtain ⟨href, hround⟩ := (counts_iff hne).mpr hcounts
    exact ⟨⟨⟨r, hr, href, rfl⟩, hcomplete, hround ▸ rfl⟩, hround⟩

theorem mem_standing (hids : (runs.map RunResult.runID).Nodup) (hne : roundID ≠ "")
    (hdist : Distinguished runs) {row : RunRow F} :
    row ∈ standing (storedRuns rounds runs) roundID ↔
      ∃ r, Placed rounds runs roundID r ∧ r.row = row := by
  rw [standing, mem_orderBy, List.mem_filter, decide_eq_true_eq, bestRuns]
  constructor
  · rintro ⟨hleast, hround⟩
    obtain ⟨r, hr, hcomplete, hcounts, rfl⟩ :=
      (mem_completeRows hids hne).mp ⟨mem_of_leastOfGroups hleast, hround⟩
    refine ⟨r, ⟨hr, hcomplete, hcounts, fun r' hr' hcomplete' hcounts' huser => ?_⟩, rfl⟩
    obtain ⟨hmem, hround'⟩ := (mem_completeRows hids hne).mpr ⟨r', hr', hcomplete', hcounts', rfl⟩
    have hgroup := userRound_inj.mpr ⟨huser, hround'.trans hround.symm⟩
    have hle := le_of_leastOfGroups hleast hmem hgroup
    exact hle
  · rintro ⟨r, ⟨hr, hcomplete, hcounts, hbest⟩, rfl⟩
    obtain ⟨hmem, hround⟩ := (mem_completeRows hids hne).mpr ⟨r, hr, hcomplete, hcounts, rfl⟩
    have hother : ∀ row ∈ completeRows (storedRuns rounds runs),
        row.userRound = r.row.userRound → ∃ r' ∈ runs, r'.status = .complete ∧
          Counts rounds roundID r' ∧ r'.row = row := fun row hrow h =>
      (mem_completeRows hids hne).mp ⟨hrow, (userRound_inj.mp h).2.trans hround⟩
    refine ⟨(mem_leastOfGroups hmem ?_).mpr ?_, hround⟩
    · intro row hrow h hkey
      obtain ⟨r', hr', hcomplete', -, rfl⟩ := hother row hrow h
      obtain ⟨hpnl, hp99⟩ := rankKey_inj hkey
      rw [hdist r' hr' r hr hcomplete' hcomplete hpnl hp99]
    · intro row hrow h
      obtain ⟨r', hr', hcomplete', hcounts', rfl⟩ := hother row hrow h
      exact hbest r' hr' hcomplete' hcounts' (userRound_inj.mp h).1

/-- What the answer shows of each run, and what the view shows, are the same. -/
theorem shows_eq_of_agree {listing : List (RunResult F)}
    (h : ranked (listing.map fun run => (run.userID, run.toMeasured)) =
      loadLeaderboardFromDB (storedRuns rounds runs) roundID) :
    listing.map (fun r => shows (r.userID, r.toMeasured)) =
      ((standing (storedRuns rounds runs) roundID).take 100).map
        fun row => shows (row.userID, row.toMeasured) := by
  rw [loadLeaderboardFromDB, take_ranked, ← List.map_take] at h
  have hshows := shows_of_ranked_eq h
  rwa [List.map_map, List.map_map] at hshows

theorem placed_of_shows (hids : (runs.map RunResult.runID).Nodup) (hne : roundID ≠ "")
    (hdist : Distinguished runs) {listing : List (RunResult F)} {r : RunResult F}
    (heq : listing.map (fun r => shows (r.userID, r.toMeasured)) =
      ((standing (storedRuns rounds runs) roundID).take 100).map
        fun row => shows (row.userID, row.toMeasured))
    (hr : r ∈ listing) (hmem : r ∈ runs) (hcomplete : r.status = .complete) :
    Placed rounds runs roundID r := by
  have hin : shows (r.userID, r.toMeasured) ∈
      listing.map fun r => shows (r.userID, r.toMeasured) := List.mem_map.mpr ⟨r, hr, rfl⟩
  rw [heq] at hin
  obtain ⟨row, hrow, hshown⟩ := List.mem_map.mp hin
  obtain ⟨r', hplaced, rfl⟩ := (mem_standing hids hne hdist).mp (List.mem_of_mem_take hrow)
  have hpnl : r'.pnlPct = r.pnlPct := congrArg (fun x => x.2.1) hshown
  have hp99 : r'.p99NS = r.p99NS := congrArg (fun x => x.2.2.1) hshown
  obtain rfl := hdist r' hplaced.mem r hmem hplaced.complete hcomplete hpnl hp99
  exact hplaced

/-- The best run of each user is an official run of the queried round, a known one; no two of
these runs have the same profit; and there are at most as many as the view shows. -/
structure Comparable (rounds : List String) (runs : List (RunResult F)) (roundID : String) :
    Prop where
  counts : ∀ r, Champion runs r → Counts rounds roundID r
  untied : ∀ r r', Champion runs r → Champion runs r' → r.pnlPct = r'.pnlPct → r = r'
  short : (competitors runs).length ≤ 100

end Agreement

section Settled

variable [Zero F] {rounds : List String} {runs order listing : List (RunResult F)}
  {roundID : String}

/-- Each place is a champion's, so the view of a comparable cache is the sorted answer. -/
theorem map_row_eq_standing (hids : (runs.map RunResult.runID).Nodup) (hne : roundID ≠ "")
    (hdist : Distinguished runs) (h : Comparable rounds runs roundID)
    (hperm : order.Perm runs) (hsorted : Sorted (bestOf order) listing) :
    listing.map RunResult.row = standing (storedRuns rounds runs) roundID := by
  have hchampion : ∀ r ∈ listing, Champion runs r := fun r hr => hsorted.champion hperm hr
  have hrow : ∀ a ∈ listing, ∀ b ∈ listing, a.row = b.row → a = b := by
    intro a ha b hb heq
    exact List.inj_on_of_nodup_map hids (hchampion a ha).mem (hchampion b hb).mem
      (congrArg RunRow.runID heq)
  have hmem : ∀ row, row ∈ listing.map RunResult.row ↔
      row ∈ standing (storedRuns rounds runs) roundID := by
    intro row
    rw [mem_standing hids hne hdist, List.mem_map]
    constructor
    · rintro ⟨r, hr, rfl⟩
      have hbest := hchampion r hr
      refine ⟨r, ⟨hbest.mem, hbest.complete, h.counts r hbest, ?_⟩, rfl⟩
      intro r' hr' hcomplete' _ huser
      rw [rankKey_le_iff]
      rcases (hbest.best r' hr' hcomplete' huser).lt_or_eq with hlt | heq
      · exact Or.inl hlt
      · -- of equal profit it would be a champion too
        have hbest' : Champion runs r' := ⟨hr', hcomplete', fun x hx hx' hxuser =>
          heq ▸ hbest.best x hx hx' (hxuser.trans huser)⟩
        obtain rfl := h.untied r r' hbest hbest' heq.symm
        exact Or.inr ⟨rfl, le_rfl⟩
    · rintro ⟨r, hplaced, rfl⟩
      obtain ⟨r', hr', huser⟩ := hsorted.covers hperm hplaced.mem hplaced.complete
      have hbest := hchampion r' hr'
      have hle := hbest.best r hplaced.mem hplaced.complete huser.symm
      have hkey := hplaced.best r' hbest.mem hbest.complete (h.counts r' hbest) huser
      rcases rankKey_le_iff.mp hkey with hlt | ⟨heq, -⟩
      · exact absurd hlt hle.not_gt
      · have hbest' : Champion runs r := ⟨hplaced.mem, hplaced.complete, fun x hx hx' hxuser =>
          heq ▸ hbest.best x hx hx' (hxuser.trans huser.symm)⟩
        exact ⟨r', hr', congrArg _ (h.untied r' r hbest hbest' heq.symm)⟩
  have hnodup : (standing (storedRuns rounds runs) roundID).Nodup := by
    refine (orderBy_perm _ _).nodup_iff.mpr (List.Nodup.filter _ ?_)
    exact List.Nodup.of_map _ (nodup_distinctOn _)
  refine eq_of_perm (fun row : RunRow F => row.rankKey) ?_ ?_ ?_ (pairwise_orderBy _ _)
  · exact (List.perm_ext_iff_of_nodup (hsorted.nodup.map_on hrow) hnodup).mpr hmem
  · intro row hr row' hr' hkey
    obtain ⟨a, ha, rfl⟩ := List.mem_map.mp hr
    obtain ⟨b, hb, rfl⟩ := List.mem_map.mp hr'
    rw [h.untied a b (hchampion a ha) (hchampion b hb) (rankKey_inj hkey).1]
  · rw [List.pairwise_map]
    refine hsorted.descending.imp_of_mem fun {a b} ha hb hle => ?_
    change a.rankKey ≤ b.rankKey
    rw [rankKey_le_iff]
    rcases hle.lt_or_eq with hlt | heq
    · exact Or.inl hlt
    · obtain rfl := h.untied b a (hchampion b hb) (hchampion a ha) heq
      exact Or.inr ⟨rfl, le_rfl⟩

/-- Two runs of equal profit cannot be listed both the way of the view and the other way. -/
theorem eq_of_listed (hdist : Distinguished runs) (hchampion : ∀ r ∈ listing, Champion runs r)
    (hview : listing.Pairwise fun a b => a.rankKey ≤ b.rankKey)
    (hslow : listing.Pairwise fun a b => slowFirst a ≤ slowFirst b) {u v : RunResult F}
    (hu : u ∈ listing) (hv : v ∈ listing) (hpnl : u.pnlPct = v.pnlPct) : u = v := by
  have hlisted : ∀ a b : RunResult F, a.pnlPct = b.pnlPct →
      a.rankKey ≤ b.rankKey ∧ slowFirst a ≤ slowFirst b → a.p99NS = b.p99NS := by
    rintro a b heq ⟨hkey, hslow⟩
    refine le_antisymm ?_ ?_
    · rcases rankKey_le_iff.mp hkey with hlt | ⟨-, hle⟩
      · exact absurd heq hlt.ne'
      · exact hle
    · rcases Prod.Lex.toLex_le_toLex.mp hslow with hlt | ⟨-, hle⟩
      · exact absurd heq (toDual_lt_toDual.mp hlt).ne'
      · exact toDual_le_toDual.mp hle
  have hp99 : u.p99NS = v.p99NS := by
    by_contra hne
    obtain ⟨i, hi, rfl⟩ := List.getElem_of_mem hu
    obtain ⟨j, hj, rfl⟩ := List.getElem_of_mem hv
    have hboth := List.pairwise_iff_getElem.mp (hview.and hslow)
    rcases Nat.lt_trichotomy i j with hij | rfl | hij
    · exact hne (hlisted _ _ hpnl (hboth i j hi hj hij))
    · exact hne rfl
    · exact hne (hlisted _ _ hpnl.symm (hboth j i hj hi hij)).symm
  exact hdist u (hchampion u hu).mem v (hchampion v hv).mem (hchampion u hu).complete
    (hchampion v hv).complete hpnl hp99

theorem pairwise_of_shows
    (h : listing.map (fun r => shows (r.userID, r.toMeasured)) =
      ((standing (storedRuns rounds runs) roundID).take 100).map
        fun row => shows (row.userID, row.toMeasured)) :
    listing.Pairwise fun a b => a.rankKey ≤ b.rankKey := by
  let before (x y : String × F × F × Int) : Prop :=
    y.2.1 < x.2.1 ∨ x.2.1 = y.2.1 ∧ x.2.2.1 ≤ y.2.2.1
  have hview : (((standing (storedRuns rounds runs) roundID).take 100).map
      fun row => shows (row.userID, row.toMeasured)).Pairwise before := by
    rw [List.pairwise_map]
    refine ((pairwise_orderBy _ _).sublist (List.take_sublist 100 _)).imp fun {a b} hab => ?_
    have hkey : a.rankKey ≤ b.rankKey := hab
    exact rankKey_le_iff.mp hkey
  rw [← h, List.pairwise_map] at hview
  exact hview.imp fun hab => rankKey_le_iff.mpr hab

theorem comparable_of_agree (hids : (runs.map RunResult.runID).Nodup) (hne : roundID ≠ "")
    (hdist : Distinguished runs) (h : ∀ entries, Fallback runs entries →
      entries = loadLeaderboardFromDB (storedRuns rounds runs) roundID) :
    Comparable rounds runs roundID := by
  have hshows : ∀ {order listing}, order.Perm runs → Sorted (bestOf order) listing →
      listing.map (fun r => shows (r.userID, r.toMeasured)) =
        ((standing (storedRuns rounds runs) roundID).take 100).map
          fun row => shows (row.userID, row.toMeasured) := fun hperm hsorted =>
    shows_eq_of_agree (h _ ⟨_, _, hperm, hsorted, rfl⟩)
  constructor
  · intro r hr
    obtain ⟨order, listing, hperm, hsorted, hin, -⟩ := exists_answer hr
    exact (placed_of_shows hids hne hdist (hshows hperm hsorted) hin hr.mem hr.complete).counts
  · intro u v hu hv hpnl
    obtain ⟨order, listing, hperm, hsorted, hin, hslow⟩ := exists_answer hu
    obtain ⟨order', listing', hperm', hsorted', hin', -⟩ := exists_answer hv
    have hchampion : ∀ r ∈ listing, Champion runs r := fun r hr => hsorted.champion hperm hr
    have hview := hshows hperm hsorted
    -- the other answer is the same view, so `v` is in this one too
    have hv' : v ∈ listing := by
      have hmem : shows (v.userID, v.toMeasured) ∈
          listing'.map fun r => shows (r.userID, r.toMeasured) :=
        List.mem_map.mpr ⟨v, hin', rfl⟩
      rw [hshows hperm' hsorted', ← hview] at hmem
      obtain ⟨v', hv', hshown⟩ := List.mem_map.mp hmem
      have hbest := hchampion v' hv'
      have hpnl : v'.pnlPct = v.pnlPct := congrArg (fun x => x.2.1) hshown
      have hp99 : v'.p99NS = v.p99NS := congrArg (fun x => x.2.2.1) hshown
      obtain rfl := hdist v' hbest.mem v hv.mem hbest.complete hv.complete hpnl hp99
      exact hv'
    exact eq_of_listed hdist hchampion (pairwise_of_shows hview) hslow hin hv' hpnl
  · by_cases hempty : competitors runs = []
    · rw [hempty]
      exact Nat.zero_le _
    · obtain ⟨u, hmem⟩ := List.exists_mem_of_ne_nil _ hempty
      obtain ⟨r, hr, hcomplete, -⟩ := mem_competitors.mp hmem
      obtain ⟨r', hr'⟩ := (leads_bestOf runs).covers r hr hcomplete
      obtain ⟨order, listing, hperm, hsorted, -⟩ :=
        exists_answer ((leads_bestOf runs).champion _ r' hr').2
      have hlen := congrArg List.length (hshows hperm hsorted)
      rw [List.length_map, List.length_map, List.length_take, hsorted.length_eq hperm] at hlen
      exact hlen.trans_le (Nat.min_le_left 100 _)

/-- The fallback answers what the view shows exactly when the best run of each user is an
official run of the round, no two of these have the same profit, and they fit the view. -/
theorem fallback_agrees_iff (hids : (runs.map RunResult.runID).Nodup) (hne : roundID ≠ "")
    (hdist : Distinguished runs) :
    (∀ entries, Fallback runs entries →
      entries = loadLeaderboardFromDB (storedRuns rounds runs) roundID) ↔
    Comparable rounds runs roundID := by
  constructor
  · exact comparable_of_agree hids hne hdist
  · rintro h entries ⟨order, listing, hperm, hsorted, rfl⟩
    have hrows := map_row_eq_standing hids hne hdist h hperm hsorted
    have hshort : (standing (storedRuns rounds runs) roundID).length ≤ 100 := by
      rw [← hrows, List.length_map, hsorted.length_eq hperm]
      exact h.short
    rw [loadLeaderboardFromDB, take_ranked, ← List.map_take, List.take_of_length_le hshort, ← hrows,
      List.map_map]
    rfl

end Settled

/-! ## Two caches -/

/-- Two complete runs of the first round. -/
def officialRuns : List (RunResult Int) :=
  [⟨⟨5, 5, 1, 2, 3, 7, 10, 0, 1, 0⟩, "run_a", "alice", "round1", false, .complete, 1, 2⟩,
    ⟨⟨9, 9, 1, 2, 4, 8, 10, 0, 1, 0⟩, "run_b", "bob", "round1", false, .complete, 1, 2⟩]

theorem fallback_agrees_official :
    Distinguished officialRuns ∧ ∀ entries, Fallback officialRuns entries →
      entries = loadLeaderboardFromDB (storedRuns ["round1", "round2"] officialRuns) "round1" := by
  have hdist : Distinguished officialRuns := by
    unfold Distinguished
    decide +kernel
  refine ⟨hdist, (fallback_agrees_iff (by decide +kernel) (by decide) hdist).mpr
    ⟨?_, ?_, by decide +kernel⟩⟩
  · rintro r ⟨hr, -, -⟩
    have hall : ∀ r ∈ officialRuns, r.isPractice = false ∧ r.roundID = "round1" := by
      decide +kernel
    exact ⟨(hall r hr).1, (hall r hr).2, by decide⟩
  · rintro r r' ⟨hr, -, -⟩ ⟨hr', -, -⟩ hpnl
    have hall : ∀ r ∈ officialRuns, ∀ r' ∈ officialRuns, r.pnlPct = r'.pnlPct → r = r' := by
      decide +kernel
    exact hall r hr r' hr' hpnl

def practiceRun : RunResult Int :=
  ⟨⟨5, 5, 1, 2, 3, 7, 10, 0, 1, 0⟩, "run_a", "alice", "round1", true, .complete, 1, 2⟩

/-- The fallback lists a practice run; the view does not. -/
theorem practice_run_listed :
    Fallback [practiceRun] [⟨1, "alice", 5, 3, 7⟩] ∧
      loadLeaderboardFromDB (storedRuns ["round1", "round2"] [practiceRun]) "round1" = [] := by
  refine ⟨⟨[practiceRun], [practiceRun], List.Perm.refl _, ⟨List.nodup_singleton _, ?_, ?_⟩, rfl⟩,
    by decide +kernel⟩
  · intro run
    rw [List.mem_singleton]
    constructor
    · rintro rfl
      rfl
    · intro h
      exact List.mem_singleton.mp ((leads_bestOf [practiceRun]).champion _ run h).2.mem
  · exact List.pairwise_singleton _ _

end VidhiArena.Backend
