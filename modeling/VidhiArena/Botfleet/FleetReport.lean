import Mathlib.Algebra.Order.BigOperators.Group.List
import VidhiArena.Foundation.DoubleCount
import VidhiArena.Foundation.OrderStatistic
import VidhiArena.Foundation.Processes

/-!
# What a fleet reports

`sendOrders`, `percentiles`, `stat` and the goroutines of `Fleet.run` in `bot-fleet/main.go`:
any number of bots and the goroutine that sends a snapshot every 200 ms. A step is one
operation on an atomic counter, or what is done under `latMu`; the ticks of the tickers, the
answers of the sandbox and the order of the steps are arbitrary. The counters are far from 2⁶³
in the ten minutes of a fleet, and are taken as numbers.

A snapshot never reports more orders than its bots do (`reports_consistent`), and its
percentiles are order statistics of the last 5000 latencies.
-/

namespace VidhiArena.Botfleet

open VidhiArena.Foundation DoubleCount

variable {α : Type} [LinearOrder α]

/-! ## Percentiles -/

/-- The inner loop: `lats[j]` moves down until the one before is not greater. -/
def sink : Nat → List α → List α
  | 0, lats => lats
  | j + 1, lats =>
      match lats[j]?, lats[j + 1]? with
      | some y, some x => if x < y then sink j ((lats.set j x).set (j + 1) y) else lats
      | _, _ => lats

/-- The loops of `percentiles`. -/
def sortLoop (lats : List α) : List α :=
  (List.range' 1 (lats.length - 1)).foldl (fun lats i => sink i lats) lats

structure Percentiles (α : Type) where
  p50 : α
  p95 : α
  p99 : α

/-- `percentiles`; `none` stands for three zeros. -/
def percentiles (allLatencies : List α) : Option (Percentiles α) :=
  let n := allLatencies.length
  let lats := sortLoop allLatencies
  match lats[fraction half n]?, lats[fraction ninetyFifth n]?, lats[fraction ninetyNinth n]? with
  | some p50, some p95, some p99 => some ⟨p50, p95, p99⟩
  | _, _, _ => none

/-- What `sendOrders` does under `latMu`. -/
def record (allLatencies : List α) (latency : α) : List α :=
  let lats := allLatencies ++ [latency]
  if 5000 < lats.length then lats.drop (lats.length - 5000) else lats

/-! ## The fleet -/

/-- The three counters that a bot has, and the fleet: orders, fills and errors. -/
abbrev Counters := Nat × Int × Nat

/-- `Add` on one of them. -/
inductive Count where
  | bot (n : Counters)
  | fleet (n : Counters)

/-- What follows on `sendOrders` of so many orders, with the number of fills or with an error. -/
def countsOf (orders : Nat) : Option Int → List Count
  | some fills =>
      [.bot (orders, 0, 0), .bot (0, fills, 0), .fleet (orders, 0, 0), .fleet (0, fills, 0)]
  | none => [.bot (0, 0, 1), .fleet (0, 0, 1)]

structure Bot where
  /-- `orderCount`, `fillCount`, `errCount` -/
  counters : Counters
  /-- what is left to do before the next orders -/
  todo : List Count

structure BotStat where
  botId : Nat
  orders : Nat
  fills : Int

structure TelemetrySnap (α : Type) where
  totalOrders : Nat
  totalFills : Int
  errorCount : Nat
  /-- `p50_ms`, `p95_ms`, `p99_ms` -/
  ms : Option (Percentiles α)
  /-- `cur - lastOrders`, of which `current_tps` is the rate -/
  newOrders : Int
  bots : List BotStat

/-- What the telemetry goroutine has read for its next snapshot. -/
structure Reading (α : Type) where
  /-- `cur` -/
  totalOrders : Nat
  newOrders : Int
  ms : Option (Percentiles α)
  bots : List BotStat

/-- Where the telemetry goroutine is. -/
inductive Teller (α : Type) where
  /-- before `f.totalOrders.Load()` -/
  | waiting
  /-- before `f.percentiles()` -/
  | loaded (totalOrders : Nat) (newOrders : Int)
  /-- before `stat()` of the next bot, or `f.totalFills.Load()` -/
  | telling (r : Reading α)
  /-- before `fillCount.Load()` of the next bot -/
  | halfTold (r : Reading α) (orders : Nat)
  /-- before `f.totalErrors.Load()` -/
  | closing (r : Reading α) (fills : Int)

structure FleetState (α : Type) where
  bots : List Bot
  /-- `totalOrders`, `totalFills`, `totalErrors` -/
  totals : Counters
  allLatencies : List α
  /-- every latency there has been, the last one at the end; only for the statements -/
  history : List α
  teller : Teller α
  lastOrders : Nat
  /-- what has gone to `telemetryCh` -/
  sent : List (TelemetrySnap α)

inductive FleetMove (α : Type) where
  /-- `sendOrders` of bot `b` comes back -/
  | answer (b : Nat) (orders : Nat) (latency : α) (fills : Option Int)
  /-- bot `b` counts on -/
  | count (b : Nat)
  /-- the telemetry goroutine goes on -/
  | tell

namespace FleetState

def init (bots : Nat) : FleetState α :=
  ⟨List.replicate bots ⟨0, []⟩, 0, [], [], .waiting, 0, []⟩

def answer (s : FleetState α) (b : Nat) (counts : List Count) (latency : α) : Bot → FleetState α
  | ⟨counters, []⟩ =>
      { s with
        bots := s.bots.set b ⟨counters, counts⟩
        allLatencies := record s.allLatencies latency
        history := s.history ++ [latency] }
  | _ => s

def count (s : FleetState α) (b : Nat) : Bot → FleetState α
  | ⟨counters, .bot n :: todo⟩ => { s with bots := s.bots.set b ⟨counters + n, todo⟩ }
  | ⟨counters, .fleet n :: todo⟩ =>
      { s with bots := s.bots.set b ⟨counters, todo⟩, totals := s.totals + n }
  | ⟨_, []⟩ => s

def tell (s : FleetState α) : Teller α → FleetState α
  | .waiting =>
      { s with
        teller := .loaded s.totals.1 (s.totals.1 - s.lastOrders)
        lastOrders := s.totals.1 }
  | .loaded totalOrders newOrders =>
      { s with teller := .telling ⟨totalOrders, newOrders, percentiles s.allLatencies, []⟩ }
  | .telling r =>
      match s.bots[r.bots.length]? with
      | some b => { s with teller := .halfTold r b.counters.1 }
      | none => { s with teller := .closing r s.totals.2.1 }
  | .halfTold r orders =>
      match s.bots[r.bots.length]? with
      | some b =>
          let stat := ⟨r.bots.length, orders, b.counters.2.1⟩
          { s with teller := .telling { r with bots := r.bots ++ [stat] } }
      | none => s
  | .closing r fills =>
      { s with
        teller := .waiting
        sent := s.sent ++
          [⟨r.totalOrders, fills, s.totals.2.2, r.ms, r.newOrders, r.bots⟩] }

def step (s : FleetState α) : FleetMove α → FleetState α
  | .answer b orders latency fills =>
      (s.bots[b]?).elim s (s.answer b (countsOf orders fills) latency)
  | .count b => (s.bots[b]?).elim s (s.count b)
  | .tell => s.tell s.teller

def run (bots : Nat) (moves : List (FleetMove α)) : FleetState α := moves.foldl step (init bots)

end FleetState

/-! ## The sort -/

section Sorting

/-- The inner loop inserts the element behind a sorted list into it. -/
theorem sink_insert {pre : List α} (hsorted : pre.Pairwise (· ≤ ·)) (x : α) : ∀ post : List α,
    ∃ l : List α, sink pre.length (pre ++ x :: post) = l ++ post ∧ l.Perm (pre ++ [x]) ∧
      l.Pairwise (· ≤ ·) := by
  induction pre using List.reverseRecOn with
  | nil => exact fun post => ⟨[x], rfl, List.Perm.refl _, List.pairwise_singleton _ x⟩
  | append_singleton pre y ih =>
      intro post
      obtain ⟨hpre, -, hlast⟩ := List.pairwise_append.mp hsorted
      have hy : ∀ a ∈ pre, a ≤ y := fun a ha => hlast a ha y (List.mem_singleton_self y)
      have hlength : (pre ++ [y]).length = pre.length + 1 := by simp
      have hleft : (pre ++ [y] ++ x :: post)[pre.length]? = some y := by simp
      have hright : (pre ++ [y] ++ x :: post)[pre.length + 1]? = some x := by
        rw [← hlength, List.getElem?_append_right le_rfl, Nat.sub_self]
        rfl
      rw [hlength, sink, hleft, hright]
      dsimp only
      by_cases hlt : x < y
      · -- the two change places, and the loop goes on
        rw [if_pos hlt]
        have hswap : ((pre ++ [y] ++ x :: post).set pre.length x).set (pre.length + 1) y =
            pre ++ x :: y :: post := by
          simp
        obtain ⟨l, hl, hperm, hpair⟩ := ih hpre (y :: post)
        refine ⟨l ++ [y], ?_, ?_, ?_⟩
        · rw [hswap, hl, List.append_assoc]
          rfl
        · refine (hperm.append_right [y]).trans ?_
          rw [List.append_assoc, List.append_assoc]
          exact (List.Perm.swap y x []).append_left pre
        · refine List.pairwise_append.mpr ⟨hpair, List.pairwise_singleton _ y, fun a ha b hb => ?_⟩
          rw [List.mem_singleton.mp hb]
          rcases List.mem_append.mp (hperm.subset ha) with ha | ha
          · exact hy a ha
          · exact (List.mem_singleton.mp ha).le.trans hlt.le
      · rw [if_neg hlt]
        refine ⟨pre ++ [y] ++ [x], by simp, List.Perm.refl _, ?_⟩
        refine List.pairwise_append.mpr ⟨hsorted, List.pairwise_singleton _ x, fun a ha b hb => ?_⟩
        rw [List.mem_singleton.mp hb]
        rcases List.mem_append.mp ha with ha | ha
        · exact (hy a ha).trans (not_lt.mp hlt)
        · exact (List.mem_singleton.mp ha).le.trans (not_lt.mp hlt)

/-- The invariant of the outer loop: the elements before `i` are sorted, the others untouched. -/
theorem sortLoop_prefix (lats : List α) : ∀ m, m < lats.length →
    ∃ l : List α, (List.range' 1 m).foldl (fun lats i => sink i lats) lats =
      l ++ lats.drop (m + 1) ∧ l.Perm (lats.take (m + 1)) ∧ l.Pairwise (· ≤ ·) := by
  intro m
  induction m with
  | zero =>
      intro hlt
      cases lats with
      | nil => exact absurd hlt (Nat.lt_irrefl 0)
      | cons x lats => exact ⟨[x], rfl, List.Perm.refl _, List.pairwise_singleton _ x⟩
  | succ m ih =>
      intro hlt
      obtain ⟨l, hl, hperm, hpair⟩ := ih (Nat.lt_of_succ_lt hlt)
      have hlength : l.length = m + 1 := by
        rw [hperm.length_eq, List.length_take, min_eq_left hlt.le]
      have hdrop := List.drop_eq_getElem_cons hlt
      obtain ⟨l', hl', hperm', hpair'⟩ := sink_insert hpair lats[m + 1] (lats.drop (m + 2))
      refine ⟨l', ?_, ?_, hpair'⟩
      · have hplace : 1 + m = l.length := by omega
        rw [List.range'_1_concat, List.foldl_append, hl, hdrop, hplace]
        exact hl'
      · refine hperm'.trans ((hperm.append_right _).trans ?_)
        rw [List.take_concat_get' _ _ hlt]

theorem sortLoop_eq (lats : List α) : sortLoop lats = sorted lats := by
  have hsort : (sortLoop lats).Perm lats ∧ (sortLoop lats).Pairwise (· ≤ ·) := by
    cases hlats : lats with
    | nil => exact ⟨List.Perm.refl _, List.Pairwise.nil⟩
    | cons x rest =>
        obtain ⟨l, hl, hperm, hpair⟩ := sortLoop_prefix (x :: rest) rest.length (Nat.lt_succ_self _)
        have hall : (x :: rest).length ≤ rest.length + 1 := le_rfl
        rw [List.drop_of_length_le hall, List.append_nil] at hl
        rw [List.take_of_length_le hall] at hperm
        rw [sortLoop, List.length_cons, Nat.add_sub_cancel, hl]
        exact ⟨hperm, hpair⟩
  -- there is only one sorted row of these elements
  exact (hsort.1.trans (sorted_perm lats).symm).eq_of_pairwise (fun _ _ _ _ => le_antisymm) hsort.2
    (sorted_pairwise lats)

end Sorting

/-! ## The percentiles -/

theorem fraction_ninetyFifth {n : Nat} (h : n ≤ 5000) : fraction ninetyFifth n = 19 * n / 20 :=
  fraction_eq_of_below (by decide) (by decide) (by decide) (by omega)

theorem fraction_ninetyNinth {n : Nat} (h : n ≤ 5000) : fraction ninetyNinth n = 99 * n / 100 :=
  fraction_eq_of_below (by decide) (by decide) (by decide) (by omega)

/-- What the three percentiles of some latencies are. -/
structure Percentiles.Of (p : Percentiles α) (lats : List α) : Prop where
  p50 : IsKth lats (lats.length / 2 + 1) p.p50
  p95 : IsKth lats (19 * lats.length / 20 + 1) p.p95
  p99 : IsKth lats (99 * lats.length / 100 + 1) p.p99

theorem percentiles_nil : percentiles ([] : List α) = none := by
  have hsort : sortLoop ([] : List α) = [] := rfl
  unfold percentiles
  dsimp only
  rw [hsort, List.getElem?_nil]

theorem percentiles_of {lats : List α} (hne : lats ≠ []) (hlen : lats.length ≤ 5000) :
    ∃ p, percentiles lats = some p ∧ p.Of lats := by
  have hpos := List.length_pos_iff.mpr hne
  have hplace : ∀ t < lats.length, ∃ v, (sorted lats)[t]? = some v ∧ IsKth lats (t + 1) v := by
    intro t ht
    obtain ⟨v, hv⟩ := IsKth.exists_of_le (Nat.succ_pos t) ht
    exact ⟨v, hv.2, hv⟩
  obtain ⟨p50, h50, hkth50⟩ := hplace (lats.length / 2) (by omega)
  obtain ⟨p95, h95, hkth95⟩ := hplace (19 * lats.length / 20) (by omega)
  obtain ⟨p99, h99, hkth99⟩ := hplace (99 * lats.length / 100) (by omega)
  refine ⟨⟨p50, p95, p99⟩, ?_, hkth50, hkth95, hkth99⟩
  unfold percentiles
  dsimp only
  rw [sortLoop_eq, fraction_half_of_small (by omega), fraction_ninetyFifth hlen,
    fraction_ninetyNinth hlen, h50, h95, h99]

theorem Percentiles.Of.sorted {p : Percentiles α} {lats : List α} (h : p.Of lats) :
    p.p50 ≤ p.p95 ∧ p.p95 ≤ p.p99 :=
  ⟨h.p50.mono h.p95 (by omega), h.p95.mono h.p99 (by omega)⟩

section Window

omit [LinearOrder α]

def window (history : List α) : List α := history.drop (history.length - 5000)

theorem window_length (history : List α) : (window history).length = min history.length 5000 := by
  rw [window, List.length_drop]
  omega

theorem record_window (history : List α) (latency : α) :
    record (window history) latency = window (history ++ [latency]) := by
  have hall : (history ++ [latency]).length = history.length + 1 := List.length_append
  have hlength : (window history ++ [latency]).length = min history.length 5000 + 1 := by
    rw [List.length_append, window_length]
    rfl
  have happend : window history ++ [latency] =
      (history ++ [latency]).drop (history.length - 5000) :=
    (List.drop_append_of_le_length (Nat.sub_le ..)).symm
  rw [record, hlength, happend, List.drop_drop, window, hall]
  by_cases hlong : 5000 < min history.length 5000 + 1
  · rw [if_pos hlong, show history.length - 5000 + (min history.length 5000 + 1 - 5000) =
      history.length + 1 - 5000 by omega]
  · rw [if_neg hlong, show history.length - 5000 = history.length + 1 - 5000 by omega]

end Window

/-! ## The counters -/

namespace Count

/-- What it adds to the counters of its bot. -/
def toBot : Count → Counters
  | bot n => n
  | fleet _ => 0

/-- What it adds to those of the fleet. -/
def toFleet : Count → Counters
  | bot _ => 0
  | fleet n => n

end Count

/-- The counters of a bot when it is done with its answer. -/
def Bot.settled (b : Bot) : Counters := b.counters + (b.todo.map Count.toBot).sum

/-- What a bot has still to add to the counters of the fleet. -/
def Bot.due (b : Bot) : Counters := (b.todo.map Count.toFleet).sum

/-- The bot is somewhere in an answer. -/
def Bot.Midway (b : Bot) : Prop := ∃ orders fills, b.todo <:+ countsOf orders fills

theorem countsOf_balanced (orders : Nat) (fills : Option Int) :
    ((countsOf orders fills).map Count.toBot).sum =
      ((countsOf orders fills).map Count.toFleet).sum := by
  cases fills with
  | some fills => simp [countsOf, Count.toBot, Count.toFleet]
  | none => simp [countsOf, Count.toBot, Count.toFleet]

theorem Bot.Midway.orders_le {b : Bot} (h : b.Midway) : b.settled.1 ≤ b.counters.1 + b.due.1 := by
  obtain ⟨orders, fills, hsuffix⟩ := h
  unfold settled due
  rw [Prod.fst_add]
  refine Nat.add_le_add_left ?_ _
  revert hsuffix
  generalize b.todo = todo
  intro hsuffix
  cases fills with
  | some fills =>
      simp only [countsOf, List.suffix_cons_iff, List.suffix_nil] at hsuffix
      rcases hsuffix with rfl | rfl | rfl | rfl | rfl <;> simp [Count.toBot, Count.toFleet]
  | none =>
      simp only [countsOf, List.suffix_cons_iff, List.suffix_nil] at hsuffix
      rcases hsuffix with rfl | rfl | rfl <;> simp [Count.toBot, Count.toFleet]

def ordersOf (bots : List Bot) : Nat := (bots.map fun b => b.counters.1).sum

/-- The orders that the statistics report. -/
def told (stats : List BotStat) : Nat := (stats.map BotStat.orders).sum

theorem told_append (stats : List BotStat) (stat : BotStat) :
    told (stats ++ [stat]) = told stats + stat.orders := by
  simp [told]

def Grown (bots bots' : List Bot) : Prop :=
  List.Forall₂ (fun b b' => b.counters.1 ≤ b'.counters.1) bots bots'

theorem Grown.set {bots : List Bot} {i : Nat} {b b' : Bot} (hb : bots[i]? = some b)
    (hle : b.counters.1 ≤ b'.counters.1) : Grown bots (bots.set i b') := by
  refine List.forall₂_iff_get.mpr ⟨List.length_set.symm, fun j hj hj' => ?_⟩
  rw [List.get_eq_getElem, List.get_eq_getElem, List.getElem_set]
  split
  · rename_i heq
    subst heq
    obtain rfl := Option.some.inj ((List.getElem?_eq_getElem hj).symm.trans hb)
    exact hle
  · exact le_rfl

theorem Grown.ordersOf_drop {bots bots' : List Bot} (h : Grown bots bots') (k : Nat) :
    ordersOf (bots.drop k) ≤ ordersOf (bots'.drop k) :=
  List.Forall₂.sum_le_sum (List.forall₂_map_left_iff.mpr
    (List.forall₂_map_right_iff.mpr (List.forall₂_drop k h)))

theorem Grown.length_eq {bots bots' : List Bot} (h : Grown bots bots') :
    bots'.length = bots.length := (List.Forall₂.length_eq h).symm

/-! ## The snapshot in the making -/

/-- What has been read: `last` is `lastOrders`, `sum` the orders of the snapshots before. -/
structure Reading.Ok (history : List α) (last : Nat) (sum : Int) (r : Reading α) : Prop where
  last : r.totalOrders = last
  sum : sum + r.newOrders = r.totalOrders
  new : 0 ≤ r.newOrders
  latencies : ∃ pre, pre <+: history ∧ r.ms = percentiles (window pre)

/-- The total does not exceed what the bots have reported and what they will report. -/
def Teller.Ok (bots : List Bot) (history : List α) (last : Nat) (sum : Int) : Teller α → Prop
  | waiting => sum = last
  | loaded total new => total = last ∧ sum + new = total ∧ 0 ≤ new ∧ total ≤ ordersOf bots
  | telling r => r.Ok history last sum ∧ r.bots.length ≤ bots.length ∧
      r.totalOrders ≤ told r.bots + ordersOf (bots.drop r.bots.length)
  | halfTold r orders => r.Ok history last sum ∧ r.bots.length < bots.length ∧
      r.totalOrders ≤ told r.bots + (orders + ordersOf (bots.drop (r.bots.length + 1)))
  | closing r _ => r.Ok history last sum ∧ r.bots.length = bots.length ∧
      r.totalOrders ≤ told r.bots

theorem Reading.Ok.mono {history history' : List α} {last : Nat} {sum : Int} {r : Reading α}
    (h : r.Ok history last sum) (hhistory : history <+: history') : r.Ok history' last sum := by
  obtain ⟨pre, hpre, hp⟩ := h.latencies
  exact ⟨h.last, h.sum, h.new, pre, hpre.trans hhistory, hp⟩

theorem Teller.Ok.mono {bots bots' : List Bot} {history history' : List α} {last : Nat} {sum : Int}
    {t : Teller α} (h : t.Ok bots history last sum) (hbots : Grown bots bots')
    (hhistory : history <+: history') : t.Ok bots' history' last sum := by
  have hlength := hbots.length_eq
  cases t with
  | waiting => exact h
  | loaded total new =>
      obtain ⟨hlast, hsum, hnew, hle⟩ := h
      exact ⟨hlast, hsum, hnew, hle.trans (hbots.ordersOf_drop 0)⟩
  | telling r =>
      obtain ⟨hr, hlen, hle⟩ := h
      have := hbots.ordersOf_drop r.bots.length
      exact ⟨hr.mono hhistory, hlength ▸ hlen, by omega⟩
  | halfTold r orders =>
      obtain ⟨hr, hlen, hle⟩ := h
      have := hbots.ordersOf_drop (r.bots.length + 1)
      exact ⟨hr.mono hhistory, hlength ▸ hlen, by omega⟩
  | closing r fills =>
      obtain ⟨hr, hlen, hle⟩ := h
      exact ⟨hr.mono hhistory, hlen.trans hlength.symm, hle⟩

/-! ## The invariant -/

/-- What is claimed of a snapshot. -/
structure TelemetrySnap.Consistent (bots : Nat) (history : List α) (snap : TelemetrySnap α) :
    Prop where
  complete : snap.bots.length = bots
  orders : snap.totalOrders ≤ told snap.bots
  new : 0 ≤ snap.newOrders
  latencies : ∃ pre, pre <+: history ∧ snap.ms = percentiles (window pre)

namespace FleetState

structure Balanced (bots : Nat) (s : FleetState α) : Prop where
  size : s.bots.length = bots
  midway : ∀ b ∈ s.bots, b.Midway
  counters : s.totals + (s.bots.map Bot.due).sum = (s.bots.map Bot.settled).sum
  latencies : s.allLatencies = window s.history
  last : s.lastOrders ≤ s.totals.1
  teller : s.teller.Ok s.bots s.history s.lastOrders (s.sent.map TelemetrySnap.newOrders).sum
  sent : ∀ snap ∈ s.sent, snap.Consistent bots s.history
  latest : ∀ snap, s.sent.getLast? = some snap →
    (s.sent.map TelemetrySnap.newOrders).sum = snap.totalOrders

variable {bots : Nat} {s : FleetState α}

theorem balanced_init (bots : Nat) : (init bots : FleetState α).Balanced bots where
  size := List.length_replicate
  midway b hb := by
    rw [List.eq_of_mem_replicate hb]
    exact ⟨0, none, List.nil_suffix⟩
  counters := by simp [init, Bot.due, Bot.settled]
  latencies := (List.drop_nil (i := _)).symm
  last := le_rfl
  teller := rfl
  sent := nofun
  latest := nofun

theorem Balanced.totalOrders_le (h : s.Balanced bots) : s.totals.1 ≤ ordersOf s.bots := by
  have hsettled : ((s.bots.map Bot.settled).sum).1 ≤
      ordersOf s.bots + ((s.bots.map Bot.due).sum).1 := by
    have hmidway := h.midway
    revert hmidway
    generalize s.bots = bs
    intro hmidway
    induction bs with
    | nil => exact le_rfl
    | cons b bs ih =>
        have hb := (hmidway b List.mem_cons_self).orders_le
        have hbs := ih fun b' hb' => hmidway b' (List.mem_cons_of_mem _ hb')
        simp only [ordersOf, List.map_cons, List.sum_cons, Prod.fst_add] at *
        omega
  have hcounters := congrArg Prod.fst h.counters
  rw [Prod.fst_add] at hcounters
  omega

/-- A step of a bot: neither the telemetry goroutine nor what it has sent is touched. -/
theorem Balanced.bot_step (h : s.Balanced bots) {s' : FleetState α} {i : Nat} {b : Bot}
    (hb : s.bots[i]? = some b) (b' : Bot) (hbots : s'.bots = s.bots.set i b')
    (hle : b.counters.1 ≤ b'.counters.1) (hmidway : b'.Midway) {n : Counters}
    (htotals : s'.totals = s.totals + n) (hdue : n + b'.due + b.settled = b'.settled + b.due)
    (hlatencies : s'.allLatencies = window s'.history) (hhistory : s.history <+: s'.history)
    (hteller : s'.teller = s.teller) (hlast : s'.lastOrders = s.lastOrders)
    (hsent : s'.sent = s.sent) : s'.Balanced bots where
  size := by rw [hbots, List.length_set, h.size]
  midway c hc := by
    rw [hbots] at hc
    rcases List.mem_or_eq_of_mem_set hc with hc | rfl
    · exact h.midway c hc
    · exact hmidway
  counters := by
    have hdues := sum_map_set Bot.due hb b'
    have hsettled := sum_map_set Bot.settled hb b'
    rw [htotals, hbots]
    -- the old bot is added to both sides, so that no sum is without a bot
    refine add_right_cancel (b := b.due + b.settled) ?_
    calc s.totals + n + ((s.bots.set i b').map Bot.due).sum + (b.due + b.settled)
        = s.totals + n + (((s.bots.set i b').map Bot.due).sum + b.due) + b.settled := by ac_rfl
      _ = s.totals + (s.bots.map Bot.due).sum + (n + b'.due + b.settled) := by
          rw [hdues]
          ac_rfl
      _ = (s.bots.map Bot.settled).sum + b'.settled + b.due := by
          rw [h.counters, hdue]
          ac_rfl
      _ = ((s.bots.set i b').map Bot.settled).sum + (b.due + b.settled) := by
          rw [← hsettled]
          ac_rfl
  latencies := hlatencies
  last := by
    rw [hlast, htotals, Prod.fst_add]
    exact h.last.trans (Nat.le_add_right ..)
  teller := by
    rw [hteller, hlast, hsent, hbots]
    exact h.teller.mono (.set hb hle) hhistory
  sent snap hsnap := by
    rw [hsent] at hsnap
    obtain ⟨hcomplete, horders, hnew, pre, hpre, hp⟩ := h.sent snap hsnap
    exact ⟨hcomplete, horders, hnew, pre, hpre.trans hhistory, hp⟩
  latest := by
    rw [hsent]
    exact h.latest

theorem Balanced.answer (h : s.Balanced bots) {i : Nat} {b : Bot} (hb : s.bots[i]? = some b)
    (orders : Nat) (fills : Option Int) (latency : α) :
    (s.answer i (countsOf orders fills) latency b).Balanced bots := by
  obtain ⟨counters, todo⟩ := b
  cases todo with
  | cons c todo => exact h
  | nil =>
      refine h.bot_step (n := 0) hb ⟨counters, countsOf orders fills⟩ rfl le_rfl
        ⟨orders, fills, List.suffix_refl _⟩ (add_zero _).symm ?_ ?_ (List.prefix_append ..)
        rfl rfl rfl
      · simp only [Bot.due, Bot.settled, List.map_nil, List.sum_nil, countsOf_balanced]
        ac_rfl
      · have hrecord := record_window s.history latency
        rw [← h.latencies] at hrecord
        exact hrecord

theorem Balanced.count (h : s.Balanced bots) {i : Nat} {b : Bot} (hb : s.bots[i]? = some b) :
    (s.count i b).Balanced bots := by
  obtain ⟨counters, todo⟩ := b
  obtain ⟨orders, fills, hsuffix⟩ := h.midway _ (List.mem_of_getElem? hb)
  cases todo with
  | nil => exact h
  | cons c todo =>
      have hrest : todo <:+ countsOf orders fills := (List.suffix_cons c todo).trans hsuffix
      cases c with
      | bot n =>
          refine h.bot_step (n := 0) hb ⟨counters + n, todo⟩ rfl ?_ ⟨orders, fills, hrest⟩
            (add_zero _).symm ?_ h.latencies (List.prefix_refl _) rfl rfl rfl
          · exact Nat.le_add_right ..
          · simp only [Bot.due, Bot.settled, List.map_cons, List.sum_cons, Count.toBot,
              Count.toFleet]
            ac_rfl
      | fleet n =>
          refine h.bot_step (n := n) hb ⟨counters, todo⟩ rfl le_rfl ⟨orders, fills, hrest⟩
            rfl ?_ h.latencies (List.prefix_refl _) rfl rfl rfl
          simp only [Bot.due, Bot.settled, List.map_cons, List.sum_cons, Count.toBot,
            Count.toFleet]
          ac_rfl

theorem Balanced.teller_step (h : s.Balanced bots) {t : Teller α} {last : Nat}
    (hlast : last ≤ s.totals.1)
    (ht : t.Ok s.bots s.history last (s.sent.map TelemetrySnap.newOrders).sum) :
    Balanced bots { s with teller := t, lastOrders := last } :=
  ⟨h.size, h.midway, h.counters, h.latencies, hlast, ht, h.sent, h.latest⟩

theorem Balanced.tell (h : s.Balanced bots) : (s.tell s.teller).Balanced bots := by
  have hteller := h.teller
  cases ht : s.teller with
  | waiting =>
      rw [ht] at hteller
      have hsum : (s.sent.map TelemetrySnap.newOrders).sum = s.lastOrders := hteller
      have hlast := h.last
      refine h.teller_step le_rfl ⟨rfl, ?_, ?_, h.totalOrders_le⟩
      · omega
      · omega
  | loaded total new =>
      rw [ht] at hteller
      obtain ⟨hlast, hsum, hnew, hle⟩ := hteller
      refine h.teller_step h.last ⟨⟨hlast, hsum, hnew, s.history, List.prefix_refl _, ?_⟩, ?_, ?_⟩
      · exact congrArg percentiles h.latencies
      · exact Nat.zero_le _
      · exact hle.trans (Nat.le_add_left ..)
  | telling r =>
      rw [ht] at hteller
      obtain ⟨hr, hlen, hle⟩ := hteller
      rw [FleetState.tell]
      cases hb : s.bots[r.bots.length]? with
      | some b =>
          -- its count is the head of what is still to be reported
          obtain ⟨hlt, rfl⟩ := List.getElem?_eq_some_iff.mp hb
          refine h.teller_step h.last ⟨hr, hlt, ?_⟩
          rw [List.drop_eq_getElem_cons hlt] at hle
          exact hle
      | none =>
          have hend := List.getElem?_eq_none_iff.mp hb
          refine h.teller_step h.last ⟨hr, le_antisymm hlen hend, ?_⟩
          rw [List.drop_of_length_le hend] at hle
          exact hle
  | halfTold r orders =>
      rw [ht] at hteller
      obtain ⟨hr, hlen, hle⟩ := hteller
      rw [FleetState.tell, List.getElem?_eq_getElem hlen]
      refine h.teller_step h.last ⟨⟨hr.last, hr.sum, hr.new, hr.latencies⟩, ?_, ?_⟩
      · rw [List.length_append]
        exact hlen
      · refine hle.trans_eq ?_
        rw [List.length_append, told_append, Nat.add_assoc]
        rfl
  | closing r fills =>
      rw [ht] at hteller
      obtain ⟨hr, hlen, hle⟩ := hteller
      let latest : TelemetrySnap α :=
        ⟨r.totalOrders, fills, s.totals.2.2, r.ms, r.newOrders, r.bots⟩
      have hsum : ((s.sent ++ [latest]).map TelemetrySnap.newOrders).sum = r.totalOrders := by
        rw [List.map_append, List.sum_append, ← hr.sum, List.map_singleton, List.sum_singleton]
      refine ⟨h.size, h.midway, h.counters, h.latencies, h.last, ?_, fun snap hsnap => ?_,
        fun snap hsnap => ?_⟩
      · exact hsum.trans (congrArg Nat.cast hr.last)
      · rcases List.mem_append.mp hsnap with hsnap | hsnap
        · exact h.sent snap hsnap
        · rw [List.mem_singleton.mp hsnap]
          exact ⟨hlen.trans h.size, hle, hr.new, hr.latencies⟩
      · have hlatest : (s.sent ++ [latest]).getLast? = some latest := List.getLast?_concat
        obtain rfl := Option.some.inj (hlatest.symm.trans hsnap)
        exact hsum

theorem Balanced.step (h : s.Balanced bots) (m : FleetMove α) : (s.step m).Balanced bots := by
  cases m with
  | answer i orders latency fills =>
      rw [FleetState.step]
      cases hb : s.bots[i]? with
      | none => exact h
      | some b => exact h.answer hb orders fills latency
  | count i =>
      rw [FleetState.step]
      cases hb : s.bots[i]? with
      | none => exact h
      | some b => exact h.count hb
  | tell => exact h.tell

theorem balanced_run (bots : Nat) (moves : List (FleetMove α)) : (run bots moves).Balanced bots :=
  List.foldlRecOn (motive := Balanced bots) moves FleetState.step (balanced_init bots)
    fun _ h m _ => h.step m

/-- What a fleet reports is consistent, whatever the order of the steps: the total of a
snapshot never exceeds what its bots report, the new orders of the snapshots add up to the
total of the last one, and the percentiles are those of the last 5000 latencies at some moment,
none if there was none yet. When every bot is between two answers the totals are the sums over
the bots. -/
theorem reports_consistent (bots : Nat) (moves : List (FleetMove α)) :
    let s := run bots moves
    (∀ snap ∈ s.sent, snap.bots.length = bots ∧
      snap.totalOrders ≤ (snap.bots.map BotStat.orders).sum ∧ 0 ≤ snap.newOrders ∧
      ∃ pre, pre <+: s.history ∧ snap.ms = percentiles (window pre) ∧
        (pre = [] → snap.ms = none) ∧
        (pre ≠ [] → ∃ p, snap.ms = some p ∧ p.Of (window pre) ∧
          p.p50 ≤ p.p95 ∧ p.p95 ≤ p.p99)) ∧
    (∀ snap, s.sent.getLast? = some snap →
      (s.sent.map TelemetrySnap.newOrders).sum = snap.totalOrders) ∧
    s.allLatencies = window s.history ∧
    s.totals.1 ≤ (s.bots.map fun b => b.counters.1).sum ∧
    ((∀ b ∈ s.bots, b.todo = []) → s.totals = (s.bots.map Bot.counters).sum) := by
  intro s
  have h := balanced_run bots moves
  refine ⟨fun snap hsnap => ?_, h.latest, h.latencies, h.totalOrders_le, fun hrest => ?_⟩
  · obtain ⟨hcomplete, horders, hnew, pre, hpre, hms⟩ := h.sent snap hsnap
    refine ⟨hcomplete, horders, hnew, pre, hpre, hms, fun hnil => ?_, fun hne => ?_⟩
    · rw [hms, hnil, window, List.drop_nil]
      exact percentiles_nil
    · have hlen := window_length pre
      have hpos := List.length_pos_iff.mpr hne
      obtain ⟨p, hp, hof⟩ := percentiles_of (List.length_pos_iff.mp (show 0 < (window pre).length by
        omega)) (by omega)
      exact ⟨p, hms.trans hp, hof, hof.sorted⟩
  · have hdue : s.bots.map Bot.due = s.bots.map fun _ => 0 :=
      List.map_congr_left fun b hb => by rw [Bot.due, hrest b hb]; rfl
    have hsettled : s.bots.map Bot.settled = s.bots.map Bot.counters :=
      List.map_congr_left fun b hb => by
        rw [Bot.settled, hrest b hb]
        exact add_zero _
    have hcounters := h.counters
    rw [hsettled, hdue] at hcounters
    simpa using hcounters

end FleetState

end VidhiArena.Botfleet
