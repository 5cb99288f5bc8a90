import VidhiArena.Backend.Credits

/-!
# The daily cap

Each counter in Redis holds what the log says of its user and its day (`Booked`): whether a
call succeeds depends on nothing else, so what a day grants is a function of how often the
user asked (`grants`). Up to `2 ^ 53` that is the limit; beyond, the script compares rounded
numbers.

`handleCredits` reads another key and a table, and nothing writes either.
-/

namespace VidhiArena.Backend

open VidhiArena.Foundation Calendar

namespace CreditState

variable {s : CreditState} {limit : Nat} {u v : String} {day : Nat}

/-! ## What a day grants -/

/-- The calls that succeed among the first `k` of a day. -/
def grants (limit : Nat) : Nat → Nat
  | 0 => 0
  | k + 1 =>
      if DoubleCount.toDouble (grants limit k) < DoubleCount.toDouble limit then
        grants limit k + 1
      else grants limit k

/-- Where the rounded limit is exact in a double, it is what a day grants. -/
theorem grants_eq_min (h : DoubleCount.toDouble limit ≤ 2 ^ 53) (k : Nat) :
    grants limit k = min k (DoubleCount.toDouble limit) := by
  induction k with
  | zero => exact (Nat.zero_min _).symm
  | succ k ih =>
      have hsmall : grants limit k ≤ 2 ^ 53 := ih ▸ (Nat.min_le_right _ _).trans h
      rw [grants, DoubleCount.toDouble_of_small hsmall]
      split
      · next hlt =>
          rw [ih, min_lt_iff] at hlt
          have hk : k < DoubleCount.toDouble limit := hlt.resolve_right (lt_irrefl _)
          rw [ih, min_eq_left hk.le, min_eq_left (Nat.succ_le_of_lt hk)]
      · next hge =>
          rw [ih, Nat.not_lt, le_min_iff] at hge
          rw [ih, min_eq_right hge.1, min_eq_right (hge.1.trans (Nat.le_succ k))]

theorem grants_eq_zero_iff {k : Nat} : grants limit k = 0 ↔ limit = 0 ∨ k = 0 := by
  constructor
  · intro h
    induction k with
    | zero => exact Or.inr rfl
    | succ k ih =>
        rw [grants] at h
        split at h
        · exact nomatch h
        · next hge =>
            refine Or.inl (Nat.eq_zero_of_not_pos fun hpos => hge ?_)
            rw [h]
            exact DoubleCount.toDouble_pos hpos
  · rintro (rfl | rfl)
    · induction k with
      | zero => rfl
      | succ k ih =>
          rw [grants, ih]
          exact if_neg (lt_irrefl _)
    · rfl

/-! ## The log -/

section Append

variable {t : CreditState} {e : Deduction} (h : t.log = s.log ++ [e])
include h

theorem attempts_append : t.attempts u day =
    s.attempts u day + if e.userID = u ∧ e.day = day then 1 else 0 := by
  rw [attempts, h, List.countP_append, List.countP_singleton]
  simp only [attempts, decide_eq_true_eq]

theorem granted_append : t.granted u day =
    s.granted u day + if (e.userID = u ∧ e.day = day) ∧ e.granted = true then 1 else 0 := by
  rw [granted, h, List.countP_append, List.countP_singleton]
  simp only [granted, decide_eq_true_eq]

end Append

theorem granted_add_refused : s.granted u day + s.refused u day = s.attempts u day := by
  unfold granted refused attempts
  induction s.log with
  | nil => rfl
  | cons e l ih =>
      simp only [List.countP_cons]
      rw [← ih]
      by_cases he : e.userID = u ∧ e.day = day
      · cases e.granted <;> simp [he] <;> omega
      · simp [he]

/-! ## The books -/

/-- The books are right. -/
structure Booked (limit : Nat) (s : CreditState) : Prop where
  grants : ∀ u day, s.granted u day = grants limit (s.attempts u day)
  /-- a counter belongs to a user and a day that has come, and counts what was granted -/
  counters : ∀ key c, s.redis key = some c → ∃ u day, key = usedKey u (utcDate day) ∧
    day ≤ s.today ∧ c.value = s.granted u day
  /-- what was granted today is on a counter that lasts for the rest of the day -/
  present : ∀ u, 0 < s.granted u s.today →
    ∃ c e, s.redis (usedKey u (utcDate s.today)) = some c ∧ c.expiresAt = some e ∧
      (s.today + 1) * 86400 ≤ e
  past : ∀ e ∈ s.log, e.day ≤ s.today
  ledger : s.creditLedger = []

theorem today_le (s : CreditState) : s.today * 86400 ≤ s.now := Nat.div_mul_le_self s.now 86400

theorem now_lt (s : CreditState) : s.now < (s.today + 1) * 86400 := by
  rw [Nat.succ_mul]
  exact Nat.lt_div_mul_add (by decide)

theorem Booked.init (limit now : Nat) : Booked limit (init now) where
  grants _ _ := rfl
  counters _ _ h := nomatch h
  present _ h := nomatch h
  past := nofun
  ledger := rfl

theorem get_eq_some {key : String} {c : Counter} (h : s.get key = some c) : s.redis key = some c :=
  (Option.filter_eq_some_iff.mp h).1

theorem Booked.value (hb : Booked limit s) {c : Counter}
    (h : s.redis (usedKey u (utcDate day)) = some c) : c.value = s.granted u day := by
  obtain ⟨v, n, hkey, -, hvalue⟩ := hb.counters _ c h
  obtain ⟨rfl, rfl⟩ := usedKey_inj hkey
  exact hvalue

theorem Booked.live (hb : Booked limit s) (hpos : 0 < s.granted u s.today) :
    ∃ c e, s.get (usedKey u (utcDate s.today)) = some c ∧ c.expiresAt = some e ∧
      (s.today + 1) * 86400 ≤ e := by
  obtain ⟨c, e, hc, he, hlast⟩ := hb.present u hpos
  refine ⟨c, e, ?_, he, hlast⟩
  rw [get, hc, Option.filter_some, he]
  exact if_pos (decide_eq_true (s.now_lt.trans_le hlast))

theorem Booked.counter_today (hb : Booked limit s) (u : String) :
    s.counter u s.today = s.granted u s.today := by
  unfold counter
  cases hget : s.get (usedKey u (utcDate s.today)) with
  | some c => exact hb.value (get_eq_some hget)
  | none =>
      rcases Nat.eq_zero_or_pos (s.granted u s.today) with hzero | hpos
      · exact hzero.symm
      · obtain ⟨c, e, hlive, -, -⟩ := hb.live hpos
        rw [hlive] at hget
        exact nomatch hget

/-- A call counts from what was granted today, and what it leaves lasts for the day. -/
theorem Booked.deductCredit_eq (hb : Booked limit s) (u : String) :
    (DoubleCount.toDouble (s.granted u s.today) < DoubleCount.toDouble limit ∧
      ∃ e, (s.today + 1) * 86400 ≤ e ∧ s.deductCredit u limit =
        { s with
          redis := Function.update s.redis (usedKey u (utcDate s.today))
            (some ⟨s.granted u s.today + 1, some e⟩)
          log := s.log ++ [⟨u, s.today, true⟩] }) ∨
    (¬ DoubleCount.toDouble (s.granted u s.today) < DoubleCount.toDouble limit ∧
      s.deductCredit u limit = { s with log := s.log ++ [⟨u, s.today, false⟩] }) := by
  have hcount : ((s.get (usedKey u (utcDate s.today))).map Counter.value).getD 0 =
      s.granted u s.today := hb.counter_today u
  unfold deductCredit incrementAndCheck
  dsimp only
  rw [hcount]
  split
  · next hlt =>
      refine Or.inl ⟨hlt, ?_⟩
      simp only [Int.natCast_nonneg, decide_true]
      split
      · refine ⟨s.now + 90000, ?_, rfl⟩
        rw [Nat.succ_mul]
        exact Nat.add_le_add s.today_le (by decide)
      · next hused =>
          have hpos : 0 < s.granted u s.today := by
            refine Nat.pos_of_ne_zero fun hzero => hused ?_
            rw [hzero]
            rfl
          obtain ⟨c, e, hlive, he, hlast⟩ := hb.live hpos
          refine ⟨e, hlast, ?_⟩
          rw [hlive, Option.bind_some, he]
  · next hge => exact Or.inr ⟨hge, rfl⟩

theorem Booked.wait (hb : Booked limit s) (d : Nat) : Booked limit (s.step limit (.wait d)) := by
  have htoday : s.today ≤ (s.step limit (.wait d)).today :=
    Nat.div_le_div_right (Nat.le_add_right s.now d)
  refine ⟨hb.grants, ?_, ?_, fun e he => (hb.past e he).trans htoday, hb.ledger⟩
  · intro key c hc
    obtain ⟨u, day, hkey, hday, hvalue⟩ := hb.counters key c hc
    exact ⟨u, day, hkey, hday.trans htoday, hvalue⟩
  · intro u hpos
    -- on a later day nobody has asked for anything yet
    rcases htoday.eq_or_lt with hsame | hlater
    · rw [← hsame] at hpos ⊢
      exact hb.present u hpos
    · obtain ⟨e, he, hgranted⟩ := List.countP_pos_iff.mp hpos
      simp only [decide_eq_true_eq] at hgranted
      exact absurd (hb.past e he) (Nat.not_le.mpr (hgranted.1.2 ▸ hlater))

theorem Booked.grants_append (hb : Booked limit s) {t : CreditState} {ok : Bool}
    (hlog : t.log = s.log ++ [⟨u, s.today, ok⟩])
    (hok : ok = true ↔ DoubleCount.toDouble (s.granted u s.today) < DoubleCount.toDouble limit)
    (v : String) (day : Nat) :
    t.granted v day = CreditState.grants limit (t.attempts v day) := by
  rw [granted_append hlog, attempts_append hlog]
  by_cases hsame : u = v ∧ s.today = day
  · obtain ⟨rfl, rfl⟩ := hsame
    by_cases hlt : DoubleCount.toDouble (s.granted u s.today) < DoubleCount.toDouble limit
    · rw [if_pos ⟨⟨rfl, rfl⟩, hok.mpr hlt⟩, if_pos ⟨rfl, rfl⟩, CreditState.grants, ← hb.grants,
        if_pos hlt]
    · rw [if_neg fun h => hlt (hok.mp h.2), if_pos ⟨rfl, rfl⟩, CreditState.grants, ← hb.grants,
        if_neg hlt, Nat.add_zero]
  · rw [if_neg fun h => hsame h.1, if_neg hsame]
    exact hb.grants v day

theorem Booked.past_append (hb : Booked limit s) {t : List Deduction} {ok : Bool}
    (hlog : t = s.log ++ [⟨u, s.today, ok⟩]) : ∀ e ∈ t, e.day ≤ s.today := by
  intro e he
  rw [hlog, List.mem_append, List.mem_singleton] at he
  rcases he with he | rfl
  · exact hb.past e he
  · exact le_rfl

theorem today_deductCredit (u : String) : (s.deductCredit u limit).today = s.today := rfl

theorem Booked.deduct (hb : Booked limit s) (u : String) :
    Booked limit (s.deductCredit u limit) := by
  rcases hb.deductCredit_eq u with ⟨hlt, e, hlast, heq⟩ | ⟨hge, heq⟩
  · have hlog : (s.deductCredit u limit).log = s.log ++ [⟨u, s.today, true⟩] := by rw [heq]
    have hredis : (s.deductCredit u limit).redis = Function.update s.redis
        (usedKey u (utcDate s.today)) (some ⟨s.granted u s.today + 1, some e⟩) := by rw [heq]
    refine ⟨hb.grants_append hlog (iff_of_true rfl hlt), ?_, ?_, ?_, heq ▸ hb.ledger⟩
    · intro key c hc
      rw [hredis] at hc
      by_cases hkey : key = usedKey u (utcDate s.today)
      · rw [hkey, Function.update_self] at hc
        obtain rfl := Option.some.inj hc
        refine ⟨u, s.today, hkey, le_rfl, ?_⟩
        rw [granted_append hlog, if_pos ⟨⟨rfl, rfl⟩, rfl⟩]
      · rw [Function.update_of_ne hkey] at hc
        obtain ⟨v, day, hv, hday, hvalue⟩ := hb.counters key c hc
        refine ⟨v, day, hv, hday, ?_⟩
        rw [granted_append hlog, if_neg, hvalue, Nat.add_zero]
        rintro ⟨⟨rfl, rfl⟩, -⟩
        exact hkey hv
    · intro v hpos
      rw [today_deductCredit] at hpos ⊢
      rw [hredis]
      by_cases hv : u = v
      · obtain rfl := hv
        exact ⟨_, e, Function.update_self .., rfl, hlast⟩
      · rw [granted_append hlog, if_neg fun h => hv h.1.1, Nat.add_zero] at hpos
        obtain ⟨c, e', hc, he, hlast'⟩ := hb.present v hpos
        refine ⟨c, e', ?_, he, hlast'⟩
        rwa [Function.update_of_ne fun h => hv (usedKey_inj h).1.symm]
    · exact hb.past_append hlog
  · have hlog : (s.deductCredit u limit).log = s.log ++ [⟨u, s.today, false⟩] := by rw [heq]
    have hsame : ∀ v day, (s.deductCredit u limit).granted v day = s.granted v day := by
      intro v day
      rw [granted_append hlog, if_neg (fun h => nomatch h.2), Nat.add_zero]
    have hredis : (s.deductCredit u limit).redis = s.redis := by rw [heq]
    refine ⟨hb.grants_append hlog (iff_of_false nofun hge), ?_, ?_, ?_, heq ▸ hb.ledger⟩
    · intro key c hc
      rw [hredis] at hc
      obtain ⟨v, day, hv, hday, hvalue⟩ := hb.counters key c hc
      exact ⟨v, day, hv, hday, (hsame v day).symm ▸ hvalue⟩
    · intro v hpos
      rw [hsame, today_deductCredit] at hpos
      rw [today_deductCredit, hredis]
      exact hb.present v hpos
    · exact hb.past_append hlog

theorem Booked.step (hb : Booked limit s) (m : Move) : Booked limit (s.step limit m) := by
  cases m with
  | wait d => exact hb.wait d
  | submit u isPractice =>
      cases isPractice with
      | true => exact hb
      | false => exact hb.deduct u

theorem booked_run (limit now : Nat) (moves : List Move) : Booked limit (run limit now moves) :=
  List.foldlRecOn (motive := Booked limit) moves (CreditState.step limit) (Booked.init limit now)
    fun _ hb m _ => hb.step m

/-! ## The cap -/

/-- A submission leaves the counters of other users and other days alone. -/
theorem redis_step_of_ne {m : Move}
    (h : s.today = day → ∀ isPractice, m ≠ .submit u isPractice) :
    (s.step limit m).redis (usedKey u (utcDate day)) = s.redis (usedKey u (utcDate day)) := by
  cases m with
  | wait d => rfl
  | submit v isPractice =>
      cases isPractice with
      | true => rfl
      | false =>
          have hne : usedKey u (utcDate day) ≠ usedKey v (utcDate s.today) := by
            intro hkey
            obtain ⟨rfl, rfl⟩ := usedKey_inj hkey
            exact h rfl false rfl
          change (s.incrementAndCheck (usedKey v (utcDate s.today)) limit).2 _ = _
          unfold incrementAndCheck
          dsimp only
          split
          · exact Function.update_of_ne hne _ _
          · rfl

theorem Booked.counter_eq (hb : Booked limit s)
    (h : s.today = day ∨ (s.get (usedKey u (utcDate day))).isSome = true) :
    s.counter u day = s.granted u day := by
  rcases h with rfl | h
  · exact hb.counter_today u
  · obtain ⟨c, hc⟩ := Option.isSome_iff_exists.mp h
    rw [counter, hc]
    exact hb.value (get_eq_some hc)

/-- The daily cap. Of the submissions of a user on a day as many are granted as the limit
allows, the others are refused, and the counter, while it can be read, is the number of those
granted; no submission of another user or on another day changes it. -/
theorem daily_cap {limit : Nat} (hlimit : limit ≤ 2 ^ 53) (now : Nat) (moves : List Move)
    (u : String) (day : Nat) :
    let s := run limit now moves
    s.granted u day = min (s.attempts u day) limit ∧
    s.refused u day = s.attempts u day - min (s.attempts u day) limit ∧
    (s.today = day ∨ (s.get (usedKey u (utcDate day))).isSome = true →
      s.counter u day = min (s.attempts u day) limit) ∧
    ∀ m, (s.today = day → ∀ isPractice, m ≠ .submit u isPractice) →
      (s.step limit m).redis (usedKey u (utcDate day)) = s.redis (usedKey u (utcDate day)) := by
  intro s
  have hb : Booked limit s := booked_run limit now moves
  have hexact := DoubleCount.toDouble_of_small hlimit
  have hgranted : s.granted u day = min (s.attempts u day) limit := by
    rw [hb.grants, grants_eq_min (hexact.trans_le hlimit), hexact]
  refine ⟨hgranted, ?_, fun h => (hb.counter_eq h).trans hgranted, fun m => redis_step_of_ne⟩
  rw [← hgranted, ← granted_add_refused (s := s), Nat.add_sub_cancel_left]

theorem daily_cap_three_calls :
    let s := run 2 0 [.submit "alice" false, .submit "bob:x" false, .submit "alice" true,
      .submit "alice" false, .submit "alice" false]
    s.granted "alice" 0 = min (s.attempts "alice" 0) 2 ∧
    s.refused "alice" 0 = s.attempts "alice" 0 - min (s.attempts "alice" 0) 2 ∧
    (s.today = 0 ∨ (s.get (usedKey "alice" (utcDate 0))).isSome = true →
      s.counter "alice" 0 = min (s.attempts "alice" 0) 2) ∧
    ∀ m, (s.today = 0 → ∀ isPractice, m ≠ .submit "alice" isPractice) →
      (s.step 2 m).redis (usedKey "alice" (utcDate 0)) = s.redis (usedKey "alice" (utcDate 0)) :=
  daily_cap (by decide) 0 _ "alice" 0

/-- Submissions of one user one after the other, on the first day. -/
theorem attempts_replicate (limit k : Nat) (u : String) :
    let s := run limit 0 (List.replicate k (.submit u false))
    s.today = 0 ∧ s.attempts u 0 = k := by
  induction k with
  | zero => exact ⟨Nat.zero_div 86400, rfl⟩
  | succ k ih =>
      obtain ⟨htoday, hattempts⟩ := ih
      rw [List.replicate_succ', run, List.foldl_append]
      refine ⟨htoday, ?_⟩
      change (deductCredit (run limit 0 (List.replicate k (.submit u false))) u limit).attempts u 0 =
        k + 1
      rcases (booked_run limit 0 (List.replicate k (.submit u false))).deductCredit_eq u with
        ⟨-, e, -, heq⟩ | ⟨-, heq⟩
      · rw [attempts_append (congrArg log heq), if_pos ⟨rfl, htoday⟩, hattempts]
      · rw [attempts_append (congrArg log heq), if_pos ⟨rfl, htoday⟩, hattempts]

/-- A limit that no double holds is rounded down, and one submission less is let through. -/
theorem rounded_limit_refuses :
    let s := run (2 ^ 53 + 1) 0 (List.replicate (2 ^ 53 + 1) (.submit "alice" false))
    s.granted "alice" 0 ≠ min (s.attempts "alice" 0) (2 ^ 53 + 1) := by
  intro s
  have hrounded : DoubleCount.toDouble (2 ^ 53 + 1) = 2 ^ 53 := by decide +kernel
  have hattempts : s.attempts "alice" 0 = 2 ^ 53 + 1 := (attempts_replicate _ _ _).2
  rw [(booked_run _ _ _).grants, hattempts, grants_eq_min hrounded.le, hrounded]
  decide

/-! ## The report -/

theorem Booked.creditsUsed (hb : Booked limit s) (u : String) : s.creditsUsed u = 0 := by
  have hget : s.get (creditsKey u (utcDate s.today)) = none := by
    rw [Option.eq_none_iff_forall_ne_some]
    intro c hc
    obtain ⟨v, day, hkey, -⟩ := hb.counters _ c (get_eq_some hc)
    exact creditsKey_ne_usedKey _ _ _ _ hkey
  rw [CreditState.creditsUsed, hget, hb.ledger]
  rfl

/-- The report is right for users who have used nothing today. -/
theorem report_right_iff (limit now : Nat) (moves : List Move) (query : String) :
    let s := run limit now moves
    let report := handleCredits limit s query
    report.used = s.granted report.userID s.today ↔
      limit = 0 ∨ s.attempts report.userID s.today = 0 := by
  intro s report
  have hb : Booked limit s := booked_run limit now moves
  have hused : report.used = 0 := hb.creditsUsed _
  rw [hused, hb.grants, eq_comm, grants_eq_zero_iff]

theorem used_credit_unreported :
    let s := run 5 0 [.submit "alice" false]
    (handleCredits 5 s "alice").used ≠ s.granted "alice" s.today := by decide +kernel

end CreditState

end VidhiArena.Backend
