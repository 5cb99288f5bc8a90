import VidhiArena.Foundation.Processes
import VidhiArena.GameMaster.LosslessRing

/-!
# The telemetry watchdog keeps up

The ring loses nothing, and the thread behind it gets everything done. Between two events
the watchdog takes at most fifteen steps: a load for each member of the event, the tests of
its two loops and, when it has reached the end of a batch, the publication of `read_head`.
`Within` counts them down. The Game Master's moves leave the count alone, so the bound holds
however the two threads interleave.
-/

namespace VidhiArena.GameMaster

open VidhiArena.Foundation

/-! ## The loads of an event -/

namespace TelemetryEvent

/-- Done after `n` loads, whatever they yield. -/
def Loads.Within {α : Type} : Loads α → Nat → Prop
  | .ret _, _ => True
  | .read k, n => 0 < n ∧ ∀ m, Within (k m) (n - 1)
  | .call _ k, n => 0 < n ∧ ∀ bs, Within (k bs) (n - 1)

theorem read_within : read.Within 8 := by
  -- the type first, then at most seven members
  refine ⟨Nat.succ_pos _, fun type => ?_⟩
  show Loads.Within (ite (type.headD 0 = 0) ..) 7
  split
  · simp [Loads.Within, Loads.int64At]
  · split
    · simp [Loads.Within, Loads.int64At, Loads.boolAt, Loads.int32At, Loads.word64At]
    · split
      · simp [Loads.Within, Loads.int64At, Loads.boolAt, Loads.int32At, Loads.word64At]
      · split
        · simp [Loads.Within, Loads.int64At, Loads.boolAt, Loads.word64At]
        · exact trivial

end TelemetryEvent

namespace Channel

open TelemetryEvent

variable {s : Channel} {n k : Nat}

/-- An event is never more than eight loads from being read. -/
def Reads (s : Channel) : Prop :=
  ∀ writeHead todo, s.watchdog = .reading writeHead todo → ∃ m ≤ 8, todo.Within m

/-! ## The count -/

/-- Where the watchdog stands between two events, counted back from the next one. With `n`
events handled, there is no next one behind a `write_head` that it has just fetched. -/
def Near (s : Channel) (n rank : Nat) : Prop :=
  match s.watchdog with
  | .reading _ todo => ∃ m, todo.Within m ∧ m + 1 ≤ rank
  | .batch writeHead => (if s.cursor < writeHead then 10 else 15) ≤ rank
  | .fetch => (if s.handled.length < n then 11 else 16) ≤ rank
  | .testHead => 12 ≤ rank
  | .testRunning => 13 ≤ rank
  | .advance => 14 ≤ rank
  | .exited => True

/-- `k` steps of the watchdog suffice to have handled `n` events and gone round its loops. -/
def Within (n : Nat) (s : Channel) (k : Nat) : Prop :=
  ∃ rank, s.Near n rank ∧ 16 * (n - s.handled.length) + rank ≤ k

/-- What the Game Master leaves alone. -/
structure Beside (s s' : Channel) : Prop where
  watchdog : s'.watchdog = s.watchdog
  cursor : s'.cursor = s.cursor
  handled : s'.handled = s.handled
  recorded : s.recorded <+: s'.recorded

theorem Beside.refl (s : Channel) : s.Beside s := ⟨rfl, rfl, rfl, List.prefix_refl _⟩

theorem beside_recorder (s : Channel) : s.Beside s.stepRecorder := by
  unfold stepRecorder
  split
  · exact .refl s
  · split
    · exact ⟨rfl, rfl, rfl, List.prefix_refl _⟩
    · exact .refl s
  · exact ⟨rfl, rfl, rfl, List.prefix_refl _⟩
  · exact ⟨rfl, rfl, rfl, List.prefix_append _ _⟩

theorem beside_step (s : Channel) {move : Move} (hmove : move.isWatchdog = false) :
    s.Beside (s.step move) := by
  cases move with
  | watchdog => cases hmove
  | record ev tsc =>
      show s.Beside (s.enterRecord ev tsc)
      unfold enterRecord
      split
      · exact ⟨rfl, rfl, rfl, List.prefix_refl _⟩
      · exact .refl s
  | stop =>
      show s.Beside s.callStop
      unfold callStop
      split
      · exact ⟨rfl, rfl, rfl, List.prefix_refl _⟩
      · exact .refl s
  | recorder => exact s.beside_recorder

theorem eq_watchdog {move : Move} (hmove : move.isWatchdog = true) : move = .watchdog := by
  cases move with
  | watchdog => rfl
  | record _ _ | stop | recorder => cases hmove

theorem Within.beside {s' : Channel} (h : Within n s k) (hs : s.Beside s') : Within n s' k := by
  unfold Within Near
  rw [hs.watchdog, hs.cursor, hs.handled]
  exact h

theorem Reads.stepWatchdog (h : s.Reads) : s.stepWatchdog.Reads := by
  unfold Channel.stepWatchdog
  split
  · intro writeHead todo hc
    dsimp only at hc
    split at hc <;> cases hc
  · intro writeHead todo hc
    dsimp only at hc
    split at hc <;> cases hc
  · exact nofun
  · intro writeHead todo hc
    dsimp only at hc
    split at hc
    · cases hc
      exact ⟨8, le_refl _, read_within⟩
    · cases hc
  · rename_i offset width k hpc
    intro writeHead todo hc
    cases hc
    obtain ⟨m, hm, -, hwithin⟩ := h _ _ hpc
    exact ⟨m - 1, (Nat.sub_le _ _).trans hm, hwithin _⟩
  · rename_i k hpc
    intro writeHead todo hc
    cases hc
    obtain ⟨m, hm, -, hwithin⟩ := h _ _ hpc
    exact ⟨m - 1, (Nat.sub_le _ _).trans hm, hwithin _⟩
  · exact nofun
  · exact nofun
  · exact h

theorem Reads.step (h : s.Reads) (move : Move) : (s.step move).Reads := by
  cases hmove : move.isWatchdog with
  | false =>
      rw [Reads, (s.beside_step hmove).watchdog]
      exact h
  | true =>
      rw [eq_watchdog hmove]
      exact h.stepWatchdog

theorem run_reads (moves : List Move) : (run moves).Reads :=
  List.foldlRecOn moves _ (fun _ _ hc => nomatch hc) fun _ h move _ => h.step move

/-! ## A step of the watchdog -/

theorem Within.behind (h : Within n s (k + 1)) (hs : s.Sound) (hn : s.handled.length < n)
    (hle : n ≤ s.recorded.length) (hlt : s.recorded.length < 2 ^ 64)
    (hpc : s.watchdog ≠ .exited) :
    Within n s.stepWatchdog k ∧ s.stepWatchdog.watchdog ≠ .exited := by
  have hahead : s.cursor < s.writeHead := by
    rw [hs.cursor, hs.writeHead, FreeRunning.ofNat_lt_iff hlt (by omega)]
    omega
  obtain ⟨rank, hnear, hk⟩ := h
  -- the next stop, its rank, and that it comes before the one that has been left
  unfold Channel.stepWatchdog
  unfold Near at hnear
  split <;> rename_i hat <;> rw [hat] at hnear <;> dsimp only at hnear
  · -- `testRunning`
    split
    · exact ⟨⟨11, le_of_eq (if_pos hn), by dsimp only; omega⟩, nofun⟩
    · exact ⟨⟨12, le_refl _, by dsimp only; omega⟩, nofun⟩
  · -- `testHead`
    rw [if_pos hahead]
    exact ⟨⟨11, le_of_eq (if_pos hn), by dsimp only; omega⟩, nofun⟩
  · -- `fetch`
    rw [if_pos hn] at hnear
    exact ⟨⟨10, le_of_eq (if_pos hahead), by dsimp only; omega⟩, nofun⟩
  · -- `batch`
    split
    · rename_i hmore
      rw [if_pos hmore] at hnear
      exact ⟨⟨9, ⟨8, read_within, le_refl _⟩, by dsimp only; omega⟩, nofun⟩
    · rename_i hdone
      rw [if_neg hdone] at hnear
      exact ⟨⟨14, le_refl _, by dsimp only; omega⟩, nofun⟩
  · -- a load
    obtain ⟨m, ⟨hpos, hwithin⟩, hm⟩ := hnear
    exact ⟨⟨m, ⟨m - 1, hwithin _, by omega⟩, by dsimp only; omega⟩, nofun⟩
  · -- a call
    obtain ⟨m, ⟨hpos, hwithin⟩, hm⟩ := hnear
    exact ⟨⟨m, ⟨m - 1, hwithin _, by omega⟩, by dsimp only; omega⟩, nofun⟩
  · -- the event is read
    obtain ⟨m, -, hm⟩ := hnear
    refine ⟨⟨15, ?_, ?_⟩, nofun⟩
    · show (if _ then 10 else 15) ≤ 15
      split <;> decide
    · dsimp only
      rw [List.length_append, List.length_singleton]
      omega
  · -- `advance`
    exact ⟨⟨13, le_refl _, by dsimp only; omega⟩, nofun⟩
  · -- `exited`
    exact absurd hat hpc

/-- With none left and the order to stop it goes on to its exit. -/
theorem Within.caughtUp (h : Within n s (k + 1)) (hs : s.Sound) (hn : s.handled.length = n)
    (hle : s.recorded.length = n) (hstopped : s.running = false) :
    s.stepWatchdog.watchdog = .exited ∨ Within n s.stepWatchdog k := by
  have hahead : ¬ s.cursor < s.writeHead := by
    rw [hs.cursor, hs.writeHead, hn, hle]
    exact UInt64.lt_irrefl _
  have hfetch : ¬ s.handled.length < n := hn.not_lt
  obtain ⟨rank, hnear, hk⟩ := h
  unfold Channel.stepWatchdog
  unfold Near at hnear
  split <;> rename_i hat <;> rw [hat] at hnear <;> dsimp only at hnear
  · -- `testRunning`
    rw [hstopped]
    exact Or.inr ⟨12, le_refl _, by dsimp only; omega⟩
  · -- `testHead`
    exact Or.inl (if_neg hahead)
  · -- `fetch`
    rw [if_neg hfetch] at hnear
    exact Or.inr ⟨15, le_of_eq (if_neg hahead), by dsimp only; omega⟩
  · -- `batch`
    rename_i writeHead
    obtain ⟨m, hm, hlo, hhi⟩ := hs.batch writeHead hat
    obtain rfl : m = n := by omega
    have hdone : ¬ s.cursor < writeHead := by
      rw [hs.cursor, hm, hn]
      exact UInt64.lt_irrefl _
    rw [if_neg hdone] at hnear ⊢
    exact Or.inr ⟨14, le_refl _, by dsimp only; omega⟩
  · -- a load
    obtain ⟨⟨m, -, hlo, hhi⟩, -⟩ := hs.reading _ _ hat
    omega
  · -- a call
    obtain ⟨⟨m, -, hlo, hhi⟩, -⟩ := hs.reading _ _ hat
    omega
  · -- the event is read
    obtain ⟨⟨m, -, hlo, hhi⟩, -⟩ := hs.reading _ _ hat
    omega
  · -- `advance`
    exact Or.inr ⟨13, le_refl _, by dsimp only; omega⟩
  · -- `exited`
    exact Or.inl hat

/-! ## A run of both threads -/

/-- What a step never takes back. -/
structure Grows (s s' : Channel) : Prop where
  recorded : s.recorded <+: s'.recorded
  handled : s.handled.length ≤ s'.handled.length
  stopped : s.running = false → s'.running = false

theorem Grows.trans {s' s'' : Channel} (h : s.Grows s') (h' : s'.Grows s'') : s.Grows s'' :=
  ⟨h.recorded.trans h'.recorded, h.handled.trans h'.handled, h'.stopped ∘ h.stopped⟩

theorem grows_stepWatchdog (s : Channel) : s.Grows s.stepWatchdog := by
  unfold Channel.stepWatchdog
  split
  case h_7 =>
    refine ⟨List.prefix_refl _, ?_, id⟩
    rw [List.length_append]
    exact Nat.le_add_right _ _
  all_goals exact ⟨List.prefix_refl _, le_refl _, id⟩

theorem stopped_step {move : Move} (hmove : move.isWatchdog = false) (h : s.running = false) :
    (s.step move).running = false := by
  cases move with
  | watchdog => cases hmove
  | record ev tsc =>
      show (s.enterRecord ev tsc).running = false
      unfold enterRecord
      split <;> exact h
  | stop =>
      show s.callStop.running = false
      unfold callStop
      split
      · rfl
      · exact h
  | recorder =>
      show s.stepRecorder.running = false
      unfold Channel.stepRecorder
      split
      · exact h
      · split <;> exact h
      · exact h
      · exact h

theorem grows_step (s : Channel) (move : Move) : s.Grows (s.step move) := by
  cases hmove : move.isWatchdog with
  | false =>
      have hs := s.beside_step hmove
      exact ⟨hs.recorded, le_of_eq (congrArg _ hs.handled).symm, stopped_step hmove⟩
  | true =>
      rw [eq_watchdog hmove]
      exact s.grows_stepWatchdog

theorem grows_foldl : ∀ (moves : List Move) (s : Channel), s.Grows (moves.foldl step s)
  | [], _ => ⟨List.prefix_refl _, le_refl _, id⟩
  | move :: moves, s => (s.grows_step move).trans (grows_foldl moves (s.step move))

theorem Reads.within (h : s.Reads) (hn : n ≤ s.recorded.length) : Within n s s.backlog := by
  have hrank : s.Near n 16 := by
    unfold Near
    split
    · rename_i writeHead todo hat
      obtain ⟨m, hm, hwithin⟩ := h writeHead todo hat
      exact ⟨m, hwithin, by omega⟩
    · split <;> decide
    · split <;> decide
    all_goals decide
  refine ⟨16, hrank, ?_⟩
  rw [backlog]
  omega

theorem countdown_handled (n : Nat) : Countdown step Move.isWatchdog
    (fun s => s.Sound ∧ n ≤ s.recorded.length ∧ s.recorded.length < 2 ^ 64)
    (fun s => n ≤ s.handled.length)
    (fun s k => Within n s k ∧ s.watchdog ≠ .exited) where
  zero := by
    rintro s - ⟨⟨rank, -, hk⟩, -⟩
    omega
  stays := fun _ move _ hgoal => hgoal.trans (grows_step _ move).handled
  own := by
    rintro s move k ⟨hs, hle, hlt⟩ - hmove ⟨hwithin, hpc⟩
    rw [eq_watchdog hmove]
    rcases Nat.lt_or_ge s.handled.length n with hn | hn
    · exact Or.inr (hwithin.behind hs hn hle hlt hpc)
    · exact Or.inl (hn.trans s.grows_stepWatchdog.handled)
  other := by
    rintro s move k - - hmove ⟨hwithin, hpc⟩
    have hs := s.beside_step hmove
    exact Or.inr ⟨hwithin.beside hs, hs.watchdog ▸ hpc⟩

theorem countdown_exit (n : Nat) : Countdown step Move.isWatchdog
    (fun s => s.Sound ∧ s.running = false ∧ s.recorded.length = n ∧ n < 2 ^ 64)
    (fun s => s.watchdog = .exited) (Within n) where
  zero := by
    rintro s - ⟨rank, hnear, hk⟩
    -- only the exit has rank 0
    obtain rfl : rank = 0 := by omega
    unfold Near at hnear
    split at hnear
    · obtain ⟨m, -, hm⟩ := hnear
      omega
    · split at hnear <;> omega
    · split at hnear <;> omega
    · omega
    · omega
    · omega
    · assumption
  stays := by
    intro s move _ hgoal
    cases hmove : move.isWatchdog with
    | false => exact (s.beside_step hmove).watchdog.trans hgoal
    | true =>
        rw [eq_watchdog hmove]
        show s.stepWatchdog.watchdog = .exited
        rw [Channel.stepWatchdog, hgoal]
        exact hgoal
  own := by
    rintro s move k ⟨hs, hstopped, rfl, hlt⟩ - hmove hwithin
    rw [eq_watchdog hmove]
    -- what is left is handled first
    rcases Nat.lt_or_ge s.handled.length s.recorded.length with hn | hn
    · by_cases hpc : s.watchdog = .exited
      · left
        show s.stepWatchdog.watchdog = .exited
        rw [Channel.stepWatchdog, hpc]
        exact hpc
      · exact Or.inr (hwithin.behind hs hn (le_refl _) hlt hpc).1
    · exact hwithin.caughtUp hs (Nat.le_antisymm hs.handled_le hn) rfl hstopped
  other := fun s move k _ _ hmove hwithin => Or.inr (hwithin.beside (s.beside_step hmove))

theorem run_append (moves moves' : List Move) :
    run (moves ++ moves') = moves'.foldl step (run moves) := List.foldl_append

theorem run_take (moves moves' : List Move) (k : Nat) :
    (run moves).Grows ((moves'.take k).foldl step (run moves)) ∧
      ((moves'.take k).foldl step (run moves)).Grows (run (moves ++ moves')) ∧
        ((moves'.take k).foldl step (run moves)).Sound := by
  refine ⟨grows_foldl _ _, ?_, ?_⟩
  · have hrest := grows_foldl (moves'.drop k) ((moves'.take k).foldl step (run moves))
    rw [← List.foldl_append, List.take_append_drop] at hrest
    rwa [run_append]
  · rw [← run_append]
    exact run_sound _

theorem run_keepsUp (moves moves' : List Move)
    (hlt : (run (moves ++ moves')).recorded.length < 2 ^ 64)
    (hsteps : (run moves).backlog ≤ moves'.countP Move.isWatchdog) :
    (run moves).KeepsUp (run (moves ++ moves')) := by
  have hend := (run_append moves moves').symm
  have hwithin := (run_reads moves).within (le_refl (run moves).recorded.length)
  refine ⟨fun hpc => ?_, fun hstopped hsame => ?_⟩
  · have hcount : (run moves).recorded.length ≤ (run (moves ++ moves')).handled.length := by
      rw [← hend]
      refine (countdown_handled _).reaches moves' _ _ (fun k => ?_) ⟨hwithin, hpc⟩ hsteps
      obtain ⟨hbefore, hafter, hsound⟩ := run_take moves moves' k
      exact ⟨hsound, hbefore.recorded.length_le, hafter.recorded.length_le.trans_lt hlt⟩
    -- both are prefixes of what has been recorded by the end
    have hgrown := (grows_foldl moves' (run moves)).recorded
    rw [hend] at hgrown
    exact List.prefix_of_prefix_length_le (hgrown.map some) (run_sound _).order
      (by rwa [List.length_map])
  · rw [← hend]
    refine (countdown_exit _).reaches moves' _ _ (fun k => ?_) hwithin hsteps
    obtain ⟨hbefore, hafter, hsound⟩ := run_take moves moves' k
    have hle := hafter.recorded.length_le
    rw [hsame] at hle
    exact ⟨hsound, hbefore.stopped hstopped, Nat.le_antisymm hle hbefore.recorded.length_le,
      hsame.ge.trans_lt hlt⟩

/-- The ring loses nothing: in every state of every interleaving the events handled are
the events recorded, in order and unharmed, as far as they go. As long as fewer than `2 ^ 64`
events have been recorded, a thread that has exited has handled all those that were recorded
before `stop`; and whatever comes next, once the thread has taken as many steps as its backlog
asks for, it has handled each event that had been recorded, and it has exited if `stop` had been
called and nothing more was recorded. It exits only after `stop`. -/
theorem ring_lossless (moves moves' : List Move) :
    (run moves).Fifo ∧ ((run moves).recorded.length < 2 ^ 64 → (run moves).Drained) ∧
      ((run moves).watchdog = .exited → (run moves).recordedAtStop ≠ none) ∧
      ((run (moves ++ moves')).recorded.length < 2 ^ 64 →
        (run moves).backlog ≤ moves'.countP Move.isWatchdog →
          (run moves).KeepsUp (run (moves ++ moves'))) := by
  have hhalting := run_halting moves
  exact ⟨(run_sound moves).fifo, hhalting.drained,
    fun hexited => hhalting.stopped (hhalting.left (Or.inr hexited)), run_keepsUp moves moves'⟩

end Channel

end VidhiArena.GameMaster
