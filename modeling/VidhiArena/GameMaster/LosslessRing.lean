import VidhiArena.GameMaster.RingProtocol

/-!
# The telemetry ring, its invariant and its wrap

The invariant ties the three counters to what they count: `write_head` to the events
recorded, the watchdog's local `read_head` to the events handled, the published
`read_head` to some earlier number of them. The room that `wait_for_space` leaves keeps
the slot that is being written away from every unread one.

Order and content survive the wrap of the counters, since only their differences and their
slots matter. The loops of the watchdog compare them, and a `write_head` that has wrapped
is not ahead of a `read_head` that has not.
-/

namespace VidhiArena.GameMaster

open VidhiArena.Foundation

theorem prefix_concat {α : Type} {l l' : List α} {a : α} (h : l <+: l')
    (hnext : l'[l.length]? = some a) : l ++ [a] <+: l' := by
  obtain ⟨t, rfl⟩ := h
  rw [List.getElem?_append_right (Nat.le_refl _), Nat.sub_self] at hnext
  cases t with
  | nil => cases hnext
  | cons b t =>
      cases hnext
      exact ⟨t, by rw [List.append_assoc]; rfl⟩

namespace Channel

open TelemetryEvent

variable {s : Channel}

/-! ## The invariant -/

/-- A value that `write_head` has had, after at least `least` events. -/
def Loaded (s : Channel) (least : Nat) (writeHead : UInt64) : Prop :=
  ∃ n, writeHead = UInt64.ofNat n ∧ least ≤ n ∧ n ≤ s.recorded.length

theorem Loaded.mono {s' : Channel} {least : Nat} {writeHead : UInt64}
    (h : s.Loaded least writeHead) (hle : s.recorded.length ≤ s'.recorded.length) :
    s'.Loaded least writeHead := by
  obtain ⟨n, hn, hlo, hhi⟩ := h
  exact ⟨n, hn, hlo, hhi.trans hle⟩

structure Sound (s : Channel) : Prop where
  writeHead : s.writeHead = UInt64.ofNat s.recorded.length
  cursor : s.cursor = UInt64.ofNat s.handled.length
  order : s.handled <+: s.recorded.map some
  room : ∃ n, s.readHead = UInt64.ofNat n ∧ n ≤ s.handled.length ∧
    s.recorded.length ≤ n + 65472 ∧
    ∀ ev todo, s.recorder = .storing ev todo → s.recorded.length < n + 65472
  content : ∀ j ev, s.handled.length ≤ j → s.recorded[j]? = some ev →
    Loads.value read (s.slotOf (UInt64.ofNat j)) = some ev
  storing : ∀ ev todo, s.recorder = .storing ev todo →
    Loads.value read ((s.slotOf s.writeHead).storeAll todo) = some ev
  batch : ∀ writeHead, s.watchdog = .batch writeHead → s.Loaded s.handled.length writeHead
  reading : ∀ writeHead todo, s.watchdog = .reading writeHead todo →
    s.Loaded (s.handled.length + 1) writeHead ∧ ∃ ev, s.recorded[s.handled.length]? = some ev ∧
      Loads.value todo (s.slotOf s.cursor) = some ev

theorem start_sound : start.Sound where
  writeHead := rfl
  cursor := rfl
  order := List.prefix_refl _
  room := ⟨0, rfl, le_refl _, Nat.zero_le _, fun _ _ h => nomatch h⟩
  content := fun _ _ _ h => nomatch h
  storing := fun _ _ h => nomatch h
  batch := fun _ h => nomatch h
  reading := fun _ _ h => nomatch h

theorem Sound.handled_le (h : s.Sound) : s.handled.length ≤ s.recorded.length := by
  have hle := h.order.length_le
  rwa [List.length_map] at hle

theorem Sound.unharmed (h : s.Sound) {ev : TelemetryEvent} {todo : List ByteMemory.Store}
    (hstoring : s.recorder = .storing ev todo) {j : Nat} (hlo : s.handled.length ≤ j)
    (hhi : j < s.recorded.length) :
    TelemetryRing.slot (UInt64.ofNat j) ≠ TelemetryRing.slot s.writeHead := by
  obtain ⟨n, -, hn, -, hroom⟩ := h.room
  have hroom := hroom ev todo hstoring
  rw [h.writeHead]
  exact FreeRunning.mask_ne (k := 16) (by decide) (by decide) hhi (by omega)

theorem Sound.fifo (h : s.Sound) : s.Fifo :=
  ⟨h.order, fun _ _ hstoring _ hlo hhi => h.unharmed hstoring hlo hhi⟩

/-! ## The Game Master -/

theorem Sound.enterRecord (h : s.Sound) (ev : TelemetryEvent) (tsc : UInt64) :
    (s.enterRecord ev tsc).Sound := by
  unfold Channel.enterRecord
  split
  · obtain ⟨n, hread, hn, hroom, -⟩ := h.room
    exact { h with
      room := ⟨n, hread, hn, hroom, nofun⟩
      storing := nofun }
  · exact h

theorem Sound.callStop (h : s.Sound) : s.callStop.Sound := by
  unfold Channel.callStop
  split
  · exact { h with }
  · exact h

theorem Sound.stepRecorder (h : s.Sound) : s.stepRecorder.Sound := by
  obtain ⟨n, hread, hn, hroom, hstoring⟩ := h.room
  unfold Channel.stepRecorder
  split
  · exact h
  · rename_i ev tsc _
    split
    · rename_i hspace
      have hdist := FreeRunning.toNat_sub (a := s.recorded.length) (b := n)
        (hn.trans h.handled_le) (by omega)
      have hspace : (s.writeHead - s.readHead).toNat < 65472 := hspace
      rw [h.writeHead, hread, hdist] at hspace
      have hroom' : s.recorded.length < n + 65472 := by omega
      exact { h with
        room := ⟨n, hread, hn, hroom, fun _ _ _ => hroom'⟩
        storing := fun ev' todo hc => by
          cases hc
          exact value_read_stores tsc ev _ }
    · exact h
  · rename_i ev offset bs todo hpc
    -- a store into the slot of `write_head` leaves the unread slots alone
    have hother : ∀ j, s.handled.length ≤ j → j < s.recorded.length →
        Function.update s.slots (TelemetryRing.slot s.writeHead)
          ((s.slotOf s.writeHead).store offset bs) (TelemetryRing.slot (UInt64.ofNat j)) =
          s.slotOf (UInt64.ofNat j) :=
      fun j hlo hhi => Function.update_of_ne (h.unharmed hpc hlo hhi) _ _
    refine { h with room := ⟨n, hread, hn, hroom, ?_⟩, content := ?_, storing := ?_, reading := ?_ }
    · exact fun _ _ _ => hstoring ev _ hpc
    · intro j ev' hlo hj
      have hhi : j < s.recorded.length := (List.getElem?_eq_some_iff.mp hj).1
      exact (congrArg _ (hother j hlo hhi)).trans (h.content j ev' hlo hj)
    · intro ev' todo' hc
      cases hc
      have hself := Function.update_self (TelemetryRing.slot s.writeHead)
        ((s.slotOf s.writeHead).store offset bs) s.slots
      exact (congrArg (fun m => Loads.value read (ByteMemory.storeAll m todo)) hself).trans
        (h.storing ev _ hpc)
    · intro writeHead todo' hc
      obtain ⟨hloaded, ev', hj, hvalue⟩ := h.reading writeHead todo' hc
      refine ⟨hloaded, ev', hj, ?_⟩
      have hhi : s.handled.length < s.recorded.length := (List.getElem?_eq_some_iff.mp hj).1
      have hcursor := hother _ (le_refl _) hhi
      rw [← h.cursor] at hcursor
      exact (congrArg _ hcursor).trans hvalue
  · rename_i ev hpc
    have hlength : (s.recorded ++ [ev]).length = s.recorded.length + 1 := by
      rw [List.length_append, List.length_singleton]
    have hmore : s.recorded.length ≤ (s.recorded ++ [ev]).length := by omega
    refine ⟨?_, h.cursor, ?_, ⟨n, hread, hn, ?_, nofun⟩, ?_,
      nofun, fun writeHead hc => (h.batch writeHead hc).mono hmore, ?_⟩
    · rw [hlength, ← FreeRunning.ofNat_succ, ← h.writeHead]
    · rw [List.map_append]
      exact h.order.trans (List.prefix_append _ _)
    · have hroom' := hstoring ev _ hpc
      exact hlength.trans_le hroom'
    · intro j ev' hlo hj
      rcases Nat.lt_or_ge j s.recorded.length with hhi | hhi
      · rw [List.getElem?_append_left hhi] at hj
        exact h.content j ev' hlo hj
      · -- the event that has just been published
        have hlt : j < (s.recorded ++ [ev]).length := (List.getElem?_eq_some_iff.mp hj).1
        obtain rfl : j = s.recorded.length := by omega
        rw [List.getElem?_append_right hhi, Nat.sub_self] at hj
        cases hj
        have hstored := h.storing ev [] hpc
        rw [h.writeHead] at hstored
        exact hstored
    · intro writeHead todo' hc
      obtain ⟨hload, ev', hj, hvalue⟩ := h.reading writeHead todo' hc
      have hhi : s.handled.length < s.recorded.length := (List.getElem?_eq_some_iff.mp hj).1
      exact ⟨hload.mono hmore, ev', (List.getElem?_append_left hhi).trans hj, hvalue⟩

/-! ## The watchdog -/

theorem Sound.outside (h : s.Sound) {pc : WatchdogPc} (hbatch : ∀ writeHead, pc ≠ .batch writeHead)
    (hreading : ∀ writeHead todo, pc ≠ .reading writeHead todo) :
    Sound { s with watchdog := pc } :=
  { h with
    batch := fun writeHead hc => absurd hc (hbatch writeHead)
    reading := fun writeHead todo hc => absurd hc (hreading writeHead todo) }

theorem Sound.stepWatchdog (h : s.Sound) : s.stepWatchdog.Sound := by
  unfold Channel.stepWatchdog
  split
  · split
    · exact h.outside nofun nofun
    · exact h.outside nofun nofun
  · split
    · exact h.outside nofun nofun
    · exact h.outside nofun nofun
  · refine { h with batch := fun writeHead hc => ?_, reading := nofun }
    cases hc
    exact ⟨_, h.writeHead, h.handled_le, le_refl _⟩
  · rename_i writeHead hpc
    obtain ⟨k, hk, hlo, hhi⟩ := h.batch writeHead hpc
    split
    · rename_i hlt
      rw [h.cursor, hk] at hlt
      have hbehind := FreeRunning.lt_of_ofNat_lt hlo hlt
      have hnext : s.handled.length < s.recorded.length := hbehind.trans_le hhi
      refine { h with batch := nofun, reading := fun writeHead' todo hc => ?_ }
      cases hc
      refine ⟨⟨k, hk, hbehind, hhi⟩, _, List.getElem?_eq_getElem hnext, ?_⟩
      have hcontent := h.content s.handled.length _ (le_refl _) (List.getElem?_eq_getElem hnext)
      rw [← h.cursor] at hcontent
      exact hcontent
    · exact h.outside nofun nofun
  · rename_i writeHead offset width k hpc
    refine { h with batch := nofun, reading := fun writeHead' todo hc => ?_ }
    cases hc
    exact h.reading writeHead (.call (offset, width) k) hpc
  · rename_i writeHead k hpc
    refine { h with batch := nofun, reading := fun writeHead' todo hc => ?_ }
    cases hc
    exact h.reading writeHead (.read k) hpc
  · rename_i writeHead ev hpc
    obtain ⟨⟨k, hk, hlo, hhi⟩, ev', hj, hvalue⟩ := h.reading writeHead _ hpc
    obtain rfl : ev = some ev' := hvalue
    obtain ⟨n, hread, hn, hroom, hstoring⟩ := h.room
    have hlength : (s.handled ++ [some ev']).length = s.handled.length + 1 := by
      rw [List.length_append, List.length_singleton]
    refine ⟨h.writeHead, ?_, ?_, ⟨n, hread, ?_, hroom, hstoring⟩, ?_, h.storing, ?_,
      nofun⟩
    · rw [hlength, ← FreeRunning.ofNat_succ, ← h.cursor]
    · exact prefix_concat h.order (by rw [List.getElem?_map, hj]; rfl)
    · exact hn.trans ((Nat.le_succ _).trans hlength.ge)
    · intro j ev hlo hj
      have hlo : s.handled.length ≤ j := ((Nat.le_succ _).trans hlength.ge).trans hlo
      exact h.content j ev hlo hj
    · intro writeHead' hc
      cases hc
      exact ⟨k, hk, hlength.trans_le hlo, hhi⟩
  · obtain ⟨n, hread, hn, hroom, hstoring⟩ := h.room
    refine { h with room := ⟨_, h.cursor, le_refl _, ?_, ?_⟩, batch := nofun, reading := nofun }
    · exact hroom.trans (Nat.add_le_add_right hn _)
    · exact fun ev todo hc => (hstoring ev todo hc).trans_le (Nat.add_le_add_right hn _)
  · exact h

theorem Sound.step (h : s.Sound) (move : Move) : (s.step move).Sound := by
  cases move with
  | record ev tsc => exact h.enterRecord ev tsc
  | stop => exact h.callStop
  | recorder => exact h.stepRecorder
  | watchdog => exact h.stepWatchdog

theorem run_sound (moves : List Move) : (run moves).Sound :=
  List.foldlRecOn moves _ start_sound fun _ h move _ => h.step move

/-! ## The end of the thread -/

structure Halting (s : Channel) : Prop where
  stopped : s.running = false → s.recordedAtStop ≠ none
  left : s.watchdog = .testHead ∨ s.watchdog = .exited → s.running = false
  atStop : ∀ n, s.recordedAtStop = some n → n ≤ s.recorded.length
  drained : s.recorded.length < 2 ^ 64 → s.Drained

theorem start_halting : start.Halting where
  stopped := nofun
  left := nofun
  atStop := nofun
  drained := fun _ => nofun

theorem Halting.callStop (h : s.Halting) : s.callStop.Halting := by
  unfold Channel.callStop
  split
  · refine ⟨fun _ hc => ?_, fun _ => rfl, fun n hn => ?_, fun hlt hexited n hn => ?_⟩
    · cases hstop : s.recordedAtStop <;> simp [hstop] at hc
    · rcases Option.or_eq_some_iff.mp hn with hn | ⟨-, hn⟩
      · exact h.atStop n hn
      · cases hn
        exact le_refl _
    · -- a thread that has exited knows of an earlier `stop`
      have hearlier := h.stopped (h.left (Or.inr hexited))
      rcases Option.or_eq_some_iff.mp hn with hn | ⟨hnone, -⟩
      · exact h.drained hlt hexited n hn
      · exact absurd hnone hearlier
  · exact h

theorem Halting.stepRecorder (h : s.Halting) : s.stepRecorder.Halting := by
  unfold Channel.stepRecorder
  split
  · exact h
  · split
    · exact { h with }
    · exact h
  · exact { h with }
  · rename_i ev _
    have hmore : s.recorded.length ≤ (s.recorded ++ [ev]).length := by
      rw [List.length_append]
      exact Nat.le_add_right _ _
    exact { h with
      atStop := fun n hn => (h.atStop n hn).trans hmore
      drained := fun hlt => h.drained (hmore.trans_lt hlt) }

theorem Halting.goOn (h : s.Halting) {pc : WatchdogPc} (htest : pc ≠ .testHead)
    (hexited : pc ≠ .exited) : Halting { s with watchdog := pc } :=
  { h with
    left := fun hc => (hc.elim htest hexited).elim
    drained := fun _ hc => absurd hc hexited }

theorem Halting.stepWatchdog (h : s.Halting) (hs : s.Sound) : s.stepWatchdog.Halting := by
  unfold Channel.stepWatchdog
  split
  · split
    · exact h.goOn nofun nofun
    · rename_i hrunning
      exact { h with left := fun _ => eq_false_of_ne_true hrunning, drained := fun _ => nofun }
  · rename_i hpc
    split
    · exact h.goOn nofun nofun
    · rename_i hahead
      refine { h with left := fun _ => h.left (Or.inl hpc), drained := fun hlt _ n hn => ?_ }
      -- before the wrap the comparison of the heads is that of the counts
      rw [hs.cursor, hs.writeHead, FreeRunning.ofNat_lt_iff hlt (hs.handled_le.trans_lt hlt)]
        at hahead
      exact (h.atStop n hn).trans (Nat.not_lt.mp hahead)
  · exact h.goOn nofun nofun
  · split
    · exact h.goOn nofun nofun
    · exact h.goOn nofun nofun
  · exact h.goOn nofun nofun
  · exact h.goOn nofun nofun
  · exact { h with left := nofun, drained := fun _ => nofun }
  · exact { h with left := nofun, drained := fun _ => nofun }
  · exact h

theorem Halting.step (h : s.Halting) (hs : s.Sound) (move : Move) : (s.step move).Halting := by
  cases move with
  | record ev tsc =>
      show (s.enterRecord ev tsc).Halting
      unfold enterRecord
      split
      · exact { h with }
      · exact h
  | stop => exact h.callStop
  | recorder => exact h.stepRecorder
  | watchdog => exact h.stepWatchdog hs

theorem run_halting (moves : List Move) : (run moves).Halting := by
  have hboth : (run moves).Sound ∧ (run moves).Halting :=
    List.foldlRecOn (motive := fun s : Channel => s.Sound ∧ s.Halting) moves _
      ⟨start_sound, start_halting⟩ fun _ h move _ => ⟨h.1.step move, h.2.step h.1 move⟩
  exact hboth.2

/-! ## The wrap -/

/-- Some moves lead from one state to the other. -/
def Leads (s s' : Channel) : Prop := ∃ moves : List Move, moves.foldl Channel.step s = s'

theorem Leads.trans {s' s'' : Channel} (h : s.Leads s') (h' : s'.Leads s'') : s.Leads s'' := by
  obtain ⟨moves, rfl⟩ := h
  obtain ⟨moves', rfl⟩ := h'
  exact ⟨moves ++ moves', List.foldl_append⟩

theorem leads_step (s : Channel) (move : Move) : s.Leads (s.step move) := ⟨[move], rfl⟩

theorem leads_stored : ∀ (todo : List ByteMemory.Store) {s : Channel} {ev : TelemetryEvent},
    s.recorder = .storing ev todo → ∃ slots, s.Leads { s with slots, recorder := .storing ev [] }
  | [], s, ev, h => ⟨s.slots, [], by rw [← h]; rfl⟩
  | (offset, bs) :: todo, s, ev, h => by
      have hstep : s.Leads s.stepRecorder := leads_step s .recorder
      rw [stepRecorder, h] at hstep
      obtain ⟨slots, hrest⟩ := leads_stored todo
        (s := { s with
          slots := Function.update s.slots (TelemetryRing.slot s.writeHead)
            ((s.slotOf s.writeHead).store offset bs)
          recorder := .storing ev todo }) rfl
      exact ⟨slots, hstep.trans hrest⟩

theorem leads_loaded (writeHead : UInt64) (p : Loads (Option TelemetryEvent)) :
    ∀ {s : Channel}, s.watchdog = .reading writeHead p →
      ∃ ev, s.Leads { s with watchdog := .reading writeHead (.ret ev) } := by
  induction p with
  | ret ev => exact fun {s} h => ⟨ev, [], by rw [← h]; rfl⟩
  | read k ih =>
      intro s h
      have hstep : s.Leads s.stepWatchdog := leads_step s .watchdog
      rw [stepWatchdog, h] at hstep
      obtain ⟨ev, hrest⟩ := ih (s.slotOf s.cursor)
        (s := { s with watchdog := .reading writeHead (k (s.slotOf s.cursor)) }) rfl
      exact ⟨ev, hstep.trans hrest⟩
  | call place k ih =>
      intro s h
      obtain ⟨offset, width⟩ := place
      have hstep : s.Leads s.stepWatchdog := leads_step s .watchdog
      rw [stepWatchdog, h] at hstep
      obtain ⟨ev, hrest⟩ := ih ((s.slotOf s.cursor).load offset width)
        (s := { s with
          watchdog := .reading writeHead (k ((s.slotOf s.cursor).load offset width)) }) rfl
      exact ⟨ev, hstep.trans hrest⟩

/-- `n` events recorded, all of them handled, both threads at rest. -/
structure CaughtUp (n : Nat) (s : Channel) : Prop where
  reached : start.Leads s
  writeHead : s.writeHead = UInt64.ofNat n
  readHead : s.readHead = UInt64.ofNat n
  cursor : s.cursor = UInt64.ofNat n
  running : s.running = true
  recorder : s.recorder = .idle
  watchdog : s.watchdog = .testRunning
  recorded : s.recorded.length = n
  handled : s.handled.length = n
  atStop : s.recordedAtStop = none

variable {n : Nat}

theorem CaughtUp.leads_recorded (h : CaughtUp n s) (ev : TelemetryEvent) :
    ∃ slots, s.Leads { s with
      slots, writeHead := s.writeHead + 1, recorded := s.recorded ++ [ev] } := by
  have henter : s.Leads (s.enterRecord ev 0) := leads_step s (.record ev 0)
  rw [enterRecord, h.recorder] at henter
  have hspace : s.HasSpace := by
    rw [HasSpace, h.writeHead, h.readHead, UInt64.sub_self]
    decide
  have hwait := leads_step { s with recorder := .waiting ev 0 } .recorder
  obtain ⟨slots, hstore⟩ := leads_stored (ev.stores 0)
    (s := { s with recorder := .storing ev (ev.stores 0) }) rfl
  have hpublish := leads_step { s with slots, recorder := .storing ev [] } .recorder
  refine ⟨slots, henter.trans (Leads.trans ?_ (hstore.trans ?_))⟩
  · have hgo : Channel.step { s with recorder := .waiting ev 0 } .recorder =
        { s with recorder := .storing ev (ev.stores 0) } := if_pos hspace
    rwa [hgo] at hwait
  · have hgo : Channel.step { s with slots, recorder := .storing ev [] } .recorder =
        { s with slots, writeHead := s.writeHead + 1, recorded := s.recorded ++ [ev] } := by
      show Channel.mk .. = Channel.mk ..
      rw [h.recorder]
    rwa [hgo] at hpublish

theorem leads_handled (hrunning : s.running = true) (hpc : s.watchdog = .testRunning)
    (hahead : s.cursor < s.writeHead) (hone : s.cursor + 1 = s.writeHead) :
    ∃ ev, s.Leads { s with
      readHead := s.cursor + 1, cursor := s.cursor + 1, handled := s.handled ++ [ev] } := by
  have htest : s.Leads { s with watchdog := .fetch } := by
    have hgo := leads_step s .watchdog
    have heq : s.step .watchdog = { s with watchdog := .fetch } := by
      rw [Channel.step, stepWatchdog, hpc]
      simp only [hrunning, if_true]
    rwa [heq] at hgo
  have hfetch : s.Leads { s with watchdog := .batch s.writeHead } :=
    htest.trans (leads_step { s with watchdog := .fetch } .watchdog)
  have hbatch : s.Leads { s with watchdog := .reading s.writeHead read } := by
    refine hfetch.trans ?_
    have hgo := leads_step { s with watchdog := .batch s.writeHead } .watchdog
    have heq : Channel.step { s with watchdog := .batch s.writeHead } .watchdog =
        { s with watchdog := .reading s.writeHead read } := by
      simp only [Channel.step, stepWatchdog, if_pos hahead]
    rwa [heq] at hgo
  obtain ⟨ev, hread⟩ := leads_loaded s.writeHead read
    (s := { s with watchdog := .reading s.writeHead read }) rfl
  refine ⟨ev, hbatch.trans (hread.trans ?_)⟩
  have hret := leads_step { s with watchdog := .reading s.writeHead (.ret ev) } .watchdog
  refine hret.trans ?_
  have hgo := leads_step
    { s with
      watchdog := .batch s.writeHead, cursor := s.cursor + 1, handled := s.handled ++ [ev] }
    .watchdog
  refine hgo.trans ?_
  have hlast : ¬ s.cursor + 1 < s.writeHead := by
    rw [hone]
    exact UInt64.lt_irrefl _
  have heq : Channel.step
      { s with
        watchdog := .batch s.writeHead, cursor := s.cursor + 1, handled := s.handled ++ [ev] }
      .watchdog =
      { s with watchdog := .advance, cursor := s.cursor + 1, handled := s.handled ++ [ev] } := by
    simp only [Channel.step, stepWatchdog, if_neg hlast]
  rw [heq]
  have hadvance := leads_step
    { s with watchdog := .advance, cursor := s.cursor + 1, handled := s.handled ++ [ev] } .watchdog
  have hback : Channel.step
      { s with watchdog := .advance, cursor := s.cursor + 1, handled := s.handled ++ [ev] }
      .watchdog =
      { s with
        readHead := s.cursor + 1, cursor := s.cursor + 1, handled := s.handled ++ [ev] } := by
    show Channel.mk .. = Channel.mk ..
    rw [hpc]
  rwa [hback] at hadvance

theorem caughtUp_all : ∀ n, n < 2 ^ 64 → ∃ s, CaughtUp n s
  | 0, _ => ⟨start, ⟨[], rfl⟩, rfl, rfl, rfl, rfl, rfl, rfl, rfl, rfl, rfl⟩
  | n + 1, hn => by
      obtain ⟨s, h⟩ := caughtUp_all n (by omega)
      obtain ⟨slots, hrecord⟩ := h.leads_recorded (.cancel 0 0 false)
      have hahead : s.cursor < s.writeHead + 1 := by
        rw [h.cursor, h.writeHead, FreeRunning.ofNat_succ,
          FreeRunning.ofNat_lt_iff hn (by omega)]
        exact Nat.lt_succ_self n
      have hone : s.cursor + 1 = s.writeHead + 1 := by rw [h.cursor, h.writeHead]
      obtain ⟨ev, hhandle⟩ := leads_handled
        (s := { s with
          slots, writeHead := s.writeHead + 1, recorded := s.recorded ++ [.cancel 0 0 false] })
        h.running h.watchdog hahead hone
      refine ⟨_, ⟨h.reached.trans (hrecord.trans hhandle), ?_, ?_, ?_, h.running, h.recorder,
        h.watchdog, ?_, ?_, h.atStop⟩⟩
      · rw [h.writeHead, FreeRunning.ofNat_succ]
      · rw [h.cursor, FreeRunning.ofNat_succ]
      · rw [h.cursor, FreeRunning.ofNat_succ]
      · rw [List.length_append, h.recorded, List.length_singleton]
      · rw [List.length_append, h.handled, List.length_singleton]

/-- The wrap: after `2 ^ 64 - 1` events one more is recorded and `write_head` is back at
zero; `stop` is called, and the thread exits without having handled it. -/
theorem wrap_not_drained : ∃ moves, (run moves).recorded.length = 2 ^ 64 ∧
    ¬ (run moves).Drained := by
  obtain ⟨s, h⟩ := caughtUp_all (2 ^ 64 - 1) (by decide)
  have ev : TelemetryEvent := .cancel 0 0 false
  obtain ⟨slots, hrecord⟩ := h.leads_recorded ev
  obtain ⟨moves, hmoves⟩ := h.reached.trans hrecord
  refine ⟨moves ++ [.stop, .watchdog, .watchdog], ?_⟩
  rw [run, List.foldl_append, hmoves]
  have hlength : (s.recorded ++ [ev]).length = 2 ^ 64 := by
    rw [List.length_append, h.recorded, List.length_singleton]
    omega
  have hwrapped : ¬ s.cursor < s.writeHead + 1 := by
    rw [h.cursor, h.writeHead]
    decide
  have hend : [Move.stop, .watchdog, .watchdog].foldl Channel.step
      { s with slots, writeHead := s.writeHead + 1, recorded := s.recorded ++ [ev] } =
      { s with
        slots, writeHead := s.writeHead + 1, recorded := s.recorded ++ [ev]
        running := false, watchdog := .exited, recordedAtStop := some (2 ^ 64) } := by
    simp only [List.foldl, Channel.step, callStop, h.recorder, stepWatchdog, h.watchdog, h.atStop,
      Option.none_or, hlength, if_neg hwrapped, Bool.false_eq_true, if_false]
  rw [hend]
  refine ⟨hlength, fun hdrained => ?_⟩
  have hle : 2 ^ 64 ≤ s.handled.length := hdrained rfl _ rfl
  rw [h.handled] at hle
  omega

end Channel

end VidhiArena.GameMaster
