import VidhiArena.Foundation.Faulting
import VidhiArena.Sandbox.Loader

/-!
# The handshake of the Game Master and the loader

Steps 3 to 6 of `run_simulation` and the tick loop of the loader, as two processes
over one page. A `Move` lets one of them do one load or one store; a run is any
list of moves. What the Game Master publishes and what `on_tick` returns are part
of the moves, so nothing is assumed of either. A loader that the watchdog kills is
one that is not moved any more.

The log keeps what the handshake is about: the calls of `on_tick`, the signals, how
every wait ended, and the orders that were executed.
-/

namespace VidhiArena.Sandbox

open VidhiArena.Foundation VidhiArena.GameMaster

/-! ## The two processes -/

/-- Where the loader is. -/
inductive LoaderPc where
  /-- spinning on `gm_sequence` -/
  | waiting
  | packing (todo : List PackOp)
  /-- back from `on_tick`: what is left to store -/
  | writing (todo : List Store)

/-- Where the Game Master is. -/
inductive MasterPc where
  | head
  | publishing (todo : List (Nat × Int64))
  /-- in `gm_wait_sandbox`, with so many polls left -/
  | waiting (spins : Nat)
  /-- timed out, before `sm->order_count = 0` -/
  | clearing
  /-- before the load of `order_count`; `tle` tells how the wait ended -/
  | counting (tle : Bool)
  /-- in order `i` of `n`, with some of its words loaded -/
  | reading (i n : Nat) (got : List Int64)
  | finished

inductive Event where
  /-- `on_tick` has returned these orders for sequence `seq` -/
  | ticked (seq : UInt64) (orders : List OrderWord)
  | signalled (seq : UInt64)
  | seen (seq : UInt64)
  | timedOut (seq : UInt64)
  | executed (seq : UInt64) (i : Nat) (w : OrderWord)
deriving DecidableEq

structure Session where
  page : Page
  gm : MasterPc
  seq : UInt64
  tick : Nat
  sb : LoaderPc
  lastSeen : UInt64
  marketData : Slots
  log : List Event

def Session.init : Session :=
  ⟨Page.zero, .head, 1, 0, .waiting, 0, fun _ => 0, []⟩

def maxSpins : Nat := 20000

/-- One action of the Game Master; `published` is what it stores into the market
block for the tick that begins. -/
def Session.stepMaster (maxTicks : Int64) (s : Session) (published : List (Nat × Int64)) :
    Session :=
  match s.gm with
  | .head =>
      if (s.tick : Int) < maxTicks.toInt then { s with gm := .publishing published }
      else { s with gm := .finished }
  | .publishing (z :: todo) =>
      { s with page := s.page.store (.market z.1 z.2), gm := .publishing todo }
  | .publishing [] =>
      { s with page := s.page.store (.gmSequence s.seq), gm := .waiting maxSpins }
  | .waiting 0 => { s with gm := .clearing, log := s.log ++ [.timedOut s.seq] }
  | .waiting (spins + 1) =>
      if s.page.sbSequence = s.seq then
        { s with gm := .counting false, log := s.log ++ [.seen s.seq] }
      else { s with gm := .waiting spins }
  | .clearing => { s with page := s.page.store (.zone 0 0), gm := .counting true }
  | .counting _ => { s with gm := .reading 0 (min s.page.orderCount 4).toInt.toNat [] }
  | .reading i n got =>
      if i < n then
        match got with
        | [type, priceFp, volume] =>
            { s with
              gm := .reading (i + 1) n []
              log := s.log ++
                [.executed s.seq i ⟨type, priceFp, volume, s.page.orderWord i got.length⟩] }
        | got => { s with gm := .reading i n (got ++ [s.page.orderWord i got.length]) }
      else { s with gm := .head, tick := s.tick + 1, seq := s.seq + 1 }
  | .finished => s

/-- One action of the loader; `out` is what `on_tick` leaves in `order_out` if it is
called now. -/
def Session.stepLoader (s : Session) (out : Slots) : Session :=
  match s.sb with
  | .waiting =>
      if s.page.gmSequence = s.lastSeen then s
      else { s with sb := .packing PackOp.all, lastSeen := s.page.gmSequence }
  | .packing (op :: todo) =>
      let (more, marketData) := op.exec s.page s.marketData
      { s with sb := .packing (more ++ todo), marketData }
  | .packing [] =>
      { s with
        sb := .writing (answer s.lastSeen (zoneStores out))
        log := s.log ++ [.ticked s.lastSeen (ordersIn out)] }
  | .writing [] => { s with sb := .waiting }
  | .writing (.sbSequence seq :: todo) =>
      { s with
        page := s.page.store (.sbSequence seq)
        sb := .writing todo
        log := s.log ++ [.signalled seq] }
  | .writing (store :: todo) => { s with page := s.page.store store, sb := .writing todo }

inductive Move where
  | gm (published : List (Nat × Int64))
  | sandbox (out : Slots)

def Session.step (maxTicks : Int64) (s : Session) : Move → Session
  | .gm published => s.stepMaster maxTicks published
  | .sandbox out => s.stepLoader out

def Session.run (maxTicks : Int64) (moves : List Move) : Session :=
  moves.foldl (Session.step maxTicks) Session.init

/-! ## What the handshake is for -/

/-- Every executed order is an answer to its own tick: it is order `i` of those
that `on_tick` returned for the sequence number of the tick, the signal of that call
was seen by the wait, and the wait did not time out. -/
def Answered (log : List Event) : Prop :=
  ∀ t i w, .executed t i w ∈ log → .timedOut t ∉ log ∧
    ∃ ws : List OrderWord, ws[i]? = some w ∧
      [.ticked t ws, .signalled t, .seen t, .executed t i w].Sublist log

/-- The late store: the Game Master has given up on the tick and has cleared
`order_count`, and before it loads it back the loader stores the number of orders of
an answer. -/
def Session.lateCount (s : Session) : Move → Bool
  | .gm _ => false
  | .sandbox _ =>
      match s.gm, s.sb with
      | .counting true, .writing (.zone slot v :: _) => slot = 0 && v ≠ 0
      | _, _ => false

/-! ## The log -/

section Log

variable {log : List Event} {t : UInt64} {i : Nat} {w : OrderWord}

theorem Answered.seen (h : Answered log) (he : .executed t i w ∈ log) : .seen t ∈ log := by
  obtain ⟨-, ws, -, hsub⟩ := h t i w he
  exact hsub.subset (by simp)

theorem Answered.append_other (h : Answered log) {e : Event} (he : ∀ t i w, e ≠ .executed t i w)
    (htimeout : ∀ t, e = .timedOut t → .seen t ∉ log) : Answered (log ++ [e]) := by
  intro t i w hmem
  have hold : .executed t i w ∈ log :=
    (List.mem_append.mp hmem).resolve_right fun hc => he t i w (List.mem_singleton.mp hc).symm
  obtain ⟨hnot, ws, hw, hsub⟩ := h t i w hold
  refine ⟨fun hc => ?_, ws, hw, hsub.trans (List.sublist_append_left ..)⟩
  rcases List.mem_append.mp hc with hc | hc
  · exact hnot hc
  · exact htimeout t (List.mem_singleton.mp hc).symm (h.seen hold)

theorem Answered.append_executed (h : Answered log) (hnot : .timedOut t ∉ log)
    {ws : List OrderWord} (hw : ws[i]? = some w)
    (hsub : [.ticked t ws, .signalled t, .seen t].Sublist log) :
    Answered (log ++ [.executed t i w]) := by
  intro t' i' w' hmem
  rcases List.mem_append.mp hmem with hold | hnew
  · obtain ⟨hnot', ws', hw', hsub'⟩ := h t' i' w' hold
    refine ⟨fun hc => ?_, ws', hw', hsub'.trans (List.sublist_append_left ..)⟩
    rcases List.mem_append.mp hc with hc | hc
    · exact hnot' hc
    · cases List.mem_singleton.mp hc
  · cases List.mem_singleton.mp hnew
    refine ⟨fun hc => ?_, ws, hw, hsub.append (List.Sublist.refl [_])⟩
    rcases List.mem_append.mp hc with hc | hc
    · exact hnot hc
    · cases List.mem_singleton.mp hc

end Log

/-! ## The invariant -/

namespace MasterPc

/-- `gm_sequence` is that of the running tick. -/
def signalled : MasterPc → Bool
  | head | publishing _ | finished => false
  | waiting _ | clearing | counting _ | reading .. => true

/-- The wait of the running tick is over. -/
def ended : MasterPc → Bool
  | head | publishing _ | waiting _ | finished => false
  | clearing | counting _ | reading .. => true

def inTick : MasterPc → Bool
  | head | finished => false
  | publishing _ | waiting _ | clearing | counting _ | reading .. => true

end MasterPc

namespace Session

variable {s : Session}

/-- The Game Master polls for an answer to the sequence number that the loader
works on, or has worked on last. -/
def Expected (s : Session) : Prop := (∃ spins, s.gm = .waiting spins) ∧ s.lastSeen = s.seq

/-- The loader, in its three phases. While the Game Master polls for it, the
stores that are left complete the answer. -/
inductive LoaderOk (s : Session) : Prop
  | idle (pc : s.sb = .waiting ∨ s.sb = .writing []) (sent : s.page.sbSequence = s.lastSeen)
      (done : s.Expected → ∃ ws, ws.length ≤ orderSlots ∧ s.page.Holds ws ∧
        [.ticked s.seq ws, .signalled s.seq].Sublist s.log)
  | packing (todo : List PackOp) (pc : s.sb = .packing todo)
      (unsent : s.page.sbSequence.toNat < s.lastSeen.toNat)
  | writing (zs : List (Nat × Int64)) (ws : List OrderWord)
      (pc : s.sb = .writing (answer s.lastSeen zs))
      (unsent : s.page.sbSequence.toNat < s.lastSeen.toNat)
      (ticked : .ticked s.lastSeen ws ∈ s.log) (few : ws.length ≤ orderSlots)
      (rest : s.Expected → Page.Holds { s.page with zone := Page.written s.page.zone zs } ws)

/-- The answer `ws` has been seen: the loader is done with it and the order block is
at rest. -/
structure Served (s : Session) (ws : List OrderWord) : Prop where
  pc : s.sb = .waiting ∨ s.sb = .writing []
  current : s.page.gmSequence = s.lastSeen
  few : ws.length ≤ orderSlots
  holds : s.page.Holds ws
  log : [.ticked s.seq ws, .signalled s.seq, .seen s.seq].Sublist s.log
  inTime : .timedOut s.seq ∉ s.log

def MasterOk (s : Session) : Prop :=
  match s.gm with
  | .counting true => s.page.orderCount = 0
  | .counting false => ∃ ws, s.Served ws
  | .reading i n got => n = 0 ∨ ∃ ws, s.Served ws ∧ n = ws.length ∧ got.length < 4 ∧
      ∀ w : OrderWord, ws[i]? = some w → got <+: [w.type, w.priceFp, w.volume, w.orderId]
  | _ => True

structure Inv (maxTicks : Int64) (s : Session) : Prop where
  seq_eq : s.seq.toNat = s.tick + 1
  tick_lt : s.tick < 2 ^ 63
  inTick : s.gm.inTick = true → (s.tick : Int) < maxTicks.toInt
  signal : s.page.gmSequence.toNat = s.tick + s.gm.signalled.toNat
  seen_le : s.lastSeen.toNat ≤ s.page.gmSequence.toNat
  waits : ∀ t, .seen t ∈ s.log ∨ .timedOut t ∈ s.log → t.toNat ≤ s.tick + s.gm.ended.toNat
  loader : s.LoaderOk
  master : s.MasterOk
  answered : Answered s.log

theorem inv_init (maxTicks : Int64) : Inv maxTicks init where
  seq_eq := rfl
  tick_lt := by decide
  inTick := nofun
  signal := rfl
  seen_le := le_refl _
  waits := by rintro t (h | h) <;> exact absurd h List.not_mem_nil
  loader := .idle (.inl rfl) rfl fun h => nomatch h.1.choose_spec
  master := trivial
  answered := fun t i w h => absurd h List.not_mem_nil

/-! ## The loader moves -/

theorem MasterOk.of_loader {s' : Session} (h : s.MasterOk) (hgm : s'.gm = s.gm)
    (hcount : s.gm = .counting true → s.page.orderCount = 0 → s'.page.orderCount = 0)
    (hserved : ∀ ws, s.Served ws → s'.Served ws) : s'.MasterOk := by
  unfold MasterOk at h ⊢
  rw [hgm]
  cases hpc : s.gm with
  | counting tle =>
      rw [hpc] at h hcount
      cases tle with
      | true => exact hcount rfl h
      | false => exact h.imp hserved
  | reading i n got =>
      rw [hpc] at h
      exact h.imp_right fun ⟨ws, hws, hrest⟩ => ⟨ws, hserved ws hws, hrest⟩
  | head | publishing _ | waiting _ | clearing | finished => trivial

theorem Served.not_packing {ws : List OrderWord} (h : s.Served ws) {todo : List PackOp} :
    s.sb ≠ .packing todo := by
  intro hpc
  rcases h.pc with hsb | hsb <;> rw [hpc] at hsb <;> cases hsb

theorem Served.not_writing {ws : List OrderWord} (h : s.Served ws) {store : Store}
    {todo : List Store} : s.sb ≠ .writing (store :: todo) := by
  intro hpc
  rcases h.pc with hsb | hsb <;> rw [hpc] at hsb <;> cases hsb

variable {maxTicks : Int64} {out : Slots}

theorem Inv.loader_waiting (h : Inv maxTicks s) (hpc : s.sb = .waiting)
    (hsent : s.page.sbSequence = s.lastSeen) : Inv maxTicks (s.stepLoader out) := by
  simp only [stepLoader, hpc]
  split
  · exact h
  · next hne =>
      have hlt : s.lastSeen.toNat < s.page.gmSequence.toNat :=
        lt_of_le_of_ne h.seen_le fun heq => hne (UInt64.toNat_inj.mp heq).symm
      refine ⟨h.seq_eq, h.tick_lt, h.inTick, h.signal, le_refl _, h.waits, ?_, ?_, h.answered⟩
      · exact .packing _ rfl (hsent ▸ hlt)
      · exact h.master.of_loader rfl (fun _ hzero => hzero) fun ws hws => absurd hws.current hne

theorem Inv.loader_packing (h : Inv maxTicks s) {todo : List PackOp} (hpc : s.sb = .packing todo)
    (hunsent : s.page.sbSequence.toNat < s.lastSeen.toNat) :
    Inv maxTicks (s.stepLoader out) := by
  have hserved : ∀ {s' : Session} ws, s.Served ws → s'.Served ws :=
    fun ws hws => absurd hpc hws.not_packing
  cases todo with
  | cons op todo =>
      simp only [stepLoader, hpc]
      refine ⟨h.seq_eq, h.tick_lt, h.inTick, h.signal, h.seen_le, h.waits, ?_, ?_, h.answered⟩
      · exact .packing _ rfl hunsent
      · exact h.master.of_loader rfl (fun _ hzero => hzero) hserved
  | nil =>
      simp only [stepLoader, hpc]
      refine ⟨h.seq_eq, h.tick_lt, h.inTick, h.signal, h.seen_le, fun t ht => h.waits t ?_, ?_, ?_,
        h.answered.append_other nofun nofun⟩
      · simpa using ht
      · exact .writing (zoneStores out) (ordersIn out) rfl hunsent (by simp) (ordersIn_length out)
          fun _ => s.page.holds_zoneStores out
      · exact h.master.of_loader rfl (fun _ hzero => hzero) hserved

theorem Inv.loader_store (h : Inv maxTicks s) {z : Nat × Int64} {zs : List (Nat × Int64)}
    {ws : List OrderWord} (hpc : s.sb = .writing (answer s.lastSeen (z :: zs)))
    (hunsent : s.page.sbSequence.toNat < s.lastSeen.toNat)
    (hticked : .ticked s.lastSeen ws ∈ s.log) (hfew : ws.length ≤ orderSlots)
    (hrest : s.Expected →
      Page.Holds { s.page with zone := Page.written s.page.zone (z :: zs) } ws)
    (htimely : s.lateCount (.sandbox out) = false) : Inv maxTicks (s.stepLoader out) := by
  have hstep : s.stepLoader out = { s with
      page := s.page.store (.zone z.1 z.2), sb := .writing (answer s.lastSeen zs) } := by
    simp only [stepLoader, hpc, answer, List.map_cons, List.cons_append]
  rw [hstep]
  refine ⟨h.seq_eq, h.tick_lt, h.inTick, h.signal, h.seen_le, h.waits, ?_, ?_, h.answered⟩
  · exact .writing zs ws rfl hunsent hticked hfew hrest
  · refine h.master.of_loader rfl (fun hcounting hzero => ?_) fun ws hws =>
      absurd hpc hws.not_writing
    -- the number of orders may not arrive now
    refine (s.page.orderCount_store z.1 z.2).trans ?_
    split
    · next hslot =>
        simpa [lateCount, hcounting, hpc, answer, hslot] using htimely
    · exact hzero

theorem Inv.loader_signal (h : Inv maxTicks s) {ws : List OrderWord}
    (hpc : s.sb = .writing (answer s.lastSeen [])) (hticked : .ticked s.lastSeen ws ∈ s.log)
    (hfew : ws.length ≤ orderSlots)
    (hrest : s.Expected → Page.Holds { s.page with zone := Page.written s.page.zone [] } ws) :
    Inv maxTicks (s.stepLoader out) := by
  have hstep : s.stepLoader out = { s with
      page := s.page.store (.sbSequence s.lastSeen), sb := .writing []
      log := s.log ++ [.signalled s.lastSeen] } := by
    simp only [stepLoader, hpc, answer, List.map_nil, List.nil_append]
  rw [hstep]
  refine ⟨h.seq_eq, h.tick_lt, h.inTick, h.signal, h.seen_le, fun t ht => h.waits t ?_, ?_, ?_,
    h.answered.append_other nofun nofun⟩
  · simpa using ht
  · refine .idle (.inr rfl) rfl fun hexp => ⟨ws, hfew, hrest hexp, ?_⟩
    have hseq : s.lastSeen = s.seq := hexp.2
    rw [hseq] at hticked ⊢
    exact (List.singleton_sublist.mpr hticked).append (List.Sublist.refl [_])
  · exact h.master.of_loader rfl (fun _ hzero => hzero) fun ws hws => absurd hpc hws.not_writing

theorem Inv.stepLoader (h : Inv maxTicks s) (htimely : s.lateCount (.sandbox out) = false) :
    Inv maxTicks (s.stepLoader out) := by
  cases h.loader with
  | idle hpc hsent hdone =>
      rcases hpc with hpc | hpc
      · exact h.loader_waiting hpc hsent
      · simp only [Session.stepLoader, hpc]
        refine ⟨h.seq_eq, h.tick_lt, h.inTick, h.signal, h.seen_le, h.waits, ?_, ?_, h.answered⟩
        · exact .idle (.inl rfl) hsent hdone
        · exact h.master.of_loader rfl (fun _ hzero => hzero) fun ws hws =>
            ⟨.inl rfl, hws.current, hws.few, hws.holds, hws.log, hws.inTime⟩
  | packing todo hpc hunsent => exact h.loader_packing hpc hunsent
  | writing zs ws hpc hunsent hticked hfew hrest =>
      cases zs with
      | nil => exact h.loader_signal hpc hticked hfew hrest
      | cons z zs => exact h.loader_store hpc hunsent hticked hfew hrest htimely

/-! ## The Game Master moves -/

theorem LoaderOk.of_master {s' : Session} (h : s.LoaderOk) (hsb : s'.sb = s.sb)
    (hseen : s'.lastSeen = s.lastSeen) (hsent : s'.page.sbSequence = s.page.sbSequence)
    (hlog : s.log <+: s'.log)
    (hexp : s'.Expected → s.Expected ∧ s'.seq = s.seq ∧ s'.page.zone = s.page.zone) :
    s'.LoaderOk := by
  cases h with
  | idle hpc hsent' hdone =>
      refine .idle (hsb ▸ hpc) (hsent.trans (hsent'.trans hseen.symm)) fun h => ?_
      obtain ⟨hold, hseq, hzone⟩ := hexp h
      obtain ⟨ws, hfew, hws, hsub⟩ := hdone hold
      rw [hseq]
      refine ⟨ws, hfew, ?_, hsub.trans hlog.sublist⟩
      unfold Page.Holds Page.orderCount Page.orderWord at hws ⊢
      rwa [hzone]
  | packing todo hpc hunsent =>
      exact .packing todo (hsb.trans hpc) (by rwa [hsent, hseen])
  | writing zs ws hpc hunsent hticked hfew hrest =>
      refine .writing zs ws (by rw [hsb, hseen, hpc]) (by rwa [hsent, hseen]) ?_ hfew fun h => ?_
      · rw [hseen]
        exact hlog.subset hticked
      · obtain ⟨hold, -, hzone⟩ := hexp h
        rw [hzone]
        exact hrest hold

theorem Inv.master_head (h : Inv maxTicks s) (hpc : s.gm = .head)
    (published : List (Nat × Int64)) : Inv maxTicks (s.stepMaster maxTicks published) := by
  have hsignal := h.signal
  have hwaits := h.waits
  rw [hpc] at hsignal hwaits
  simp only [stepMaster, hpc]
  split
  · next hlt =>
      refine ⟨h.seq_eq, h.tick_lt, fun _ => hlt, hsignal, h.seen_le, hwaits, ?_, trivial, h.answered⟩
      exact h.loader.of_master rfl rfl rfl List.prefix_rfl fun hexp => nomatch hexp.1.choose_spec
  · refine ⟨h.seq_eq, h.tick_lt, nofun, hsignal, h.seen_le, hwaits, ?_, trivial, h.answered⟩
    exact h.loader.of_master rfl rfl rfl List.prefix_rfl fun hexp => nomatch hexp.1.choose_spec

theorem Inv.master_publishing (h : Inv maxTicks s) {todo : List (Nat × Int64)}
    (hpc : s.gm = .publishing todo) (published : List (Nat × Int64)) :
    Inv maxTicks (s.stepMaster maxTicks published) := by
  have hsignal := h.signal
  have hwaits := h.waits
  have htick := h.inTick
  rw [hpc] at hsignal hwaits htick
  cases todo with
  | cons z todo =>
      simp only [stepMaster, hpc]
      refine ⟨h.seq_eq, h.tick_lt, htick, hsignal, h.seen_le, hwaits, ?_, trivial, h.answered⟩
      exact h.loader.of_master rfl rfl rfl List.prefix_rfl fun hexp => nomatch hexp.1.choose_spec
  | nil =>
      simp only [stepMaster, hpc]
      have hold : s.page.gmSequence.toNat < s.seq.toNat := by
        rw [hsignal, h.seq_eq]
        exact Nat.lt_succ_self _
      refine ⟨h.seq_eq, h.tick_lt, htick, h.seq_eq, ?_, hwaits, ?_, trivial, h.answered⟩
      · exact (h.seen_le.trans_lt hold).le
      · -- nobody has seen the new number yet
        refine h.loader.of_master rfl rfl rfl List.prefix_rfl fun hexp => ?_
        have hseen : s.lastSeen = s.seq := hexp.2
        exact absurd (hseen ▸ h.seen_le) (not_le.mpr hold)

theorem Inv.master_waiting (h : Inv maxTicks s) {spins : Nat} (hpc : s.gm = .waiting spins)
    (published : List (Nat × Int64)) : Inv maxTicks (s.stepMaster maxTicks published) := by
  have hsignal := h.signal
  have hwaits := h.waits
  have htick := h.inTick
  rw [hpc] at hsignal hwaits htick
  have hfresh : .seen s.seq ∉ s.log ∧ .timedOut s.seq ∉ s.log := by
    have hle : ∀ hmem, s.seq.toNat ≤ s.tick := hwaits s.seq
    rw [h.seq_eq] at hle
    exact ⟨fun hc => absurd (hle (.inl hc)) (Nat.not_succ_le_self _),
      fun hc => absurd (hle (.inr hc)) (Nat.not_succ_le_self _)⟩
  have hended : ∀ (e : Event), e = .seen s.seq ∨ e = .timedOut s.seq → ∀ t,
      .seen t ∈ s.log ++ [e] ∨ .timedOut t ∈ s.log ++ [e] → t.toNat ≤ s.tick + 1 := by
    intro e he t ht
    have hold : .seen t ∈ s.log ∨ .timedOut t ∈ s.log → t.toNat ≤ s.tick + 1 :=
      fun hmem => (hwaits t hmem).trans (Nat.le_succ _)
    simp only [List.mem_append, List.mem_singleton] at ht
    rcases he with rfl | rfl
    · rcases ht with (ht | ht) | (ht | ht)
      · exact hold (.inl ht)
      · cases ht
        exact h.seq_eq.le
      · exact hold (.inr ht)
      · cases ht
    · rcases ht with (ht | ht) | (ht | ht)
      · exact hold (.inl ht)
      · cases ht
      · exact hold (.inr ht)
      · cases ht
        exact h.seq_eq.le
  cases spins with
  | zero =>
      simp only [stepMaster, hpc]
      refine ⟨h.seq_eq, h.tick_lt, htick, hsignal, h.seen_le, hended _ (.inr rfl), ?_, trivial, ?_⟩
      · exact h.loader.of_master rfl rfl rfl (List.prefix_append ..)
          fun hexp => nomatch hexp.1.choose_spec
      · refine h.answered.append_other nofun fun t ht => ?_
        cases ht
        exact hfresh.1
  | succ spins =>
      simp only [stepMaster, hpc]
      split
      · next hsent =>
          refine ⟨h.seq_eq, h.tick_lt, htick, hsignal, h.seen_le, hended _ (.inl rfl), ?_, ?_, ?_⟩
          · exact h.loader.of_master rfl rfl rfl (List.prefix_append ..)
              fun hexp => nomatch hexp.1.choose_spec
          · -- the loader has sent this number, so it is done with it
            have hgm : s.page.gmSequence = s.seq :=
              UInt64.toNat_inj.mp (hsignal.trans h.seq_eq.symm)
            have hnot : ¬ s.page.sbSequence.toNat < s.lastSeen.toNat := by
              rw [hsent, ← hgm]
              exact not_lt.mpr h.seen_le
            cases h.loader with
            | idle hidle hlast hdone =>
                have hseen : s.lastSeen = s.seq := hlast.symm.trans hsent
                obtain ⟨ws, hfew, hws, hsub⟩ := hdone ⟨⟨_, hpc⟩, hseen⟩
                refine ⟨ws, hidle, hgm.trans hseen.symm, hfew, hws,
                  hsub.append (List.Sublist.refl [_]), fun hc => ?_⟩
                rcases List.mem_append.mp hc with hc | hc
                · exact hfresh.2 hc
                · cases List.mem_singleton.mp hc
            | packing todo _ hunsent => exact absurd hunsent hnot
            | writing zs ws _ hunsent _ _ _ => exact absurd hunsent hnot
          · exact h.answered.append_other nofun nofun
      · refine ⟨h.seq_eq, h.tick_lt, htick, hsignal, h.seen_le, hwaits, ?_, trivial, h.answered⟩
        exact h.loader.of_master rfl rfl rfl List.prefix_rfl fun hexp =>
          ⟨⟨⟨_, hpc⟩, hexp.2⟩, rfl, rfl⟩

theorem Inv.master_clearing (h : Inv maxTicks s) (hpc : s.gm = .clearing)
    (published : List (Nat × Int64)) : Inv maxTicks (s.stepMaster maxTicks published) := by
  have hsignal := h.signal
  have hwaits := h.waits
  have htick := h.inTick
  rw [hpc] at hsignal hwaits htick
  simp only [stepMaster, hpc]
  refine ⟨h.seq_eq, h.tick_lt, htick, hsignal, h.seen_le, hwaits, ?_, ?_, h.answered⟩
  · exact h.loader.of_master rfl rfl rfl List.prefix_rfl fun hexp => nomatch hexp.1.choose_spec
  · exact s.page.orderCount_store 0 0

theorem Served.count {ws : List OrderWord} (h : s.Served ws) :
    (min s.page.orderCount 4).toInt.toNat = ws.length := by
  have hcount : ∀ n, n ≤ orderSlots → (min (Int64.ofNat n) 4).toInt.toNat = n := by decide
  rw [h.holds.1]
  exact hcount _ h.few

theorem Inv.master_counting (h : Inv maxTicks s) {tle : Bool} (hpc : s.gm = .counting tle)
    (published : List (Nat × Int64)) : Inv maxTicks (s.stepMaster maxTicks published) := by
  have hsignal := h.signal
  have hwaits := h.waits
  have htick := h.inTick
  have hmaster := h.master
  unfold MasterOk at hmaster
  rw [hpc] at hsignal hwaits htick hmaster
  simp only [stepMaster, hpc]
  refine ⟨h.seq_eq, h.tick_lt, htick, hsignal, h.seen_le, hwaits, ?_, ?_, h.answered⟩
  · exact h.loader.of_master rfl rfl rfl List.prefix_rfl fun hexp => nomatch hexp.1.choose_spec
  · cases tle with
    | true =>
        left
        have hzero : s.page.orderCount = 0 := hmaster
        rw [hzero]
        rfl
    | false =>
        right
        obtain ⟨ws, hws⟩ := hmaster
        exact ⟨ws, ⟨hws.pc, hws.current, hws.few, hws.holds, hws.log, hws.inTime⟩, hws.count,
          by decide, fun w _ => List.nil_prefix⟩

theorem next_word {page : Page} {i : Nat} {w : OrderWord} {got : List Int64}
    (hw : w = ⟨page.orderWord i 0, page.orderWord i 1, page.orderWord i 2, page.orderWord i 3⟩)
    (hpre : got <+: [w.type, w.priceFp, w.volume, w.orderId]) (hlen : got.length < 4) :
    got ++ [page.orderWord i got.length] <+: [w.type, w.priceFp, w.volume, w.orderId] := by
  obtain ⟨rest, hrest⟩ := hpre
  subst hw
  rcases got with _ | ⟨a, _ | ⟨b, _ | ⟨c, _ | ⟨d, got⟩⟩⟩⟩
  · exact ⟨_, rfl⟩
  · cases hrest
    exact ⟨_, rfl⟩
  · cases hrest
    exact ⟨_, rfl⟩
  · cases hrest
    exact ⟨_, rfl⟩
  · simp only [List.length_cons] at hlen
    omega

theorem Inv.master_load (h : Inv maxTicks s) {i n : Nat} {got : List Int64}
    (hpc : s.gm = .reading i n got) (hlt : i < n) (published : List (Nat × Int64)) :
    Inv maxTicks (s.stepMaster maxTicks published) := by
  have hsignal := h.signal
  have hwaits := h.waits
  have htick := h.inTick
  have hmaster := h.master
  unfold MasterOk at hmaster
  rw [hpc] at hsignal hwaits htick hmaster
  obtain hzero | ⟨ws, hws, hn, hlen, hpre⟩ := hmaster
  · exact absurd hlt (by rw [hzero]; exact Nat.not_lt_zero _)
  obtain ⟨w, hw⟩ : ∃ w, ws[i]? = some w := ⟨_, List.getElem?_eq_getElem (hn ▸ hlt)⟩
  have hnext := next_word (hws.holds.2 i w hw) (hpre w hw) hlen
  rcases Nat.lt_succ_iff_lt_or_eq.mp hlen with hfew | hthree
  · have hstep : s.stepMaster maxTicks published =
        { s with gm := .reading i n (got ++ [s.page.orderWord i got.length]) } := by
      simp only [stepMaster, hpc, if_pos hlt]
      split
      · exact absurd hfew (lt_irrefl 3)
      · rfl
    rw [hstep]
    refine ⟨h.seq_eq, h.tick_lt, htick, hsignal, h.seen_le, hwaits, ?_, ?_, h.answered⟩
    · exact h.loader.of_master rfl rfl rfl List.prefix_rfl fun hexp => nomatch hexp.1.choose_spec
    · refine .inr ⟨ws, ⟨hws.pc, hws.current, hws.few, hws.holds, hws.log, hws.inTime⟩, hn,
        ?_, fun w' hw' => ?_⟩
      · rw [List.length_append]
        exact Nat.succ_lt_succ hfew
      · cases hw.symm.trans hw'
        exact hnext
  · -- the last word of the order
    obtain ⟨type, priceFp, volume, rfl⟩ := List.length_eq_three.mp hthree
    have hexec : w = ⟨type, priceFp, volume, s.page.orderWord i 3⟩ := by
      obtain ⟨rest, hrest⟩ := hnext
      simp only [List.cons_append, List.nil_append, List.cons.injEq] at hrest
      obtain ⟨htype, hprice, hvolume, hid, -⟩ := hrest
      rw [htype, hprice, hvolume, show s.page.orderWord i 3 = w.orderId from hid]
    have hstep : s.stepMaster maxTicks published = { s with
        gm := .reading (i + 1) n [], log := s.log ++ [.executed s.seq i w] } := by
      rw [hexec]
      simp only [stepMaster, hpc, if_pos hlt]
      rfl
    rw [hstep]
    refine ⟨h.seq_eq, h.tick_lt, htick, hsignal, h.seen_le, fun t ht => hwaits t ?_, ?_, ?_,
      h.answered.append_executed hws.inTime hw hws.log⟩
    · simpa using ht
    · exact h.loader.of_master rfl rfl rfl (List.prefix_append ..)
        fun hexp => nomatch hexp.1.choose_spec
    · refine .inr ⟨ws, ⟨hws.pc, hws.current, hws.few, hws.holds,
        hws.log.trans (List.sublist_append_left ..), ?_⟩, hn, by decide, fun _ _ => List.nil_prefix⟩
      simpa using hws.inTime

theorem Inv.master_next (h : Inv maxTicks s) {i n : Nat} {got : List Int64}
    (hpc : s.gm = .reading i n got) (hend : ¬ i < n) (published : List (Nat × Int64)) :
    Inv maxTicks (s.stepMaster maxTicks published) := by
  have hsignal := h.signal
  have hwaits := h.waits
  have htick := h.inTick
  rw [hpc] at hsignal hwaits htick
  simp only [stepMaster, hpc, if_neg hend]
  have hlt : s.tick + 1 < 2 ^ 63 := by
    have hticks := htick rfl
    have hmax := Int64.toInt_lt maxTicks
    omega
  refine ⟨?_, hlt, nofun, hsignal, h.seen_le, hwaits, ?_, trivial, h.answered⟩
  · rw [UInt64.toNat_add, UInt64.toNat_one, h.seq_eq, Nat.mod_eq_of_lt (by omega)]
  · exact h.loader.of_master rfl rfl rfl List.prefix_rfl fun hexp => nomatch hexp.1.choose_spec

theorem Inv.stepMaster (h : Inv maxTicks s) (published : List (Nat × Int64)) :
    Inv maxTicks (s.stepMaster maxTicks published) := by
  cases hpc : s.gm with
  | head => exact h.master_head hpc published
  | publishing todo => exact h.master_publishing hpc published
  | waiting spins => exact h.master_waiting hpc published
  | clearing => exact h.master_clearing hpc published
  | counting tle => exact h.master_counting hpc published
  | reading i n got =>
      by_cases hlt : i < n
      · exact h.master_load hpc hlt published
      · exact h.master_next hpc hlt published
  | finished =>
      rw [show s.stepMaster maxTicks published = s by simp only [Session.stepMaster, hpc]]
      exact h

end Session

/-! ## Runs -/

/-- In every run without a late store the Game Master executes answers only, and
none in a tick that it counts as a timeout. -/
theorem executed_orders_answered {maxTicks : Int64} {moves : List Move}
    (htimely : Along (Session.step maxTicks) (fun s m => s.lateCount m = false) Session.init moves) :
    Answered (Session.run maxTicks moves).log := by
  have hstep : ∀ s m, Session.Inv maxTicks s → s.lateCount m = false →
      Session.Inv maxTicks (s.step maxTicks m) := by
    intro s m h hm
    cases m with
    | gm published => exact h.stepMaster published
    | sandbox out => exact h.stepLoader hm
  exact (foldl_inv (Session.Inv maxTicks) hstep moves _ (Session.inv_init maxTicks) htimely).answered

/-- The contestant answers with one order: buy ten at the market. -/
def marketBuyTen : Slots := fun k => if k = 1 then 3 else if k = 3 then 10 else 0

/-- The first tick is published; the loader packs and calls `on_tick`. -/
def beforeTimeout : List Move :=
  [.gm [], .gm []] ++ List.replicate 41 (.sandbox marketBuyTen)

/-- An answer in time: it is signalled before the first poll, and the order is
executed. -/
theorem executed_orders_answered_in_time :
    let moves := beforeTimeout ++ List.replicate 23 (.sandbox marketBuyTen) ++
      List.replicate 6 (.gm [])
    Along (Session.step 1000000) (fun s m => s.lateCount m = false) Session.init moves ∧
      .executed 1 0 ⟨3, 0, 10, 0⟩ ∈ (Session.run 1000000 moves).log ∧
      Answered (Session.run 1000000 moves).log := by
  intro moves
  have htimely : Along (Session.step 1000000) (fun s m => s.lateCount m = false) Session.init
      moves := by decide +kernel
  exact ⟨htimely, by decide +kernel, executed_orders_answered htimely⟩

/-! ## The late store -/

theorem polls_time_out (maxTicks : Int64) : ∀ (spins : Nat) (s : Session),
    s.gm = .waiting spins → s.page.sbSequence ≠ s.seq →
    (List.replicate (spins + 1) (Move.gm [])).foldl (Session.step maxTicks) s =
      { s with gm := .clearing, log := s.log ++ [.timedOut s.seq] } := by
  intro spins
  induction spins with
  | zero =>
      intro s hpc _
      rw [List.replicate_succ, List.foldl_cons]
      simp only [Session.step, Session.stepMaster, hpc, List.replicate_zero, List.foldl_nil]
  | succ spins ih =>
      intro s hpc hne
      rw [List.replicate_succ, List.foldl_cons]
      have hstep : s.step maxTicks (.gm []) = { s with gm := .waiting spins } := by
        simp only [Session.step, Session.stepMaster, hpc, if_neg hne]
      rw [hstep]
      exact ih _ rfl hne

/-- After the timeout: `order_count = 0`, then all stores of the answer but the
signal, then the load of `order_count` and the words of one order. -/
def afterTimeout : List Move :=
  [.gm []] ++ List.replicate 22 (.sandbox marketBuyTen) ++ List.replicate 5 (.gm [])

/-- A late answer is executed: the wait of the first tick has timed out, and the
order is executed all the same, in that tick. -/
theorem late_answer_executed :
    let log := (Session.run 1000000
      (beforeTimeout ++ List.replicate (maxSpins + 1) (.gm []) ++ afterTimeout)).log
    .timedOut 1 ∈ log ∧ .executed 1 0 ⟨3, 0, 10, 0⟩ ∈ log ∧ ¬ Answered log := by
  intro log
  have hpolls := polls_time_out 1000000 maxSpins (Session.run 1000000 beforeTimeout)
    (by rfl) (by decide +kernel)
  have hlog : log = (afterTimeout.foldl (Session.step 1000000)
      { Session.run 1000000 beforeTimeout with
        gm := .clearing
        log := (Session.run 1000000 beforeTimeout).log ++
          [.timedOut (Session.run 1000000 beforeTimeout).seq] }).log := by
    rw [← hpolls]
    simp only [log, Session.run, List.foldl_append]
  have hmem : .timedOut 1 ∈ log ∧ .executed 1 0 ⟨3, 0, 10, 0⟩ ∈ log := by
    rw [hlog]
    decide +kernel
  exact ⟨hmem.1, hmem.2, fun h => (h 1 0 _ hmem.2).1 hmem.1⟩

end VidhiArena.Sandbox
