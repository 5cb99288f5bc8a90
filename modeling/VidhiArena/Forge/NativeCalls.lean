import VidhiArena.Forge.OrderBuffer
import VidhiArena.Foundation.Processes

/-!
# The calls of a native strategy

What becomes of the calls that a strategy makes through its `OrderBuffer`s in a call of
`on_tick`. Whether it makes a buffer, and how many, is up to the strategy. Each counts its own
calls from 0 and starts at the first slot, and only the making of one sets `order_count` back.

A strategy that makes one buffer and then calls it is served by both hosts. Two buffers write
over each other, and under the sandbox runner the orders of the last tick stay where they are
until a buffer is made.
-/

namespace VidhiArena.Forge

open VidhiArena.Foundation VidhiArena.GameMaster VidhiArena.Sandbox BookProg

/-! ## A call of `on_tick` -/

/-- What a strategy does with the buffers that it makes, numbered from 0. -/
inductive BufferUse where
  /-- `OrderBuffer orders(order_out)` -/
  | make
  | call (buffer : Nat) (c : BufferCall)
  /-- `state(index) = value` -/
  | state (buffer : Nat) (index : Fin 16) (value : Int64)

/-- The array, and `count_` of each buffer. -/
structure Buffers where
  oo : Slots
  counts : List Nat

namespace Buffers

/-- A method of a buffer that has been made. -/
def through (s : Buffers) (k : Nat) (method : OrderBuffer → OrderBuffer) : Buffers :=
  match s.counts[k]? with
  | none => s
  | some count =>
      let b := method ⟨s.oo, count⟩
      ⟨b.oo, s.counts.set k b.count⟩

def perform (s : Buffers) : BufferUse → Buffers
  | .make =>
      let b := OrderBuffer.new s.oo
      ⟨b.oo, s.counts ++ [b.count]⟩
  | .call k c => s.through k fun b => b.apply c
  | .state k index value => s.through k fun b => b.setState index value

end Buffers

/-- `on_tick`. -/
def nativeTick (uses : List BufferUse) (oo : Slots) : Slots :=
  (uses.foldl Buffers.perform ⟨oo, []⟩).oo

/-- One tick of a native strategy under a host: the page, and the loader's own array. -/
def Host.nativeTick (host : Host) (s : Page × Slots) (uses : List BufferUse) : Page × Slots :=
  let out := Forge.nativeTick uses (host.orderOut s.1 s.2)
  (host.answered s.1 out, out)

/-! ## What the strategy has asked for -/

/-- The calls of a tick, with the number of their buffer. -/
structure Ledger where
  made : Nat
  calls : List (Nat × BufferCall)
  /-- how many calls there were when the last buffer was made -/
  before : Option Nat

def Ledger.record (l : Ledger) : BufferUse → Ledger
  | .make => { l with made := l.made + 1, before := some l.calls.length }
  | .call k c => if k < l.made then { l with calls := l.calls ++ [(k, c)] } else l
  | .state .. => l

def ledger (uses : List BufferUse) : Ledger := uses.foldl Ledger.record ⟨0, [], none⟩

def firstCalls (uses : List BufferUse) : List BufferCall :=
  ((ledger uses).calls.take 4).map Prod.snd

/-- How many go through buffer `k`. -/
def Ledger.through (l : Ledger) (k : Nat) : Nat := l.calls.countP fun p => p.1 = k

/-- All calls go through one buffer. -/
def Ledger.OneBuffer (l : Ledger) : Prop := ∀ p ∈ l.calls, ∀ q ∈ l.calls, p.1 = q.1

instance (l : Ledger) : Decidable l.OneBuffer :=
  inferInstanceAs (Decidable (∀ p ∈ l.calls, ∀ q ∈ l.calls, p.1 = q.1))

/-! ## What is wanted -/

/-- Delivery: step 6 executes the first four calls of the tick, in order, and nothing
else. -/
structure Host.Delivers (host : Host) (s : Page × Slots) (uses : List BufferUse) : Prop where
  words : executed host s.1 (Forge.nativeTick uses (host.orderOut s.1 s.2)) =
    (firstCalls uses).map BufferCall.word
  effect : processOrders (sharedMem (host.nativeTick s uses).1).pending =
    BufferCall.executeAll (firstCalls uses)

/-- What a host asks of the strategy. The runner wants a buffer to be made, unless there is no
order in the page that would be executed again, and none behind the last call that counts. -/
def Host.Fits : Host → Page × Slots → List BufferUse → Prop
  | loader, _, uses => (ledger uses).OneBuffer
  | sandboxRunner, s, uses =>
      (ledger uses).OneBuffer ∧
        ((ledger uses).before = none → (sharedMem s.1).pending.filter isOrder = []) ∧
          ∀ n ∈ (ledger uses).before,
            (ledger uses).calls = [] ∨ n < min (ledger uses).calls.length 4

instance : ∀ (host : Host) (s : Page × Slots) (uses : List BufferUse),
    Decidable (host.Fits s uses)
  | .loader, _, uses => inferInstanceAs (Decidable (ledger uses).OneBuffer)
  | .sandboxRunner, s, uses => inferInstanceAs (Decidable ((ledger uses).OneBuffer ∧
      ((ledger uses).before = none → (sharedMem s.1).pending.filter isOrder = []) ∧
        ∀ n ∈ (ledger uses).before,
          (ledger uses).calls = [] ∨ n < min (ledger uses).calls.length 4))

/-! ## One use -/

/-- The counts of the buffers. -/
structure Ledger.Books (l : Ledger) (s : Buffers) : Prop where
  made : s.counts.length = l.made
  counts : ∀ k n, s.counts[k]? = some n → n = min (l.through k) 4
  known : ∀ p ∈ l.calls, p.1 < l.made
  before : l.before = none ↔ l.made = 0
  before_le : ∀ n ∈ l.before, n ≤ l.calls.length

/-- What a use can do. -/
inductive Buffers.Step (l : Ledger) (s : Buffers) : Ledger → Buffers → Prop where
  | make (oo : Slots) (hheader : oo 0 = 0) (hslots : ∀ i, orderAt oo i = orderAt s.oo i) :
      Step l s { l with made := l.made + 1, before := some l.calls.length }
        ⟨oo, s.counts ++ [0]⟩
  | stored (k : Nat) (c : BufferCall) (oo : Slots) (hk : k < l.made) (hroom : l.through k < 4)
      (hheader : oo 0 = Int64.ofNat (l.through k + 1))
      (hslots : ∀ i, orderAt oo i = if i = l.through k then c.word else orderAt s.oo i) :
      Step l s { l with calls := l.calls ++ [(k, c)] } ⟨oo, s.counts.set k (l.through k + 1)⟩
  | dropped (k : Nat) (c : BufferCall) (hk : k < l.made) (hfull : 4 ≤ l.through k) :
      Step l s { l with calls := l.calls ++ [(k, c)] } s
  | other (oo : Slots) (hheader : oo 0 = s.oo 0)
      (hslots : ∀ i < 4, orderAt oo i = orderAt s.oo i) : Step l s l ⟨oo, s.counts⟩

section Books

variable {l l' : Ledger} {s s' : Buffers} {oo : Slots}

theorem through_concat (l : Ledger) (k k' : Nat) (c : BufferCall) :
    Ledger.through { l with calls := l.calls ++ [(k, c)] } k' =
      l.through k' + if k = k' then 1 else 0 := by
  rw [Ledger.through, Ledger.through, List.countP_append, List.countP_singleton]
  by_cases h : k = k'
  · rw [if_pos (decide_eq_true h), if_pos h]
  · rw [if_neg (by simpa using h), if_neg h]

theorem Ledger.Books.get (h : l.Books s) {k : Nat} (hk : k < l.made) :
    s.counts[k]? = some (min (l.through k) 4) := by
  rw [← h.made] at hk
  have hget := List.getElem?_eq_getElem hk
  rw [hget, h.counts k _ hget]

theorem Ledger.Books.get_none (h : l.Books s) {k : Nat} (hk : ¬ k < l.made) :
    s.counts[k]? = none := by
  rw [List.getElem?_eq_none_iff, h.made]
  exact Nat.not_lt.mp hk

theorem Ledger.Books.through_eq_zero (h : l.Books s) {k : Nat} (hk : l.made ≤ k) :
    l.through k = 0 := by
  refine List.countP_eq_zero.mpr fun p hp => ?_
  have := h.known p hp
  rw [decide_eq_true_eq]
  omega

theorem set_same {l : List Nat} {k n : Nat} (h : l[k]? = some n) : l.set k n = l := by
  obtain ⟨hk, rfl⟩ := List.getElem?_eq_some_iff.mp h
  exact List.set_getElem_self hk

theorem Ledger.Books.step (h : l.Books s) (use : BufferUse) :
    Buffers.Step l s (l.record use) (s.perform use) := by
  cases use with
  | make =>
      refine .make _ ?_ fun i => orderAt_congr fun k _ => Function.update_of_ne (by omega) ..
      rw [OrderBuffer.new]
      dsimp only
      rw [Function.update_self]
  | call k c =>
      by_cases hk : k < l.made
      · have hget := h.get hk
        rw [Ledger.record, if_pos hk, Buffers.perform, Buffers.through, hget]
        dsimp only
        rcases Nat.lt_or_ge (l.through k) 4 with hroom | hfull
        · rw [min_eq_left hroom.le]
          obtain ⟨hcount, hheader, hslots⟩ :=
            OrderBuffer.apply_room (b := ⟨s.oo, l.through k⟩) hroom c
          rw [hcount]
          exact .stored k c _ hk hroom hheader hslots
        · -- the fifth call of a buffer is dropped
          rw [min_eq_right hfull] at hget ⊢
          rw [OrderBuffer.apply_full (le_refl 4), set_same hget]
          exact .dropped k c hk hfull
      · rw [Ledger.record, if_neg hk, Buffers.perform, Buffers.through, h.get_none hk]
        -- no such buffer has been made
        exact .other s.oo rfl fun _ _ => rfl
  | state k index value =>
      rw [Ledger.record, Buffers.perform, Buffers.through]
      split
      · exact .other s.oo rfl fun _ _ => rfl
      · rename_i count hget
        dsimp only
        have hcounts : s.counts.set k (OrderBuffer.setState ⟨s.oo, count⟩ index value).count =
            s.counts := set_same hget
        rw [hcounts]
        exact .other _ (Function.update_of_ne (by omega) ..)
          fun i hi => OrderBuffer.orderAt_setState _ index value hi

theorem Ledger.Books.next (h : l.Books s) (hstep : Buffers.Step l s l' s') : l'.Books s' := by
  cases hstep with
  | make oo hheader hslots =>
      refine ⟨?_, fun k n hn => ?_, fun p hp => (h.known p hp).trans (Nat.lt_succ_self _), ?_,
        fun n hn => ?_⟩
      · rw [List.length_append, List.length_singleton, h.made]
      · rcases getElem?_concat_cases hn with ⟨-, hold⟩ | ⟨rfl, rfl⟩
        · exact h.counts k n hold
        · have hzero : Ledger.through { l with
              made := l.made + 1, before := some l.calls.length } s.counts.length = 0 :=
            h.through_eq_zero h.made.ge
          rw [hzero]
          rfl
      · exact iff_of_false nofun (Nat.succ_ne_zero _)
      · cases hn
        exact le_refl _
  | stored k c oo hk hroom hheader hslots =>
      refine ⟨by rw [List.length_set, h.made], fun k' n hn => ?_, fun p hp => ?_, h.before,
        fun n hn => (h.before_le n hn).trans ?_⟩
      · rw [through_concat]
        rcases getElem?_set_cases hn with ⟨rfl, rfl⟩ | ⟨hne, hold⟩
        · rw [if_pos rfl]
          omega
        · rw [if_neg (Ne.symm hne)]
          exact h.counts k' n hold
      · rcases List.mem_append.mp hp with hp | hp
        · exact h.known p hp
        · rw [List.mem_singleton.mp hp]
          exact hk
      · rw [List.length_append]
        exact Nat.le_add_right _ _
  | dropped k c hk hfull =>
      refine ⟨h.made, fun k' n hn => ?_, fun p hp => ?_, h.before,
        fun n hn => (h.before_le n hn).trans ?_⟩
      · rw [through_concat]
        have hold := h.counts k' n hn
        split
        · rename_i heq
          subst heq
          omega
        · exact hold
      · rcases List.mem_append.mp hp with hp | hp
        · exact h.known p hp
        · rw [List.mem_singleton.mp hp]
          exact hk
      · rw [List.length_append]
        exact Nat.le_add_right _ _
  | other oo hheader hslots => exact ⟨h.made, h.counts, h.known, h.before, h.before_le⟩

/-- What holds at the start and is kept by every use holds of a tick. -/
theorem ledger_induct {Inv : Ledger → Buffers → Prop} (oo : Slots)
    (hstart : Inv ⟨0, [], none⟩ ⟨oo, []⟩)
    (hstep : ∀ l s l' s', l.Books s → Inv l s → Buffers.Step l s l' s' → Inv l' s')
    (uses : List BufferUse) :
    Inv (ledger uses) (uses.foldl Buffers.perform ⟨oo, []⟩) ∧
      (ledger uses).Books (uses.foldl Buffers.perform ⟨oo, []⟩) := by
  have hgo : ∀ (uses : List BufferUse) (l : Ledger) (s : Buffers), Inv l s → l.Books s →
      Inv (uses.foldl Ledger.record l) (uses.foldl Buffers.perform s) ∧
        (uses.foldl Ledger.record l).Books (uses.foldl Buffers.perform s) := by
    intro uses
    induction uses with
    | nil => exact fun l s hinv hbooks => ⟨hinv, hbooks⟩
    | cons use uses ih =>
        intro l s hinv hbooks
        have huse := hbooks.step use
        exact ih _ _ (hstep _ _ _ _ hbooks hinv huse) (hbooks.next huse)
  exact hgo uses _ _ hstart ⟨rfl, fun _ _ hn => (nomatch hn), fun _ hp => (nomatch hp),
    iff_of_true rfl rfl, fun _ hn => (nomatch hn)⟩

end Books

/-! ## Calls through one buffer -/

/-- The header at the end of a tick whose calls go through one buffer. -/
def Ledger.header (l : Ledger) (found : Int64) : Int64 :=
  match l.before with
  | none => found
  | some n => if min l.calls.length 4 ≤ n then 0 else Int64.ofNat (min l.calls.length 4)

/-- The array after calls through one buffer alone. -/
structure Ledger.Single (oo : Slots) (l : Ledger) (s : Buffers) : Prop where
  filled : OrderBuffer.Filled oo (l.calls.map Prod.snd) s.oo
  header : s.oo 0 = l.header (oo 0)

section Single

variable {l l' : Ledger} {s s' : Buffers} {oo : Slots}

theorem Ledger.OneBuffer.of_prefix (h : l'.OneBuffer) (hle : l.calls <+: l'.calls) : l.OneBuffer :=
  fun p hp q hq => h p (hle.subset hp) q (hle.subset hq)

theorem Buffers.Step.calls_prefix (h : Buffers.Step l s l' s') : l.calls <+: l'.calls := by
  cases h with
  | make | other => exact List.prefix_refl _
  | stored | dropped => exact List.prefix_append _ _

/-- The next call goes through the buffer of all calls before it. -/
theorem through_eq_length {k : Nat} {c : BufferCall}
    (h : Ledger.OneBuffer { l with calls := l.calls ++ [(k, c)] }) :
    l.through k = l.calls.length := by
  refine List.countP_eq_length.mpr fun p hp => decide_eq_true ?_
  exact h p (List.mem_append_left _ hp) (k, c) (List.mem_append_right _ (List.mem_singleton_self _))

theorem single_step (hbooks : l.Books s) (h : l.OneBuffer → Ledger.Single oo l s)
    (hstep : Buffers.Step l s l' s') (hone : l'.OneBuffer) : Ledger.Single oo l' s' := by
  obtain ⟨hfilled, hheader⟩ := h (Ledger.OneBuffer.of_prefix hone hstep.calls_prefix)
  cases hstep with
  | make out hzero hslots =>
      exact ⟨hfilled.congr fun i _ => hslots i, hzero.trans (if_pos (min_le_left _ _)).symm⟩
  | stored k c out hk hroom hcount hslots =>
      -- there is a call, so that a buffer has been made
      obtain ⟨n, hn⟩ := Option.ne_none_iff_exists'.mp fun hnone =>
        Nat.not_lt_zero k ((hbooks.before.mp hnone) ▸ hk)
      have hle := hbooks.before_le n hn
      have hlength := through_eq_length hone
      rw [hlength] at hroom hcount hslots
      constructor
      · dsimp only
        rw [List.map_append]
        refine hfilled.concat c (by rwa [List.length_map]) fun i => ?_
        rw [List.length_map]
        exact hslots i
      · have hmore : min (l.calls ++ [(k, c)]).length 4 = l.calls.length + 1 := by
          rw [List.length_append, List.length_singleton]
          omega
        rw [Ledger.header]
        dsimp only
        rw [hn]
        dsimp only
        rw [hmore, if_neg (by omega)]
        exact hcount
  | dropped k c hk hfull =>
      rw [through_eq_length hone] at hfull
      constructor
      · dsimp only
        rw [List.map_append]
        exact hfilled.concat_full c (by rwa [List.length_map])
      · have hsame : min (l.calls ++ [(k, c)]).length 4 = min l.calls.length 4 := by
          rw [List.length_append, List.length_singleton]
          omega
        rw [hheader, Ledger.header, Ledger.header]
        dsimp only
        rw [hsame]
  | other out hsame hslots => exact ⟨hfilled.congr hslots, hsame.trans hheader⟩

end Single

/-! ## Calls through any buffers -/

/-- What a tick leaves of its calls in the array. -/
structure Ledger.Traces (oo : Slots) (l : Ledger) (s : Buffers) : Prop where
  slots : ∀ i < 4, orderAt s.oo i ≠ orderAt oo i → ∃ k, i < l.through k
  header : (l.before = none ∧ s.oo 0 = oo 0) ∨
    ∃ n ≤ 4, s.oo 0 = Int64.ofNat n ∧ (n = 0 ∨ ∃ k, n ≤ l.through k)
  /-- the first slot has the order of the last call that was the first of its buffer -/
  first : l.calls ≠ [] → ∃ pre c post, l.calls = pre ++ c :: post ∧ orderAt s.oo 0 = c.2.word ∧
    (pre = [] → l.OneBuffer)

section Traces

variable {l l' : Ledger} {s s' : Buffers} {oo : Slots}

theorem Buffers.Step.through_le (h : Buffers.Step l s l' s') (k : Nat) :
    l.through k ≤ l'.through k := h.calls_prefix.sublist.countP_le

theorem Ledger.OneBuffer.concat (h : l.OneBuffer) {k : Nat} (hk : 0 < l.through k)
    (c : BufferCall) : Ledger.OneBuffer { l with calls := l.calls ++ [(k, c)] } := by
  obtain ⟨p, hp, hpk⟩ := List.countP_pos_iff.mp hk
  have hall : ∀ q ∈ l.calls ++ [(k, c)], q.1 = k := by
    intro q hq
    rcases List.mem_append.mp hq with hq | hq
    · exact (h q hq p hp).trans (of_decide_eq_true hpk)
    · rw [List.mem_singleton.mp hq]
  exact fun q hq q' hq' => (hall q hq).trans (hall q' hq').symm

theorem Ledger.Traces.first_concat (h : Ledger.Traces oo l s) {k : Nat} (hk : 0 < l.through k)
    (c : BufferCall) {out : Slots} (hslot : orderAt out 0 = orderAt s.oo 0) :
    ∃ pre c' post, l.calls ++ [(k, c)] = pre ++ c' :: post ∧ orderAt out 0 = c'.2.word ∧
      (pre = [] → Ledger.OneBuffer { l with calls := l.calls ++ [(k, c)] }) := by
  have hcalls : l.calls ≠ [] := by
    obtain ⟨p, hp, -⟩ := List.countP_pos_iff.mp hk
    exact List.ne_nil_of_mem hp
  obtain ⟨pre, c', post, heq, hword, hone⟩ := h.first hcalls
  refine ⟨pre, c', post ++ [(k, c)], ?_, hslot.trans hword, fun hpre => (hone hpre).concat hk c⟩
  rw [heq, List.append_assoc]
  rfl

theorem traces_step (h : Ledger.Traces oo l s) (hstep : Buffers.Step l s l' s') :
    Ledger.Traces oo l' s' := by
  have hmore := hstep.through_le
  have hkept : (∃ n ≤ 4, s.oo 0 = Int64.ofNat n ∧ (n = 0 ∨ ∃ k, n ≤ l.through k)) →
      ∃ n ≤ 4, s.oo 0 = Int64.ofNat n ∧ (n = 0 ∨ ∃ k, n ≤ l'.through k) :=
    fun ⟨n, hn, hheader, hk⟩ => ⟨n, hn, hheader, hk.imp id fun ⟨k, hk⟩ => ⟨k, hk.trans (hmore k)⟩⟩
  have hslot : ∀ i < 4, orderAt s.oo i ≠ orderAt oo i → ∃ k, i < l'.through k :=
    fun i hi hne => (h.slots i hi hne).imp fun k hk => hk.trans_le (hmore k)
  cases hstep with
  | make out hzero hslots =>
      refine ⟨fun i hi hne => ?_, Or.inr ⟨0, Nat.zero_le 4, hzero, Or.inl rfl⟩, fun hcalls => ?_⟩
      · exact hslot i hi (by rwa [← hslots i])
      · obtain ⟨pre, c, post, heq, hword, hone⟩ := h.first hcalls
        exact ⟨pre, c, post, heq, (hslots 0).trans hword, hone⟩
  | stored k c out hk hroom hcount hslots =>
      have hown : l.through k < Ledger.through { l with calls := l.calls ++ [(k, c)] } k := by
        rw [through_concat, if_pos rfl]
        exact Nat.lt_succ_self _
      refine ⟨fun i hi hne => ?_, Or.inr ⟨_, hroom, hcount, Or.inr ⟨k, hown⟩⟩, fun _ => ?_⟩
      · dsimp only at hne
        rw [hslots] at hne
        split at hne
        · rename_i heq
          exact ⟨k, heq.trans_lt hown⟩
        · exact hslot i hi hne
      · -- the first call of a buffer takes the first slot
        rcases Nat.eq_zero_or_pos (l.through k) with hnew | hold
        · refine ⟨l.calls, (k, c), [], rfl, (hslots 0).trans (if_pos hnew.symm), fun hpre => ?_⟩
          intro p hp q hq
          dsimp only at hp hq
          rw [hpre] at hp hq
          rw [List.mem_singleton.mp hp, List.mem_singleton.mp hq]
        · exact h.first_concat hold c ((hslots 0).trans (if_neg hold.ne))
  | dropped k c hk hfull =>
      refine ⟨hslot, ?_, fun _ => h.first_concat (by omega) c rfl⟩
      exact h.header.imp id hkept
  | other out hsame hslots =>
      refine ⟨fun i hi hne => hslot i hi (by rwa [← hslots i hi]), ?_, fun hcalls => ?_⟩
      · dsimp only
        rw [hsame]
        exact h.header.imp id hkept
      · obtain ⟨pre, c, post, heq, hword, hone⟩ := h.first hcalls
        exact ⟨pre, c, post, heq, (hslots 0 (by decide)).trans hword, hone⟩

end Traces

/-! ## What step 6 executes -/

section Delivery

variable {host : Host} {s : Page × Slots} {uses : List BufferUse}

theorem nativeTick_inv (uses : List BufferUse) (oo : Slots) :
    ((ledger uses).OneBuffer →
      Ledger.Single oo (ledger uses) (uses.foldl Buffers.perform ⟨oo, []⟩)) ∧
      Ledger.Traces oo (ledger uses) (uses.foldl Buffers.perform ⟨oo, []⟩) ∧
        (ledger uses).Books (uses.foldl Buffers.perform ⟨oo, []⟩) := by
  let Inv : Ledger → Buffers → Prop := fun l s =>
    (l.OneBuffer → Ledger.Single oo l s) ∧ Ledger.Traces oo l s
  have hstart : Inv ⟨0, [], none⟩ ⟨oo, []⟩ :=
    ⟨fun _ => ⟨OrderBuffer.filled_nil fun _ _ => rfl, rfl⟩, fun _ _ hne => absurd rfl hne,
      Or.inl ⟨rfl, rfl⟩, fun hcalls => absurd rfl hcalls⟩
  have hstep : ∀ l s l' s', l.Books s → Inv l s → Buffers.Step l s l' s' → Inv l' s' :=
    fun l s l' s' hbooks ⟨hsingle, htraces⟩ hstep =>
      ⟨single_step hbooks hsingle hstep, traces_step htraces hstep⟩
  obtain ⟨⟨hsingle, htraces⟩, hbooks⟩ := ledger_induct oo hstart hstep uses
  exact ⟨hsingle, htraces, hbooks⟩

theorem filter_isOrder_words (cs : List BufferCall) :
    (cs.map BufferCall.word).filter isOrder = cs.map BufferCall.word := by
  refine List.filter_eq_self.mpr fun w hw => ?_
  obtain ⟨c, -, rfl⟩ := List.mem_map.mp hw
  exact BufferCall.isOrder_word c

theorem Host.delivers_iff : host.Delivers s uses ↔
    executed host s.1 (Forge.nativeTick uses (host.orderOut s.1 s.2)) =
      (firstCalls uses).map BufferCall.word := by
  refine ⟨fun h => h.words, fun h => ⟨h, ?_⟩⟩
  rw [← processOrders_filter]
  exact (congrArg processOrders h).trans (BufferCall.processOrders_word _)

/-- Without a buffer there are no calls, and the orders are those that the page has held. -/
theorem nativeTick_unmade (page : Page) (hnone : (ledger uses).before = none) :
    (ledger uses).calls = [] ∧
      executed .sandboxRunner page (Forge.nativeTick uses page.zone) =
        (sharedMem page).pending.filter isOrder := by
  obtain ⟨hsingle, -, hbooks⟩ := nativeTick_inv uses page.zone
  have hcalls : (ledger uses).calls = [] := by
    refine List.eq_nil_iff_forall_not_mem.mpr fun p hp => ?_
    have := hbooks.known p hp
    rw [hbooks.before.mp hnone] at this
    exact Nat.not_lt_zero _ this
  refine ⟨hcalls, ?_⟩
  obtain ⟨hfilled, hheader⟩ := hsingle (by rw [Ledger.OneBuffer, hcalls]; exact nofun)
  rw [Ledger.header, hnone] at hheader
  rw [hcalls] at hfilled
  have hslots : (List.range 4).map (orderAt (Forge.nativeTick uses page.zone)) =
      (List.range 4).map (orderAt page.zone) :=
    List.map_congr_left fun i hi => hfilled.rest i (List.mem_range.mp hi) (Nat.zero_le _)
  rw [executed_sandboxRunner_eq, hslots, show Forge.nativeTick uses page.zone 0 = page.zone 0
    from hheader]
  rfl

theorem Host.Fits.delivers (h : host.Fits s uses) : host.Delivers s uses := by
  rw [Host.delivers_iff, firstCalls, List.map_take]
  cases host with
  | loader =>
      obtain ⟨hfilled, -⟩ := (nativeTick_inv uses (Host.loader.orderOut s.1 s.2)).1 h
      unfold executed
      exact (congrArg _ (hfilled.pending_loader (fun i hi => if_pos (by omega)) s.1)).trans
        (filter_isOrder_words _)
  | sandboxRunner =>
      obtain ⟨hone, hunmade, hmade⟩ := h
      cases hbefore : (ledger uses).before with
      | none =>
          -- without a buffer the page decides
          obtain ⟨hcalls, hsame⟩ := nativeTick_unmade s.1 hbefore
          rw [hcalls]
          exact hsame.trans (hunmade hbefore)
      | some n =>
          obtain ⟨hfilled, hheader⟩ := (nativeTick_inv uses s.1.zone).1 hone
          have hcount : Forge.nativeTick uses s.1.zone 0 =
              Int64.ofNat (min ((ledger uses).calls.map Prod.snd).length 4) := by
            refine hheader.trans ?_
            rw [Ledger.header, hbefore, List.length_map]
            dsimp only
            rcases hmade n hbefore with hcalls | hlt
            · rw [hcalls]
              rfl
            · exact if_neg (Nat.not_le.mpr hlt)
          unfold executed
          exact (congrArg _ (hfilled.pending_sandboxRunner hcount s.1)).trans
            (filter_isOrder_words _)

/-- No more orders are executed than there are calls of some buffer. -/
theorem length_executed_le (host : Host) (s : Page × Slots) (hcalls : (ledger uses).calls ≠ []) :
    ∃ k, (executed host s.1 (Forge.nativeTick uses (host.orderOut s.1 s.2))).length ≤
      (ledger uses).through k := by
  obtain ⟨-, htraces, hbooks⟩ := nativeTick_inv uses (host.orderOut s.1 s.2)
  cases host with
  | loader =>
      rw [executed_loader_eq, List.filter_map, List.length_map]
      by_contra hall
      have hall := not_exists.mp hall
      generalize hN : ((List.range 4).filter _).length = N at hall
      have hsub : (List.range 4).filter (isOrder ∘ orderAt (Forge.nativeTick uses
          (Host.loader.orderOut s.1 s.2))) ⊆ List.range (N - 1) := by
        intro i hi
        obtain ⟨hi, horder⟩ := List.mem_filter.mp hi
        have hi := List.mem_range.mp hi
        -- the loader has cleared the slots before
        obtain ⟨k, hk⟩ := htraces.slots i hi fun hsame => by
          have hzero : orderAt (Host.loader.orderOut s.1 s.2) i = ⟨0, 0, 0, 0⟩ := by
            simp [orderAt, Host.orderOut]
            omega
          have horder : isOrder (orderAt (Forge.nativeTick uses
              (Host.loader.orderOut s.1 s.2)) i) = true := horder
          rw [Forge.nativeTick, hsame, hzero] at horder
          cases horder
        have := hall k
        exact List.mem_range.mpr (by omega)
      have hle := ((List.nodup_range.filter _).subperm hsub).length_le
      rw [hN, List.length_range] at hle
      exact hall 0 (by omega)
  | sandboxRunner =>
      rcases htraces.header with ⟨hnone, -⟩ | ⟨n, hn, hheader, hk⟩
      · exact absurd (nativeTick_unmade s.1 hnone).1 hcalls
      · have hle : (executed .sandboxRunner s.1 (Forge.nativeTick uses s.1.zone)).length ≤ n := by
          rw [executed_sandboxRunner_eq, show Forge.nativeTick uses s.1.zone 0 = Int64.ofNat n
            from hheader, toNat_min_count n hn]
          exact (List.length_filter_le _ _).trans (List.length_take_le _ _)
        rcases hk with rfl | ⟨k, hk⟩
        · exact ⟨0, hle.trans (Nat.zero_le _)⟩
        · exact ⟨k, hle.trans hk⟩

theorem head_executed (host : Host) (page : Page) {out : Slots} (hne : executed host page out ≠ [])
    (hfirst : isOrder (orderAt out 0) = true) :
    (executed host page out).head? = some (orderAt out 0) := by
  have hrange : (List.range 4).map (orderAt out) =
      orderAt out 0 :: [orderAt out 1, orderAt out 2, orderAt out 3] := rfl
  cases host with
  | loader => rw [executed_loader_eq, hrange, List.filter_cons_of_pos hfirst, List.head?_cons]
  | sandboxRunner =>
      rw [executed_sandboxRunner_eq, hrange] at hne ⊢
      cases hcount : (min (out 0) 4).toInt.toNat with
      | zero =>
          rw [hcount] at hne
          exact absurd rfl hne
      | succ n => rw [List.take_succ_cons, List.filter_cons_of_pos hfirst, List.head?_cons]

theorem Host.Delivers.oneBuffer (h : host.Delivers s uses)
    (hdistinct : (ledger uses).calls.length ≤ 4 ∨
      ((ledger uses).calls.map fun p => p.2.word).Nodup) : (ledger uses).OneBuffer := by
  by_cases hcalls : (ledger uses).calls = []
  · rw [Ledger.OneBuffer, hcalls]
    exact nofun
  rcases hdistinct with hfew | hnodup
  · -- as many orders as calls, and no more than some buffer has calls
    obtain ⟨k, hk⟩ := length_executed_le host s hcalls
    rw [h.words, firstCalls, List.length_map, List.length_map, List.length_take,
      min_eq_right hfew] at hk
    have hall := List.countP_eq_length.mp (Nat.le_antisymm List.countP_le_length hk)
    exact fun p hp q hq =>
      (of_decide_eq_true (hall p hp)).trans (of_decide_eq_true (hall q hq)).symm
  · obtain ⟨-, htraces, -⟩ := nativeTick_inv uses (host.orderOut s.1 s.2)
    obtain ⟨pre, c, post, heq, hword, hone⟩ := htraces.first hcalls
    refine hone ?_
    cases pre with
    | nil => rfl
    | cons p pre =>
        -- the first order executed is that of the first call, and it is not that of `c`
        have hwords := h.words
        rw [firstCalls, heq] at hwords
        have horder : isOrder (orderAt (Forge.nativeTick uses (host.orderOut s.1 s.2)) 0) =
            true := by
          rw [Forge.nativeTick, hword]
          exact BufferCall.isOrder_word _
        have hhead := head_executed host s.1 (by rw [hwords]; exact List.cons_ne_nil _ _) horder
        rw [hwords] at hhead
        have hsame : p.2.word = c.2.word := (Option.some.inj hhead).trans hword
        rw [heq, List.cons_append, List.map_cons, List.nodup_cons] at hnodup
        refine absurd (List.mem_map.mpr ⟨c, ?_, hsame.symm⟩) hnodup.1
        exact List.mem_append_right _ List.mem_cons_self

/-- The runner's page after a tick in which the strategy has bought five. -/
def boughtFive : Page × Slots :=
  Host.sandboxRunner.nativeTick (.zero, fun _ => 0) [.make, .call 0 (.marketBuy 5)]

end Delivery

end VidhiArena.Forge
