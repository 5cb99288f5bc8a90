import VidhiArena.Browser.Ledger

/-!
# The noise trader's orders at rest

The ring of the noise trader is a ledger without sides: an evicted order is cancelled on the
side on which the new one is placed. As long as that is its side (and ids are exact) the
trader has no more orders at rest than its ring has slots. Otherwise the evicted order
stays, and nobody knows of it any more.
-/

namespace VidhiArena.Browser.Js

open Foundation OrderedMap

variable {N : Numbers} {b : Book N}

/-! ## The ring -/

namespace Ring

variable {ring : OrderRing N.toDoubles} {id : Nat} {price : N.Num} {x : Nat × N.Num}

/-- The entries, in the order of the slots. -/
def entries (ring : OrderRing N.toDoubles) : List (Nat × N.Num) := ring.ids.filterMap fun x => x

/-- What the next `push` evicts. -/
def oldest (ring : OrderRing N.toDoubles) : Option (Nat × N.Num) :=
  if ring.count = ring.ids.length then (ring.ids[ring.head]?).join else none

/-- The slots are taken in turn, and all of them before the first eviction. -/
structure InTurn (ring : OrderRing N.toDoubles) : Prop where
  size : ring.ids.length = 6
  head : ring.head < 6
  count : ring.count ≤ 6
  free : ring.count < 6 → ring.head = ring.count ∧
    ∀ i, ring.count ≤ i → (ring.ids[i]?).join = none

theorem inTurn_new : InTurn (N := N) (.new 6) where
  size := rfl
  head := Nat.succ_pos 5
  count := Nat.zero_le 6
  free := fun _ => ⟨rfl, fun i _ => by
    rw [OrderRing.new, List.getElem?_replicate]
    split <;> rfl⟩

theorem inTurn_push (h : InTurn ring) : InTurn (ring.push id price).2 where
  size := (List.length_set ..).trans h.size
  head := by
    show (ring.head + 1) % ring.ids.length < 6
    rw [h.size]
    exact Nat.mod_lt _ (by decide)
  count := by
    show (if ring.count = ring.ids.length then ring.count else ring.count + 1) ≤ 6
    have := h.count
    rw [h.size]
    split <;> omega
  free := by
    intro hlt
    have hcount : (ring.push id price).2.count =
        if ring.count = 6 then ring.count else ring.count + 1 := by rw [← h.size]; rfl
    rw [hcount] at hlt
    split at hlt
    · omega
    · rename_i hne
      have hle := h.count
      obtain ⟨hhead, hfree⟩ := h.free (by omega)
      rw [hcount, if_neg hne]
      constructor
      · show (ring.head + 1) % ring.ids.length = _
        rw [h.size, hhead, Nat.mod_eq_of_lt hlt]
      · intro i hi
        show ((ring.ids.set ring.head _)[i]?).join = none
        rw [List.getElem?_set_ne (by omega)]
        exact hfree i (by omega)

theorem length_entries (h : InTurn ring) : (entries ring).length ≤ 6 :=
  h.size ▸ List.length_filterMap_le _ _

theorem mem_entries : x ∈ entries ring ↔ some x ∈ ring.ids := by
  simp [entries]

theorem mem_push (hx : x ∈ entries (ring.push id price).2) : x = (id, price) ∨ x ∈ entries ring := by
  rcases List.mem_or_eq_of_mem_set (mem_entries.mp hx) with hx | hx
  · exact .inr (mem_entries.mpr hx)
  · exact .inl (Option.some.inj hx)

theorem new_mem_push (h : InTurn ring) : (id, price) ∈ entries (ring.push id price).2 :=
  mem_entries.mpr (List.mem_set (h.size ▸ h.head) _)

theorem evicted (h : InTurn ring) (hx : x ∈ entries ring)
    (hgone : x ∉ entries (ring.push id price).2) : oldest ring = some x := by
  obtain ⟨i, hi⟩ := List.mem_iff_getElem?.mp (mem_entries.mp hx)
  have hhead : i = ring.head := by
    by_contra hne
    refine hgone (mem_entries.mpr (List.mem_iff_getElem?.mpr ⟨i, ?_⟩))
    show (ring.ids.set ring.head _)[i]? = _
    rw [List.getElem?_set_ne (Ne.symm hne), hi]
  subst hhead
  have hfull : ring.count = 6 := by
    by_contra hne
    have hle := h.count
    obtain ⟨hhead, hfree⟩ := h.free (by omega)
    have := hfree ring.head hhead.ge
    rw [hi] at this
    cases this
  rw [oldest, if_pos (hfull.trans h.size.symm), hi]
  rfl

end Ring

/-! ## The ledger -/

def noiseLedger (N : Numbers) : Ledger N where
  who := NoiseTrader.id
  Rec := Nat × N.Num
  id := Prod.fst
  At x r := r.key = N.key x.2

variable {ring : OrderRing N.toDoubles} {base : N.Num}

/-- The order that `ring` is about to evict rests, if it still does, on the side on which
`p` will be placed. -/
def EvictsOn (ring : OrderRing N.toDoubles) (b : Book N) (p : Placement N) : Prop :=
  ∀ old ∈ Ring.oldest ring, ∀ r ∈ b.restingOf NoiseTrader.id, r.id = old.1 → r.side = p.side

instance (ring : OrderRing N.toDoubles) (b : Book N) (p : Placement N) :
    Decidable (EvictsOn ring b p) :=
  inferInstanceAs (Decidable (∀ old ∈ Ring.oldest ring, ∀ r ∈ b.restingOf NoiseTrader.id,
    r.id = old.1 → r.side = p.side))

theorem sound_place (h : (noiseLedger N).Sound (Ring.entries ring) b) (hring : Ring.InTurn ring)
    {p : Placement N} (hevict : EvictsOn ring b p) :
    (noiseLedger N).Sound (Ring.entries (NoiseTrader.place base ring b p).1)
      (NoiseTrader.place base ring b p).2 := by
  obtain ⟨b₁, hb₁⟩ : ∃ b₁, (b.addOrder p.side p.price p.volume NoiseTrader.id).2 = b₁ := ⟨_, rfl⟩
  have hadd : (noiseLedger N).Sound ((b.nextOrderId, p.price) :: Ring.entries ring) b₁ := by
    rw [← hb₁]
    refine h.add (fun _ hx => List.mem_cons_of_mem _ hx) (fun x hx => ?_)
      fun _ => ⟨_, List.mem_cons_self, rfl⟩
    rcases List.mem_cons.mp hx with rfl | hx
    · exact .inr ⟨rfl, rfl⟩
    · exact .inl hx
  have hplace : NoiseTrader.place base ring b p =
      ((ring.push b.nextOrderId p.price).2,
        NoiseTrader.cancelEvicted base b₁ p.side (Ring.oldest ring)) := by
    rw [← hb₁]
    rfl
  rw [hplace]
  have hsub : ∀ x ∈ Ring.entries (ring.push b.nextOrderId p.price).2,
      x ∈ (b.nextOrderId, p.price) :: Ring.entries ring :=
    fun x hx => List.mem_cons.mpr (Ring.mem_push hx)
  have hgone : ∀ x ∈ (b.nextOrderId, p.price) :: Ring.entries ring,
      x ∉ Ring.entries (ring.push b.nextOrderId p.price).2 →
      x ∈ Ring.entries ring ∧ Ring.oldest ring = some x := by
    intro x hx hout
    rcases List.mem_cons.mp hx with rfl | hx
    · exact absurd (Ring.new_mem_push hring) hout
    · exact ⟨hx, Ring.evicted hring hx hout⟩
  cases hold : Ring.oldest ring with
  | none =>
      refine hadd.drop hsub fun _ x hx hout => ?_
      have := (hgone x hx hout).2
      rw [hold] at this
      cases this
  | some old =>
      have ht := Book.cancelOrder_thinned hadd.keyed base p.side old.2 old.1
      refine (hadd.thin ht).drop hsub ?_
      intro hexact x hx hout r hr hwho hid
      obtain ⟨hmem, hx'⟩ := hgone x hx hout
      obtain rfl : old = x := Option.some.inj (hold.symm.trans hx')
      have htracked := hadd.tracked (ht.added ▸ hexact)
      have hr₁ := ht.resting.subset hr
      have hkey := htracked.placed old hx r hr₁ hid
      -- the order is not the new one, and so on the side of the cancel
      have hside : r.side = p.side := by
        have hperm := Book.addOrder_resting h.keyed p.side p.price p.volume NoiseTrader.id
        rw [hb₁] at hperm
        rcases List.mem_cons.mp (hperm.mem_iff.mp hr₁) with rfl | hr₀
        · rfl
        · exact hevict old hold r (List.mem_filter.mpr ⟨hr₀, decide_eq_true hwho⟩) hid
      have hid : r.id = old.1 := hid
      have hr : r ∈ (b₁.cancelOrder base p.side old.2 old.1).resting := hr
      rw [← hid, ← hside] at hr
      exact Book.cancelOrder_gone hadd.keyed htracked.ids hr hkey

/-! ## The tick -/

/-- The tick does not lose an order of the noise trader. -/
def Sim.InPlace (base scale : N.Num) (s : Sim N) (input : TickInput N) : Prop :=
  ∀ p ∈ (NoiseTrader.draw scale (s.book.bestBid base) (s.book.bestAsk base) s.noise.rng).1,
    EvictsOn s.noise.ring (botCalls base s.book input.before) p

instance (base scale : N.Num) (s : Sim N) (input : TickInput N) :
    Decidable (s.InPlace base scale input) :=
  inferInstanceAs (Decidable (∀ p ∈ (NoiseTrader.draw scale (s.book.bestBid base)
    (s.book.bestAsk base) s.noise.rng).1,
      EvictsOn s.noise.ring (botCalls base s.book input.before) p))

structure NoiseSound (s : Sim N) : Prop where
  ring : Ring.InTurn s.noise.ring
  sound : (noiseLedger N).Sound (Ring.entries s.noise.ring) s.book

theorem noiseSound_turn {scale : N.Num} {s : Sim N} {input : TickInput N} (h : NoiseSound s)
    (hplace : s.InPlace base scale input) :
    Ring.InTurn (s.noiseTurn base scale input).1.ring ∧
      (noiseLedger N).Sound (Ring.entries (s.noiseTurn base scale input).1.ring)
        (s.noiseTurn base scale input).2 := by
  have hbots := h.sound.botCalls (.inr rfl) base input.before
  unfold Sim.noiseTurn NoiseTrader.compute
  split
  · exact ⟨h.ring, hbots⟩
  · rename_i p rng hdraw
    exact ⟨Ring.inTurn_push h.ring, sound_place hbots h.ring (hplace p (by rw [hdraw]; rfl))⟩

theorem sound_others {recs : List (Nat × N.Num)} (limited : Side → Bool)
    (orders : List (ContestantOrder N)) : ∀ {d : Desk N},
    (noiseLedger N).Sound recs d.book →
    (noiseLedger N).Sound recs (orders.foldl (Desk.process base limited) d).book := by
  induction orders with
  | nil => exact fun h => h
  | cons order orders ih =>
      intro d h
      refine ih ?_
      cases hcall : order.call limited d.book with
      | none => rwa [Desk.process_idle hcall]
      | some c =>
          rw [Desk.process_call hcall]
          refine h.apply base ?_
          have hother : CONTESTANT ≠ NoiseTrader.id := by decide
          have hmarket : ∀ {side volume}, ContestantOrder.market limited side volume = some c →
              c.By (· ≠ (noiseLedger N).who) := by
            intro side volume hmarket
            unfold ContestantOrder.market at hmarket
            split at hmarket
            · cases hmarket
            · cases hmarket
              trivial
          cases order with
          | limitBuy price volume =>
              cases hcall
              exact hother
          | limitSell price volume =>
              cases hcall
              exact hother
          | marketBuy volume => exact hmarket hcall
          | marketSell volume => exact hmarket hcall
          | cancel orderId =>
              obtain ⟨found, -, rfl⟩ := Option.map_eq_some_iff.mp hcall
              trivial

theorem sound_olds {recs : List (Nat × N.Num)} (olds : List (Queued N.toDoubles)) :
    ∀ {b : Book N}, (noiseLedger N).Sound recs b →
      (noiseLedger N).Sound recs (Desk.cancelOldest base b olds) := by
  induction olds with
  | nil => exact fun h => h
  | cons old olds ih =>
      exact fun h => ih (h.apply base (c := .cancelOrder old.side old.price old.id) trivial)

theorem noiseSound_tick {scale : N.Num} {s : Sim N} {input : TickInput N} (h : NoiseSound s)
    (hplace : s.InPlace base scale input) : NoiseSound (s.tick base scale input) := by
  obtain ⟨hring, hturn⟩ := noiseSound_turn h hplace
  exact
    { ring := hring
      sound := by
        simp only [Sim.tick, Desk.floodControl]
        exact sound_olds _ (sound_others input.limited input.contestantOrders
          (hturn.botCalls (.inr rfl) base input.after)) }

/-- Every tick from `s` on is in place. -/
def AllInPlace (base scale : N.Num) : Sim N → List (TickInput N) → Prop
  | _, [] => True
  | s, input :: inputs =>
      s.InPlace base scale input ∧ AllInPlace base scale (s.tick base scale input) inputs

def decideAllInPlace (base scale : N.Num) : ∀ (s : Sim N) (inputs : List (TickInput N)),
    Decidable (AllInPlace base scale s inputs)
  | _, [] => inferInstanceAs (Decidable True)
  | s, input :: inputs =>
      have := decideAllInPlace base scale (s.tick base scale input) inputs
      inferInstanceAs (Decidable (_ ∧ _))

instance (base scale : N.Num) (s : Sim N) (inputs : List (TickInput N)) :
    Decidable (AllInPlace base scale s inputs) := decideAllInPlace base scale s inputs

theorem noiseSound_run {scale : N.Num} (inputs : List (TickInput N)) : ∀ {s : Sim N},
    NoiseSound s → AllInPlace base scale s inputs →
    NoiseSound (inputs.foldl (Sim.tick base scale) s) := by
  induction inputs with
  | nil => exact fun h _ => h
  | cons input inputs ih =>
      intro s h hall
      obtain ⟨hnow, hlater⟩ := hall
      rw [List.foldl_cons]
      exact ih (noiseSound_tick h hnow) hlater

/-- The cap: along a run in which no order is evicted on the wrong side, at most 6
resting orders are the noise trader's, as long as ids are exact. -/
theorem noise_capped (base scale : N.Num) (seed : List (BotCall N)) (inputs : List (TickInput N))
    (hplace : AllInPlace base scale (Sim.init base seed) inputs)
    (hexact : (Sim.run base scale seed inputs).book.added ≤ MAX_EXACT) :
    ((Sim.run base scale seed inputs).book.restingOf NoiseTrader.id).length ≤ 6 := by
  have hinit : NoiseSound (Sim.init base seed) :=
    ⟨Ring.inTurn_new, (Ledger.sound_new _).botCalls (.inr rfl) base seed⟩
  have h := noiseSound_run inputs hinit hplace
  exact (h.sound.tracked hexact).cap.trans (Ring.length_entries h.ring)

/-- Nobody but the noise trader does anything. -/
def quiet : TickInput N := ⟨[], [], fun _ => false, []⟩

theorem noise_capped_ten : (((Sim.run (Numbers.exact.ofInt 1500) (Numbers.exact.ofInt 1) []
    (List.replicate 10 quiet)).book.restingOf NoiseTrader.id).length ≤ 6) :=
  noise_capped _ _ _ _ (by decide +kernel) (by decide +kernel)

/-- In the eleventh tick the trader buys for the first time, and cancels its oldest sell
among the bids. -/
theorem noise_exceeds_cap : ((Sim.run (Numbers.exact.ofInt 1500) (Numbers.exact.ofInt 1) []
    (List.replicate 11 quiet)).book.restingOf NoiseTrader.id).length = 7 := by
  decide +kernel

end VidhiArena.Browser.Js
