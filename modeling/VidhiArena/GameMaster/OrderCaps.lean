import VidhiArena.GameMaster.Conservation
import VidhiArena.GameMaster.MidPrice

/-!
# How many orders the bots keep resting

The mean-reversion bot and the noise trader remember the ids of their orders in a
ring and cancel the id that a new one pushes out; the market maker remembers its
two quotes and cancels them before it quotes again. The caps rest on one fact:
every resting order of such a bot is one that it still remembers
(`FleetTracks`). Orders vanish on their own, by fills and by anybody's cancel; a
refused add puts the id 0 into the ring, which no resting order carries.

`Held` says it for one participant and one side. A program that adds nothing in
the name of a participant keeps whatever is held of it.
-/

namespace VidhiArena.GameMaster

open VidhiArena.Foundation BookProg

/-! ## What a call leaves of the orders -/

namespace Book

def tag (x : Placement) : Bool × UInt64 × ParticipantID := (x.1, x.2.2.orderId, x.2.2.participant)

def tags (B : Book) : List (Bool × UInt64 × ParticipantID) := B.placed.map tag

theorem mem_tags_of_perm {l l' : List Placement} (h : l.Perm l')
    {t : Bool × UInt64 × ParticipantID} : t ∈ l.map tag ↔ t ∈ l'.map tag :=
  (h.map tag).mem_iff

theorem tags_marketOrder (isBuy : Bool) (taker : ParticipantID) (B : Book) (r : Int64) :
    ∀ t ∈ (B.marketOrder isBuy r taker).2.tags, t ∈ B.tags := by
  refine market_rounds isBuy taker (fun B _ _ B' => ∀ t ∈ B'.tags, t ∈ B.tags) ?_ ?_ ?_ B r
  · exact fun B r _ t ht => ht
  · intro B r p ls fs B' _ hside ih
    unfold tags at ih ⊢
    rwa [placed_dropEmpty hside] at ih
  · intro B r p o q ls fs B' _ hside ih t ht
    obtain ⟨rest, hold, hnew⟩ := placed_fillHead (min r o.volume) hside
    have ht := (mem_tags_of_perm hnew).mp (ih t ht)
    refine (mem_tags_of_perm hold).mpr ?_
    split at ht
    · exact List.mem_cons_of_mem _ ht
    · exact ht

/-- Where the orders of the next book come from: they were there and have not
been cancelled, or the call has added them under the next id. -/
theorem tags_apply {B : Book} (hprices : ∀ b, ((B.side b).map BookLevel.priceFp).Nodup)
    (op : BookOp) : ∀ t ∈ (B.applyBounded op).2.tags,
      t ∈ B.tags ∧ op ≠ .cancel t.2.1 ∨
        ∃ p v, op = .addLimit t.1 p v t.2.2 ∧ (B.applyBounded op).1 = .orderId t.2.1 := by
  intro t ht
  cases op with
  | addLimit b p v who =>
      obtain ⟨-, ⟨-, -, hperm⟩ | ⟨hid, -, hperm⟩⟩ := B.addLimitBounded_cases p v who (hprices b)
      · exact Or.inl ⟨(mem_tags_of_perm hperm).mp ht, nofun⟩
      · rcases List.mem_cons.mp ((mem_tags_of_perm hperm).mp ht) with rfl | ht
        · exact Or.inr ⟨p, v, rfl, congrArg Reply.orderId hid⟩
        · exact Or.inl ⟨ht, nofun⟩
  | cancel id =>
      refine Or.inl ?_
      have ht : t ∈ (B.cancel id).2.tags := ht
      by_cases hex : ∃ o ∈ B.orders, o.orderId = id
      · rw [tags, (placed_cancel hex).2] at ht
        obtain ⟨x, hx, rfl⟩ := List.mem_map.mp ht
        obtain ⟨hx, hne⟩ := List.mem_filter.mp hx
        refine ⟨List.mem_map_of_mem hx, fun heq => ?_⟩
        exact (of_decide_eq_true hne) (BookOp.cancel.inj heq).symm
      · have habsent : ∀ o ∈ B.orders, o.orderId ≠ id := fun o ho heq => hex ⟨o, ho, heq⟩
        rw [cancel_absent habsent] at ht
        refine ⟨ht, fun heq => ?_⟩
        obtain ⟨x, hx, rfl⟩ := List.mem_map.mp ht
        refine habsent x.2.2 ?_ (BookOp.cancel.inj heq).symm
        rw [← placed_orders]
        exact List.mem_map_of_mem hx
  | marketOrder isBuy v taker => exact Or.inl ⟨tags_marketOrder isBuy taker B v t ht, nofun⟩

end Book

/-! ## What is held of a participant -/

namespace PersistentLOB

def Sound (lob : PersistentLOB) : Prop := ∃ B, Refines lob B

/-- Every order of `who` on side `b` carries one of the ids `ids`. -/
def Held (lob : PersistentLOB) (who : ParticipantID) (b : Bool) (ids : UInt64 → Prop) : Prop :=
  ∀ t ∈ lob.view.tags, t.2.2 = who → t.1 = b → ids t.2.1

variable {lob lob' : PersistentLOB} {who : ParticipantID} {b : Bool} {ids ids' : UInt64 → Prop}

theorem Held.imp (h : lob.Held who b ids) (himp : ∀ id, ids id → ids' id) :
    lob.Held who b ids' :=
  fun t ht hwho hb => himp _ (h t ht hwho hb)

theorem Sound.tags_ne_zero (h : lob.Sound) : ∀ t ∈ lob.view.tags, t.2.1 ≠ 0 := by
  obtain ⟨B, L, hrep, rfl⟩ := h
  intro t ht heq
  obtain ⟨x, hx, rfl⟩ := List.mem_map.mp ht
  have hview : lob.view = L.view lob := Refines.view_eq ⟨L, hrep, rfl⟩
  rw [hview] at hx
  have hmem : x.2.2 ∈ (L.view lob).orders := by
    rw [← Book.placed_orders]
    exact List.mem_map_of_mem hx
  rw [Layout.view_orders] at hmem
  obtain ⟨i, hi, hxi⟩ := List.mem_map.mp hmem
  have hpos := (hrep.issued i hi).1
  have hid : (lob.pool.nodes i).orderId = 0 := (congrArg RestingOrder.orderId hxi).trans heq
  rw [hid] at hpos
  exact absurd hpos (by decide)

theorem Sound.call (h : lob.Sound) {op : BookOp} {r : Reply} (hids : IdsLast lob op)
    (hcall : lob.apply op = .ok (r, lob')) :
    lob'.Sound ∧ ∀ t ∈ lob'.view.tags, t ∈ lob.view.tags ∧ op ≠ .cancel t.2.1 ∨
      ∃ p v, op = .addLimit t.1 p v t.2.2 ∧ r = .orderId t.2.1 := by
  obtain ⟨B, href⟩ := h
  obtain ⟨rfl, href'⟩ := href.apply_of_ok (href.idsLast hids) hcall
  refine ⟨⟨_, href'⟩, ?_⟩
  rw [href'.view_eq, href.view_eq]
  exact Book.tags_apply (fun b => (href.prices_sorted b).nodup) op

end PersistentLOB

/-! ## Programs over the book -/

/-- Postconditions while ids last. -/
abbrev BookEnsures {α : Type} (Q : α → PersistentLOB → Prop) (p : BookProg α)
    (lob : PersistentLOB) : Prop :=
  Prog.Ensures PersistentLOB.apply IdsLast Q p lob

section Programs

variable {lob : PersistentLOB} {α : Type} {who : ParticipantID}

theorem ensures_frame {p : BookProg α} (hp : p.All (BookOp.By (· ≠ who))) :
    ∀ {lob : PersistentLOB}, lob.Sound → BookEnsures (fun _ lob' => lob'.Sound ∧
      ∀ b ids, lob.Held who b ids → lob'.Held who b ids) p lob := by
  induction p with
  | ret a => exact fun h => Prog.ensures_ret ⟨h, fun _ _ hheld => hheld⟩
  | read k ih => exact fun {lob} h => ih lob (hp lob) h
  | call op k ih =>
      intro lob h
      obtain ⟨hop, hk⟩ := hp
      refine Prog.ensures_call fun hids r lob₁ hcall => ?_
      obtain ⟨h₁, htags⟩ := h.call hids hcall
      refine (ih r (hk r) h₁).imp fun _ lob' hrest => ⟨hrest.1, fun b ids hheld => ?_⟩
      refine hrest.2 b ids fun t ht hwho hb => ?_
      rcases htags t ht with ⟨ht, -⟩ | ⟨p, v, rfl, -⟩
      · exact hheld t ht hwho hb
      · exact absurd hwho hop

theorem ensures_book {k : PersistentLOB → BookProg α} {R : α → PersistentLOB → Prop}
    (h : BookEnsures R (k lob) lob) : BookEnsures R (book >>= k) lob := h

/-- `add_limit`: one id more for its owner on its side, nothing else. -/
theorem ensures_addLimit (h : lob.Sound) (isBid : Bool) (priceFp volume : Int64) :
    BookEnsures (fun id lob' => lob'.Sound ∧
        (∀ ids, lob.Held who isBid ids → lob'.Held who isBid fun i => ids i ∨ i = id) ∧
        ∀ ids, lob.Held who (!isBid) ids → lob'.Held who (!isBid) ids)
      (addLimit isBid priceFp volume who) lob := by
  refine Prog.ensures_call fun hids r lob' hcall => ?_
  obtain ⟨h', htags⟩ := h.call hids hcall
  have hback : ∀ id, (∀ i, r = .orderId i → i = id) → lob'.Sound ∧
      (∀ ids, lob.Held who isBid ids → lob'.Held who isBid fun i => ids i ∨ i = id) ∧
      ∀ ids, lob.Held who (!isBid) ids → lob'.Held who (!isBid) ids := by
    intro id hid
    refine ⟨h', fun ids hheld t ht hwho hb => ?_, fun ids hheld t ht hwho hb => ?_⟩
    · rcases htags t ht with ⟨ht, -⟩ | ⟨p, v, -, hr⟩
      · exact Or.inl (hheld t ht hwho hb)
      · exact Or.inr (hid _ hr)
    · rcases htags t ht with ⟨ht, -⟩ | ⟨p, v, hop, -⟩
      · exact hheld t ht hwho hb
      · cases hop
        exact absurd hb (by simp)
  cases r with
  | orderId id => exact Prog.ensures_ret (hback id fun i hi => (Reply.orderId.inj hi).symm)
  | cancelled ok => exact Prog.ensures_ret (hback _ nofun)
  | fills fs => exact Prog.ensures_ret (hback _ nofun)

theorem ensures_cancelIfSet (h : lob.Sound) (id : UInt64) :
    BookEnsures (fun _ lob' => lob'.Sound ∧ ∀ who b ids, lob.Held who b ids →
      lob'.Held who b fun i => ids i ∧ i ≠ id) (cancelIfSet id) lob := by
  unfold cancelIfSet
  refine Prog.ensures_ite (fun _ => ?_) fun hzero => ?_
  · refine Prog.ensures_bind (Q := fun _ lob' => lob'.Sound ∧ ∀ who b ids, lob.Held who b ids →
      lob'.Held who b fun i => ids i ∧ i ≠ id) ?_ fun _ _ hq => Prog.ensures_ret hq
    refine Prog.ensures_call fun hids r lob' hcall => ?_
    obtain ⟨h', htags⟩ := h.call hids hcall
    have hback : lob'.Sound ∧ ∀ who b ids, lob.Held who b ids →
        lob'.Held who b fun i => ids i ∧ i ≠ id := by
      refine ⟨h', fun who b ids hheld t ht hwho hb => ?_⟩
      rcases htags t ht with ⟨ht, hne⟩ | ⟨p, v, hop, -⟩
      · exact ⟨hheld t ht hwho hb, fun heq => hne (by rw [heq])⟩
      · cases hop
    cases r <;> exact Prog.ensures_ret hback
  · refine Prog.ensures_ret ⟨h, fun who b ids hheld t ht hwho hb => ⟨hheld t ht hwho hb, ?_⟩⟩
    rw [not_not.mp hzero]
    exact h.tags_ne_zero t ht

end Programs

/-! ## The ring -/

namespace OrderRing

variable {capacity : Nat}

def Remembers (ring : OrderRing capacity) (id : UInt64) : Prop := ∃ i, ring.ids i = id

/-- The head is a slot; and slots that were never written hold zero. -/
structure WellFormed (ring : OrderRing capacity) : Prop where
  head_lt : ring.head < capacity
  count_le : ring.count ≤ capacity
  unwritten : ring.count < capacity →
    ring.head = ring.count ∧ ∀ i : Fin capacity, ring.count ≤ i.val → ring.ids i = 0

theorem WellFormed.empty (h : 0 < capacity) : (OrderRing.empty : OrderRing capacity).WellFormed :=
  ⟨h, Nat.zero_le _, fun _ => ⟨rfl, fun _ _ => rfl⟩⟩

theorem WellFormed.push_evicted {ring : OrderRing capacity} (h : ring.WellFormed) (newId : UInt64) :
    (ring.push newId).1 = ring.ids ⟨ring.head, h.head_lt⟩ := by
  unfold push
  by_cases hfull : ring.count = capacity
  · exact dif_pos ⟨hfull, h.head_lt⟩
  · have hroom : ring.count < capacity := lt_of_le_of_ne h.count_le hfull
    obtain ⟨hhead, hzero⟩ := h.unwritten hroom
    have hslot := hzero ⟨ring.head, h.head_lt⟩ (le_of_eq hhead.symm)
    rw [hslot]
    exact dif_neg fun hc => hfull hc.1

theorem WellFormed.push {ring : OrderRing capacity} (h : ring.WellFormed) (newId : UInt64) :
    (ring.push newId).2.WellFormed := by
  have hcap : 0 < capacity := lt_of_le_of_lt (Nat.zero_le _) h.head_lt
  refine ⟨Nat.mod_lt _ hcap, ?_, ?_⟩
  · show (if ring.count = capacity then ring.count else ring.count + 1) ≤ capacity
    have := h.count_le
    split <;> omega
  · show (if ring.count = capacity then ring.count else ring.count + 1) < capacity → _
    intro hlt
    have hroom : ring.count < capacity := by
      have := h.count_le
      split at hlt <;> omega
    obtain ⟨hhead, hzero⟩ := h.unwritten hroom
    have hcount : (ring.push newId).2.count = ring.count + 1 := if_neg (by omega)
    rw [if_neg (by omega)] at hlt
    refine ⟨?_, fun i hi => ?_⟩
    · rw [hcount]
      show (ring.head + 1) % capacity = ring.count + 1
      rw [hhead, Nat.mod_eq_of_lt hlt]
    · rw [hcount] at hi
      show (if i.val = ring.head then newId else ring.ids i) = 0
      rw [if_neg (by omega)]
      exact hzero i (by omega)

theorem WellFormed.push_remembers {ring : OrderRing capacity} (h : ring.WellFormed)
    {newId id : UInt64} (hid : (ring.Remembers id ∨ id = newId) ∧ id ≠ (ring.push newId).1) :
    (ring.push newId).2.Remembers id := by
  obtain ⟨⟨i, rfl⟩ | rfl, hne⟩ := hid
  · refine ⟨i, ?_⟩
    rw [h.push_evicted] at hne
    refine if_neg fun hi => hne ?_
    exact congrArg ring.ids (Fin.ext hi)
  · exact ⟨⟨ring.head, h.head_lt⟩, if_pos rfl⟩

end OrderRing

/-! ## The bots keep track of their orders -/

/-- The first seed order is a bid, the second an ask. -/
def seedId (isBid : Bool) : UInt64 := if isBid then 1 else 2

namespace MarketMakerBot

def quoteId (bot : MarketMakerBot) (isBid : Bool) : UInt64 :=
  if isBid then bot.bidOrderId else bot.askOrderId

/-- Besides the seed, one quote a side. -/
def Tracks (bot : MarketMakerBot) (lob : PersistentLOB) : Prop :=
  ∀ b, lob.Held botMM b fun i => i = bot.quoteId b ∨ i = seedId b

theorem compute_tracks {bot : MarketMakerBot} {lob : PersistentLOB} (h : lob.Sound)
    (htracks : bot.Tracks lob) (agg : Aggression) (snap : MarketSnapshot) :
    BookEnsures (fun bot' lob' => lob'.Sound ∧ bot'.Tracks lob') (bot.compute agg snap) lob := by
  unfold compute
  refine Prog.ensures_bind (ensures_cancelIfSet h _) fun _ lob₁ ⟨h₁, hheld₁⟩ => ?_
  refine Prog.ensures_bind (ensures_cancelIfSet h₁ _) fun _ lob₂ ⟨h₂, hheld₂⟩ => ?_
  -- only the seeds are left
  have hbid : lob₂.Held botMM true (· = seedId true) :=
    (hheld₂ _ _ _ (hheld₁ _ _ _ (htracks true))).imp fun i hi => hi.1.1.resolve_left hi.1.2
  have hask : lob₂.Held botMM false (· = seedId false) :=
    (hheld₂ _ _ _ (hheld₁ _ _ _ (htracks false))).imp fun i hi => hi.1.1.resolve_left hi.2
  refine Prog.ensures_bind (ensures_addLimit h₂ true _ _) fun bidId lob₃ ⟨h₃, hbid₃, hask₃⟩ => ?_
  refine Prog.ensures_bind (ensures_addLimit h₃ false _ _) fun askId lob₄ ⟨h₄, hask₄, hbid₄⟩ => ?_
  refine Prog.ensures_ret ⟨h₄, fun b => ?_⟩
  cases b with
  | true => exact (hbid₄ _ (hbid₃ _ hbid)).imp fun i hi => hi.symm
  | false => exact (hask₄ _ (hask₃ _ hask)).imp fun i hi => hi.symm

theorem Tracks.frame {bot : MarketMakerBot} {lob lob' : PersistentLOB} (h : bot.Tracks lob)
    (hframe : ∀ b ids, lob.Held botMM b ids → lob'.Held botMM b ids) : bot.Tracks lob' :=
  fun b => hframe b _ (h b)

end MarketMakerBot

/-- An order for `who`, its id into the ring, and the id pushed out is cancelled. -/
theorem ensures_ringed {capacity : Nat} {ring : OrderRing capacity} {lob : PersistentLOB}
    {α : Type} {who : ParticipantID} {isBid : Bool} {priceFp volume : Int64}
    {k : UInt64 → BookProg α} {R : α → PersistentLOB → Prop} (h : lob.Sound)
    (hring : ring.WellFormed)
    (hk : ∀ newId lob', lob'.Sound → (ring.push newId).2.WellFormed →
      (lob.Held who isBid ring.Remembers → lob'.Held who isBid (ring.push newId).2.Remembers) →
      (lob.Held who (!isBid) ring.Remembers →
        lob'.Held who (!isBid) (ring.push newId).2.Remembers) →
      (∀ ids, lob.Held who (!isBid) ids → lob'.Held who (!isBid) ids) →
      BookEnsures R (k newId) lob') :
    BookEnsures R (do
      let newId ← addLimit isBid priceFp volume who
      cancelIfSet (ring.push newId).1
      k newId) lob := by
  refine Prog.ensures_bind (ensures_addLimit h isBid _ _) fun newId lob₁ ⟨h₁, hside, hother⟩ => ?_
  refine Prog.ensures_bind (ensures_cancelIfSet h₁ _) fun _ lob₂ ⟨h₂, hheld⟩ => ?_
  refine hk newId lob₂ h₂ (hring.push newId) (fun hmem => ?_) (fun hmem => ?_) fun ids hmem => ?_
  · exact (hheld _ _ _ (hside _ hmem)).imp fun i hi => hring.push_remembers hi
  · exact (hheld _ _ _ (hother _ hmem)).imp fun i hi => hring.push_remembers ⟨Or.inl hi.1, hi.2⟩
  · exact (hheld _ _ _ (hother _ hmem)).imp fun i hi => hi.1

namespace MeanReversionBot

structure Tracks (bot : MeanReversionBot) (lob : PersistentLOB) : Prop where
  bidRing : bot.bidRing.WellFormed
  askRing : bot.askRing.WellFormed
  bids : lob.Held botMR true bot.bidRing.Remembers
  asks : lob.Held botMR false bot.askRing.Remembers

theorem compute_tracks {bot : MeanReversionBot} {lob : PersistentLOB} (h : lob.Sound)
    (htracks : bot.Tracks lob) (agg : Aggression) (snap : MarketSnapshot) :
    BookEnsures (fun bot' lob' => lob'.Sound ∧ bot'.Tracks lob') (bot.compute agg snap) lob := by
  have hbuy : ∀ {bot : MeanReversionBot} {lob : PersistentLOB} {priceFp volume : Int64},
      lob.Sound → bot.Tracks lob →
      BookEnsures (fun bot' lob' => lob'.Sound ∧ bot'.Tracks lob') (do
        let newId ← addLimit true priceFp volume botMR
        cancelIfSet (bot.bidRing.push newId).1
        pure { bot with bidRing := (bot.bidRing.push newId).2 }) lob := by
    intro bot lob priceFp volume h htracks
    refine ensures_ringed h htracks.bidRing fun newId lob' h' hring hbids _ hasks => ?_
    exact Prog.ensures_ret ⟨h', hring, htracks.askRing, hbids htracks.bids, hasks _ htracks.asks⟩
  have hrest : ∀ {bot : MeanReversionBot} {lob : PersistentLOB} {c : Prop} [Decidable c]
      {priceFp volume : Int64}, lob.Sound → bot.Tracks lob →
      BookEnsures (fun bot' lob' => lob'.Sound ∧ bot'.Tracks lob') (if c then do
        let newId ← addLimit true priceFp volume botMR
        cancelIfSet (bot.bidRing.push newId).1
        pure { bot with bidRing := (bot.bidRing.push newId).2 } else pure bot) lob :=
    fun h htracks => Prog.ensures_ite (fun _ => hbuy h htracks) fun _ => Prog.ensures_ret ⟨h, htracks⟩
  unfold compute
  refine Prog.ensures_ite (fun _ => ?_) fun _ => hrest h htracks
  refine ensures_ringed h htracks.askRing fun newId lob' h' hring hasks _ hbids => ?_
  exact hrest h' ⟨htracks.bidRing, hring, hbids _ htracks.bids, hasks htracks.asks⟩

theorem Tracks.frame {bot : MeanReversionBot} {lob lob' : PersistentLOB} (h : bot.Tracks lob)
    (hframe : ∀ b ids, lob.Held botMR b ids → lob'.Held botMR b ids) : bot.Tracks lob' :=
  ⟨h.bidRing, h.askRing, hframe _ _ h.bids, hframe _ _ h.asks⟩

end MeanReversionBot

namespace NoiseTraderBot

structure Tracks (bot : NoiseTraderBot) (lob : PersistentLOB) : Prop where
  ring : bot.orderRing.WellFormed
  orders : ∀ b, lob.Held botNOISE b bot.orderRing.Remembers

theorem compute_tracks {bot : NoiseTraderBot} {lob : PersistentLOB} (h : lob.Sound)
    (htracks : bot.Tracks lob) (agg : Aggression) (snap : MarketSnapshot) :
    BookEnsures (fun bot' lob' => lob'.Sound ∧ bot'.Tracks lob') (bot.compute agg snap) lob := by
  have horder : ∀ (r : UInt64) (isBid : Bool) (priceFp volume : Int64),
      BookEnsures (fun bot' lob' => lob'.Sound ∧ NoiseTraderBot.Tracks bot' lob') (do
        let newId ← addLimit isBid priceFp volume botNOISE
        cancelIfSet (bot.orderRing.push newId).1
        pure ⟨r, (bot.orderRing.push newId).2⟩) lob := by
    intro r isBid priceFp volume
    refine ensures_ringed h htracks.ring fun newId lob' h' hring hside hother _ => ?_
    refine Prog.ensures_ret ⟨h', hring, fun b => ?_⟩
    by_cases hb : b = isBid
    · rw [hb]
      exact hside (htracks.orders isBid)
    · rw [Bool.eq_not.mpr hb]
      exact hother (htracks.orders _)
  unfold compute
  refine Prog.ensures_ite (fun _ => Prog.ensures_ret ⟨h, htracks.ring, htracks.orders⟩) fun _ => ?_
  exact Prog.ensures_ite (fun _ => horder _ _ _ _) fun _ => horder _ _ _ _

theorem Tracks.frame {bot : NoiseTraderBot} {lob lob' : PersistentLOB} (h : bot.Tracks lob)
    (hframe : ∀ b ids, lob.Held botNOISE b ids → lob'.Held botNOISE b ids) : bot.Tracks lob' :=
  ⟨h.ring, fun b => hframe b _ (h.orders b)⟩

end NoiseTraderBot

/-! ## The fleet and the tick -/

/-- The invariant: the market maker, the mean-reversion bot and the noise trader
remember every order that they have in the book. -/
structure FleetTracks (bots : BotFleet) (lob : PersistentLOB) : Prop where
  sound : lob.Sound
  mm : bots.mm.Tracks lob
  mr : bots.mr.Tracks lob
  noise : bots.noise.Tracks lob

namespace FleetTracks

variable {bots : BotFleet} {lob : PersistentLOB} {α : Type}

theorem others {p : BookProg α} (h : FleetTracks bots lob)
    (hp : ∀ who, who = botMM ∨ who = botMR ∨ who = botNOISE → p.All (BookOp.By (· ≠ who))) :
    BookEnsures (fun _ lob' => FleetTracks bots lob') p lob := by
  intro hadm a hist lob' hrun
  obtain ⟨hsound, hmm⟩ := ensures_frame (hp botMM (.inl rfl)) h.sound hadm a hist lob' hrun
  obtain ⟨-, hmr⟩ := ensures_frame (hp botMR (.inr (.inl rfl))) h.sound hadm a hist lob' hrun
  obtain ⟨-, hnoise⟩ := ensures_frame (hp botNOISE (.inr (.inr rfl))) h.sound hadm a hist lob' hrun
  exact ⟨hsound, h.mm.frame hmm, h.mr.frame hmr, h.noise.frame hnoise⟩

theorem mm_compute (h : FleetTracks bots lob) (agg : Aggression) (snap : MarketSnapshot) :
    BookEnsures (fun mm lob' => FleetTracks { bots with mm } lob') (bots.mm.compute agg snap)
      lob := by
  intro hadm mm hist lob' hrun
  obtain ⟨hsound, hmm⟩ := MarketMakerBot.compute_tracks h.sound h.mm agg snap hadm _ _ _ hrun
  obtain ⟨-, hmr⟩ := ensures_frame (MarketMakerBot.compute_by (by decide : botMM ≠ botMR) ..)
    h.sound hadm _ _ _ hrun
  obtain ⟨-, hnoise⟩ := ensures_frame (MarketMakerBot.compute_by (by decide : botMM ≠ botNOISE) ..)
    h.sound hadm _ _ _ hrun
  exact ⟨hsound, hmm, h.mr.frame hmr, h.noise.frame hnoise⟩

theorem mr_compute (h : FleetTracks bots lob) (agg : Aggression) (snap : MarketSnapshot) :
    BookEnsures (fun mr lob' => FleetTracks { bots with mr } lob') (bots.mr.compute agg snap)
      lob := by
  intro hadm mr hist lob' hrun
  obtain ⟨hsound, hmr⟩ := MeanReversionBot.compute_tracks h.sound h.mr agg snap hadm _ _ _ hrun
  obtain ⟨-, hmm⟩ := ensures_frame (MeanReversionBot.compute_by (by decide : botMR ≠ botMM) ..)
    h.sound hadm _ _ _ hrun
  obtain ⟨-, hnoise⟩ := ensures_frame
    (MeanReversionBot.compute_by (by decide : botMR ≠ botNOISE) ..) h.sound hadm _ _ _ hrun
  exact ⟨hsound, h.mm.frame hmm, hmr, h.noise.frame hnoise⟩

theorem noise_compute (h : FleetTracks bots lob) (agg : Aggression) (snap : MarketSnapshot) :
    BookEnsures (fun noise lob' => FleetTracks { bots with noise } lob')
      (bots.noise.compute agg snap) lob := by
  intro hadm noise hist lob' hrun
  obtain ⟨hsound, hnoise⟩ := NoiseTraderBot.compute_tracks h.sound h.noise agg snap hadm _ _ _ hrun
  obtain ⟨-, hmm⟩ := ensures_frame (NoiseTraderBot.compute_by (by decide : botNOISE ≠ botMM) ..)
    h.sound hadm _ _ _ hrun
  obtain ⟨-, hmr⟩ := ensures_frame (NoiseTraderBot.compute_by (by decide : botNOISE ≠ botMR) ..)
    h.sound hadm _ _ _ hrun
  exact ⟨hsound, h.mm.frame hmm, h.mr.frame hmr, hnoise⟩

theorem with_mom (h : FleetTracks bots lob) (mom : MomentumBot) :
    FleetTracks { bots with mom } lob := ⟨h.sound, h.mm, h.mr, h.noise⟩

theorem step (h : FleetTracks bots lob) (cfg : BotConfig) (snap : MarketSnapshot) :
    BookEnsures FleetTracks (bots.step cfg snap) lob := by
  unfold BotFleet.step
  refine Prog.ensures_when (fun _ => h.mm_compute _ snap) (fun _ => h) fun mm lob₁ h₁ => ?_
  refine Prog.ensures_when (Q := fun mom lob => FleetTracks { bots with mm, mom } lob)
    (fun _ => ?_) (fun _ => h₁) fun mom lob₂ h₂ => ?_
  · refine (h₁.others fun who hwho => MomentumBot.compute_by ?_ ..).imp
      fun mom _ h₂ => h₂.with_mom mom
    rcases hwho with rfl | rfl | rfl <;> decide
  refine Prog.ensures_when (fun _ => h₂.mr_compute _ snap) (fun _ => h₂) fun mr lob₃ h₃ => ?_
  refine Prog.ensures_when (fun _ => h₃.noise_compute _ snap) (fun _ => h₃) fun noise lob₄ h₄ => ?_
  refine Prog.ensures_when (a := ()) (fun _ => h₄.others fun who hwho => ?_) (fun _ => h₄)
    fun _ _ h₅ => Prog.ensures_ret h₅
  refine SniperBot.compute_by ?_ ..
  rcases hwho with rfl | rfl | rfl <;> decide

/-- Fills move the inventory of the market maker, not its quotes. -/
theorem distributeFills (h : FleetTracks bots lob) (fills : List MatchedFill) :
    FleetTracks (bots.distributeFills fills) lob := by
  unfold BotFleet.distributeFills
  induction fills generalizing bots with
  | nil => exact h
  | cons f fills ih => exact ih ⟨h.sound, h.mm, h.mr, h.noise⟩

theorem tick {gm : Master} (h : FleetTracks gm.bots lob) (cfg : SimConfig) (input : TickInput) :
    BookEnsures (fun gm' lob' => FleetTracks gm'.bots lob') (gm.tick cfg input) lob := by
  unfold Master.tick
  refine ensures_book (Prog.ensures_bind (h.step _ _) fun bots lob₁ h₁ => ?_)
  refine ensures_book (Prog.ensures_bind (h₁.others fun who hwho => ?_) fun fills lob₂ h₂ =>
    Prog.ensures_ret (h₂.distributeFills fills))
  refine Prog.All.imp (fun op hop => ?_) (processOrders_by _)
  have hwho : contestant ≠ who := by rcases hwho with rfl | rfl | rfl <;> decide
  cases op with
  | addLimit b p v participant => exact hop ▸ hwho
  | marketOrder isBuy v taker => exact hop ▸ hwho
  | cancel id => trivial

end FleetTracks

/-! ## How many adds a tick makes -/

/-- What `q` counts among the adds of one side is bounded by `w`; it counts nothing else. -/
structure Weighs (q : BookOp → Bool) (w : Bool → Nat) : Prop where
  add : ∀ isBid priceFp volume participant,
    q (.addLimit isBid priceFp volume participant) = true → 1 ≤ w isBid
  cancel : ∀ id, q (.cancel id) = false
  market : ∀ isBuy volume taker, q (.marketOrder isBuy volume taker) = false

theorem weighs_isAdd : Weighs BookOp.isAdd fun _ => 1 :=
  ⟨fun _ _ _ _ _ => le_refl _, fun _ => rfl, fun _ _ _ => rfl⟩

section Counts

variable {q : BookOp → Bool} {w : Bool → Nat}

theorem Weighs.addLimit (h : Weighs q w) {isBid : Bool} {priceFp volume : Int64}
    {participant : ParticipantID} :
    (addLimit isBid priceFp volume participant).AtMost q (w isBid) := by
  refine ⟨0, ?_, fun r => by cases r <;> trivial⟩
  split
  · rename_i hq
    exact h.add _ _ _ _ hq
  · exact Nat.zero_le _

theorem Weighs.marketOrder (h : Weighs q w) {isBuy : Bool} {volume : Int64}
    {taker : ParticipantID} : (marketOrder isBuy volume taker).AtMost q 0 := by
  refine ⟨0, ?_, fun r => by cases r <;> trivial⟩
  rw [h.market]
  exact le_refl _

theorem Weighs.cancelIfSet (h : Weighs q w) {id : UInt64} : (cancelIfSet id).AtMost q 0 := by
  unfold BookProg.cancelIfSet
  refine Prog.atMost_ite ⟨0, ?_, fun r => ?_⟩ trivial
  · rw [h.cancel]
    exact le_refl _
  · cases r <;> trivial

theorem BookProg.book_atMost {α : Type} {k : PersistentLOB → BookProg α} {n : Nat}
    (h : ∀ lob, (k lob).AtMost q n) : (book >>= k).AtMost q n := h

theorem MarketMakerBot.compute_atMost (h : Weighs q w) (bot : MarketMakerBot) (agg : Aggression)
    (snap : MarketSnapshot) : (bot.compute agg snap).AtMost q (w true + w false) := by
  unfold MarketMakerBot.compute
  rw [← Nat.zero_add (w true + w false)]
  refine Prog.atMost_bind h.cancelIfSet fun _ => ?_
  rw [← Nat.zero_add (w true + w false)]
  refine Prog.atMost_bind h.cancelIfSet fun _ => ?_
  refine Prog.atMost_bind h.addLimit fun _ => ?_
  exact Prog.atMost_bind (n := 0) h.addLimit fun _ => trivial

theorem MomentumBot.compute_atMost (h : Weighs q w) (bot : MomentumBot) (agg : Aggression)
    (threshold : Int64) (snap : MarketSnapshot) :
    (bot.compute agg threshold snap).AtMost q 0 := by
  unfold MomentumBot.compute
  refine Prog.atMost_ite trivial ?_
  refine Prog.atMost_when (m := 0) (n := 0) (a := []) h.marketOrder fun _ => ?_
  refine Prog.atMost_when (m := 0) (n := 0) (a := []) h.marketOrder fun _ => ?_
  exact Prog.atMost_when (m := 0) (n := 0) (a := []) h.marketOrder fun _ => trivial

theorem MeanReversionBot.compute_atMost (h : Weighs q w) (bot : MeanReversionBot)
    (agg : Aggression) (snap : MarketSnapshot) :
    (bot.compute agg snap).AtMost q (w false + w true) := by
  have hone : ∀ {ring : OrderRing maxMROrders} {isBid : Bool} {p v : Int64} {n : Nat}
      {k : UInt64 → BookProg MeanReversionBot}, (∀ id, (k id).AtMost q n) →
      Prog.AtMost q (do
        let newId ← addLimit isBid p v botMR
        cancelIfSet (ring.push newId).1
        k newId) (w isBid + n) := by
    intro ring isBid p v n k hk
    refine Prog.atMost_bind h.addLimit fun id => ?_
    rw [← Nat.zero_add n]
    exact Prog.atMost_bind h.cancelIfSet fun _ => hk id
  have hlast : ∀ {c : Prop} [Decidable c] {ring : OrderRing maxMROrders} {isBid : Bool} {p v : Int64}
      {k : UInt64 → MeanReversionBot} {bot : MeanReversionBot},
      Prog.AtMost q (if c then do
        let newId ← addLimit isBid p v botMR
        cancelIfSet (ring.push newId).1
        pure (k newId) else pure bot) (w isBid) :=
    Prog.atMost_ite (hone (n := 0) fun _ => trivial) trivial
  unfold MeanReversionBot.compute
  exact Prog.atMost_ite (hone fun _ => hlast) (hlast.mono (Nat.le_add_left _ _))

theorem NoiseTraderBot.compute_atMost (h : Weighs q w) {n : Nat} (hn : ∀ isBid, w isBid ≤ n)
    (bot : NoiseTraderBot) (agg : Aggression) (snap : MarketSnapshot) :
    (bot.compute agg snap).AtMost q n := by
  unfold NoiseTraderBot.compute
  refine Prog.atMost_ite trivial (Prog.atMost_ite ?_ ?_)
  · refine Prog.atMost_bind (n := 0) (h.addLimit.mono (hn true)) fun _ => ?_
    exact Prog.atMost_bind (m := 0) (n := 0) h.cancelIfSet fun _ => trivial
  · refine Prog.atMost_bind (n := 0) (h.addLimit.mono (hn false)) fun _ => ?_
    exact Prog.atMost_bind (m := 0) (n := 0) h.cancelIfSet fun _ => trivial

theorem SniperBot.compute_atMost (h : Weighs q w) (agg : Aggression) (snap : MarketSnapshot) :
    (SniperBot.compute agg snap).AtMost q 0 := by
  have hsweep : ∀ {isBuy : Bool} {vol : Int64} {k : BookProg Unit}, k.AtMost q 0 →
      Prog.AtMost q (if 0 < vol then do
        let _ ← marketOrder isBuy vol botSNIPER
        k
      else k) 0 :=
    fun hk => Prog.atMost_when (m := 0) (n := 0) (a := []) h.marketOrder fun _ => hk
  unfold SniperBot.compute
  refine Prog.atMost_ite (hsweep ?_) ?_
  · exact Prog.atMost_ite (hsweep trivial) trivial
  · exact Prog.atMost_ite (hsweep trivial) trivial

end Counts

theorem BotFleet.step_adds (bots : BotFleet) (cfg : BotConfig) (snap : MarketSnapshot) :
    (bots.step cfg snap).AtMost BookOp.isAdd 5 := by
  have h := weighs_isAdd
  unfold BotFleet.step
  refine Prog.atMost_when (m := 2) (n := 3) (MarketMakerBot.compute_atMost h ..) fun _ => ?_
  refine Prog.atMost_when (m := 0) (n := 3) (MomentumBot.compute_atMost h ..) fun _ => ?_
  refine Prog.atMost_when (m := 2) (n := 1) (MeanReversionBot.compute_atMost h ..) fun _ => ?_
  refine Prog.atMost_when (m := 1) (n := 0) (NoiseTraderBot.compute_atMost h
    (fun _ => le_refl _) ..) fun _ => ?_
  exact Prog.atMost_when (m := 0) (n := 0) (a := ()) (SniperBot.compute_atMost h ..) fun _ => trivial

theorem Master.tick_adds (gm : Master) (cfg : SimConfig) (input : TickInput) :
    (gm.tick cfg input).AtMost BookOp.isAdd 9 := by
  unfold Master.tick
  refine BookProg.book_atMost fun lob => ?_
  refine Prog.atMost_bind (m := 5) (n := 4) (BotFleet.step_adds ..) fun bots => ?_
  refine BookProg.book_atMost fun lob => Prog.atMost_bind (m := 4) (n := 0) ?_ fun _ => trivial
  refine (processOrders_adds _).mono ?_
  unfold SharedMem.pending
  rw [List.length_take, List.length_map, List.length_finRange]
  exact Nat.min_le_right _ _

/-! ## The caps -/

namespace PersistentLOB

/-- The resting orders of `who` on side `b`. -/
def ordersOf (lob : PersistentLOB) (who : ParticipantID) (b : Bool) : List Placement :=
  lob.view.placed.filter fun x => decide (x.1 = b ∧ x.2.2.participant = who)

/-- The caps: eight bids and eight asks of the mean-reversion bot, six orders of
the noise trader, one bid and one ask of the market maker besides the seeds. -/
structure OrderCaps (lob : PersistentLOB) : Prop where
  mr : ∀ b, (lob.ordersOf botMR b).length ≤ 8
  noise : (lob.ordersOf botNOISE true).length + (lob.ordersOf botNOISE false).length ≤ 6
  mm : ∀ b, ((lob.ordersOf botMM b).filter fun x => x.2.2.orderId ≠ seedId b).length ≤ 1

variable {lob : PersistentLOB}

/-- Orders that all carry one of some ids are no more than these. -/
theorem Sound.length_le (h : lob.Sound) {xs : List Placement} (hxs : xs.Sublist lob.view.placed)
    {ids : List UInt64} (hids : ∀ x ∈ xs, x.2.2.orderId ∈ ids) : xs.length ≤ ids.length := by
  obtain ⟨B, href⟩ := h
  have hnodup := href.placed_nodup
  rw [← href.view_eq] at hnodup
  have hnodup' := hnodup.sublist (hxs.map fun x => x.2.2.orderId)
  rw [← List.length_map fun x : Placement => x.2.2.orderId]
  refine (hnodup'.subperm fun id hid => ?_).length_le
  obtain ⟨x, hx, rfl⟩ := List.mem_map.mp hid
  exact hids x hx

theorem Held.mem_ordersOf {who : ParticipantID} {b : Bool} {ids : UInt64 → Prop}
    (h : lob.Held who b ids) : ∀ x ∈ lob.ordersOf who b, ids x.2.2.orderId := by
  intro x hx
  obtain ⟨hx, hwho⟩ := List.mem_filter.mp hx
  obtain ⟨hb, hwho⟩ := of_decide_eq_true hwho
  exact h _ (List.mem_map_of_mem hx) hwho hb

end PersistentLOB

theorem OrderRing.mem_ofFn {capacity : Nat} {ring : OrderRing capacity} {id : UInt64}
    (h : ring.Remembers id) : id ∈ List.ofFn ring.ids :=
  (List.mem_ofFn' _ _).mpr h

theorem FleetTracks.caps {bots : BotFleet} {lob : PersistentLOB} (h : FleetTracks bots lob) :
    lob.OrderCaps where
  mr b := by
    have hring : ∀ {ring : OrderRing maxMROrders}, lob.Held botMR b ring.Remembers →
        (lob.ordersOf botMR b).length ≤ 8 := by
      intro ring hheld
      refine (h.sound.length_le List.filter_sublist fun x hx =>
        OrderRing.mem_ofFn (hheld.mem_ordersOf x hx)).trans ?_
      rw [List.length_ofFn]
      exact le_refl _
    cases b with
    | true => exact hring h.mr.bids
    | false => exact hring h.mr.asks
  noise := by
    have hsides : ((lob.ordersOf botNOISE true).length + (lob.ordersOf botNOISE false).length) =
        (lob.view.placed.filter fun x => x.2.2.participant = botNOISE).length := by
      unfold PersistentLOB.ordersOf
      induction lob.view.placed with
      | nil => rfl
      | cons x xs ih =>
          obtain ⟨b, lvl, o⟩ := x
          cases b <;> by_cases ho : o.participant = botNOISE <;> simp [ho] at ih ⊢ <;> omega
    rw [hsides]
    refine (h.sound.length_le List.filter_sublist fun x hx => ?_).trans
      (le_of_eq (List.length_ofFn (f := bots.noise.orderRing.ids)))
    obtain ⟨hx, hwho⟩ := List.mem_filter.mp hx
    exact OrderRing.mem_ofFn (h.noise.orders x.1 _ (List.mem_map_of_mem hx)
      (of_decide_eq_true hwho) rfl)
  mm b := by
    have hids : ∀ x ∈ (lob.ordersOf botMM b).filter fun x => x.2.2.orderId ≠ seedId b,
        x.2.2.orderId ∈ [bots.mm.quoteId b] := by
      intro x hx
      obtain ⟨hx, hseed⟩ := List.mem_filter.mp hx
      rcases (h.mm b).mem_ordersOf x hx with hquote | hid
      · exact List.mem_singleton.mpr hquote
      · exact absurd hid (of_decide_eq_true hseed)
    exact h.sound.length_le (List.filter_sublist.trans List.filter_sublist) hids

/-! ## Runs -/

/-- Between two ticks: the bots know their orders, and ids are left for `ticks` more
ticks. -/
structure Tracked (ticks : Nat) (s : SimState) : Prop where
  bots : FleetTracks s.2.bots s.1
  ids : s.1.nextOrderId.toNat + 9 * ticks < 2 ^ 64

theorem Tracked.tick {cfg : SimConfig} {s s' : SimState} {input : TickInput} {h : BookHistory}
    {n : Nat} (hs : Tracked (n + 1) s) (hstep : SimState.step cfg s input = .ok (h, s')) :
    Tracked n s' := by
  obtain ⟨B, href⟩ := hs.bots.sound
  have hids := hs.ids
  rw [href.next_eq] at hids
  have hrun := SimState.step_eq_ok.mp hstep
  have hadds := Master.tick_adds s.2 cfg input
  obtain ⟨B', href', hroom⟩ := counter_of_adds (m := 9 * n) hadds href (by omega) hrun
  refine ⟨?_, href'.next_eq ▸ hroom⟩
  exact hs.bots.tick cfg input (idsLast_of_adds hadds href (by omega)) _ _ _ hrun

theorem Tracked.run {cfg : SimConfig} {inputs : List TickInput} :
    ∀ {n : Nat} {s s' : SimState} {hs : List BookHistory}, Tracked (inputs.length + n) s →
    runFrom (SimState.step cfg) s inputs = .ok (hs, s') → Tracked n s' := by
  induction inputs with
  | nil =>
      intro n s s' hs h hrun
      cases hrun
      rwa [List.length_nil, Nat.zero_add] at h
  | cons input inputs ih =>
      intro n s s' hs h hrun
      obtain ⟨⟨h₁, s₁⟩, hstep, hrun⟩ := bind_eq_ok.mp hrun
      obtain ⟨⟨hs₁, s₂⟩, hticks, hrun⟩ := bind_eq_ok.mp hrun
      cases hrun
      rw [List.length_cons, Nat.succ_add_eq_add_succ, Nat.add_succ] at h
      exact ih (h.tick hstep) hticks

theorem Tracked.seeded {cfg : SimConfig} {n : Nat} (hn : 9 * n < 2 ^ 64 - 3) {h : BookHistory}
    {lob : PersistentLOB} (hseed : seedBook.run PersistentLOB.apply PersistentLOB.init =
      .ok ((), h, lob)) : Tracked n (lob, Master.init cfg) := by
  have hbook : (seedBook.run PersistentLOB.apply PersistentLOB.init).map (fun r =>
      decide (r.2.2.view.tags = [(true, 1, botMM), (false, 2, botMM)])) = .ok true := by
    decide +kernel
  rw [hseed] at hbook
  have htags : lob.view.tags = [(true, 1, botMM), (false, 2, botMM)] :=
    of_decide_eq_true (Except.ok.inj hbook)
  have hadds : seedBook.AtMost BookOp.isAdd 2 :=
    Prog.atMost_bind (m := 1) (n := 1) weighs_isAdd.addLimit fun _ =>
      Prog.atMost_bind (m := 1) (n := 0) weighs_isAdd.addLimit fun _ => trivial
  obtain ⟨B, href, hroom⟩ := counter_of_adds (m := 9 * n) hadds init_refines (by
    rw [show Book.empty.nextOrderId.toNat = 1 from rfl]
    omega) hseed
  have hother : ∀ who b ids, who ≠ botMM → lob.Held who b ids := by
    intro who b ids hwho t ht heq
    rw [htags] at ht
    rcases List.mem_pair.mp ht with rfl | rfl <;> exact absurd heq.symm hwho
  refine ⟨⟨⟨B, href⟩, fun b t ht _ hb => Or.inr ?_, ?_, ?_⟩, href.next_eq ▸ hroom⟩
  · rw [htags] at ht
    rcases List.mem_pair.mp ht with rfl | rfl <;> cases hb <;> rfl
  · exact ⟨.empty (by decide), .empty (by decide), hother _ _ _ (by decide), hother _ _ _ (by decide)⟩
  · exact ⟨.empty (by decide), fun b => hother _ b _ (by decide)⟩

/-- The bots keep to their caps: after every `BotFleet::step` of a run of at most
`2^60` ticks, whatever the prices, the eagerness of the bots and the contestant's
answers. -/
theorem bots_keep_caps {cfg : SimConfig} {inputs : List TickInput} {input : TickInput}
    (hticks : inputs.length < 2 ^ 60) {hs : List BookHistory} {s : SimState}
    (hrun : runSimulation cfg inputs = .ok (hs, s)) {bots : BotFleet} {h : BookHistory}
    {lob : PersistentLOB} (hstep : (s.2.bots.step cfg.bots (input.price.of s.1)).run
      PersistentLOB.apply s.1 = .ok (bots, h, lob)) : lob.OrderCaps := by
  obtain ⟨h₀, lob₀, hs', hseed, hticks', rfl⟩ := runSimulation_eq_ok.mp hrun
  have htracked : Tracked 1 s := (Tracked.seeded (n := inputs.length + 1) (by omega) hseed).run hticks'
  obtain ⟨B, href⟩ := htracked.bots.sound
  have hids := htracked.ids
  rw [href.next_eq] at hids
  have hlast := idsLast_of_adds (BotFleet.step_adds s.2.bots cfg.bots (input.price.of s.1)) href
    (by omega)
  exact (htracked.bots.step _ _ hlast _ _ _ hstep).caps

/-- The second tick of a run in which the contestant has taken ten from the asks. -/
theorem bots_keep_caps_second_tick :
    let cfg : SimConfig := ⟨BotConfig.default, 1000, fun _ _ => 0⟩
    let inputs : List TickInput := [⟨.gbm 100050000 450000 false, .answer 1 fun _ => ⟨3, 0, 10, 0⟩⟩]
    let input : TickInput := ⟨.gbm 100060000 450000 false, .timeout⟩
    inputs.length < 2 ^ 60 ∧ ∃ hs s bots h lob, runSimulation cfg inputs = .ok (hs, s) ∧
      (s.2.bots.step cfg.bots (input.price.of s.1)).run PersistentLOB.apply s.1 =
        .ok (bots, h, lob) ∧ lob.OrderCaps := by
  intro cfg inputs input
  have hboth : (runSimulation cfg inputs >>= fun r => (r.2.2.bots.step cfg.bots
      (input.price.of r.2.1)).run PersistentLOB.apply r.2.1).map (fun _ => true) = .ok true := by
    decide +kernel
  obtain ⟨⟨bots, h, lob⟩, hboth, -⟩ := map_eq_ok hboth
  obtain ⟨⟨hs, s⟩, hrun, hstep⟩ := bind_eq_ok.mp hboth
  exact ⟨by decide, hs, s, bots, h, lob, hrun, hstep, bots_keep_caps (by decide) hrun hstep⟩

end VidhiArena.GameMaster
