import VidhiArena.GameMaster.OrderCaps
import VidhiArena.GameMaster.RefusedAdds

/-!
# When an order of a bot is refused

`add_limit` refuses an order when its side has 256 levels and none at the price, or when
all 16384 slots of the pool are taken. The bots' own orders are capped, so what can fill
the tables is the contestant, whose orders are never evicted. Sixteen orders a side and
twenty-six in all are the most that the bots have resting: while the contestant leaves
room for these and for the next ones, no bot is refused.

A level without orders is left behind only by an add that finds the pool full. While that
does not happen, a side has as many levels as its orders have prices.
-/

namespace VidhiArena.GameMaster

open VidhiArena.Foundation BookProg

/-! ## Who rests where -/

/-- A resting order without its volume. -/
structure Spot where
  isBid : Bool
  priceFp : Int64
  orderId : UInt64
  participant : ParticipantID
deriving DecidableEq

namespace Book

variable {B B' B'' : Book}

def spotOf (x : Placement) : Spot := ⟨x.1, x.2.1, x.2.2.orderId, x.2.2.participant⟩

def spots (B : Book) : List Spot := B.placed.map spotOf

def NoEmpty (B : Book) : Prop := ∀ b, ∀ lv ∈ B.side b, lv.queue ≠ []

/-- Levels and orders have been taken away. -/
structure Shrinks (B B' : Book) : Prop where
  levels : ∀ b, (B'.side b).length ≤ (B.side b).length
  spots : B'.spots.Subperm B.spots
  noEmpty : B.NoEmpty → B'.NoEmpty

theorem Shrinks.refl (B : Book) : B.Shrinks B :=
  ⟨fun _ => le_refl _, List.Subperm.refl _, id⟩

theorem Shrinks.trans (h : B.Shrinks B') (h' : B'.Shrinks B'') : B.Shrinks B'' :=
  ⟨fun b => (h'.levels b).trans (h.levels b), h'.spots.trans h.spots, h'.noEmpty ∘ h.noEmpty⟩

theorem Shrinks.of_side {b : Bool} (hother : B'.side (!b) = B.side (!b))
    (hlength : (B'.side b).length ≤ (B.side b).length)
    (hqueues : ∀ lv ∈ B'.side b, lv ∈ B.side b ∨ lv.queue ≠ [])
    (hspots : B'.spots.Subperm B.spots) : B.Shrinks B' := by
  refine ⟨fun b' => ?_, hspots, fun h b' lv hlv => ?_⟩
  · by_cases hb : b' = b
    · rw [hb]
      exact hlength
    · rw [Bool.eq_not.mpr hb, hother]
  · by_cases hb : b' = b
    · rw [hb] at hlv
      exact (hqueues lv hlv).elim (h b lv) id
    · rw [Bool.eq_not.mpr hb, hother] at hlv
      exact h _ lv hlv

theorem length_keepLevel (p : Int64) (q : List RestingOrder) : (keepLevel p q).length ≤ 1 := by
  unfold keepLevel
  split
  · exact Nat.zero_le _
  · exact le_refl _

theorem shrinks_cancel (hids : (B.orders.map RestingOrder.orderId).Nodup) (id : UInt64) :
    B.Shrinks (B.cancel id).2 := by
  by_cases hex : ∃ o ∈ B.orders, o.orderId = id
  · have hspots : (B.cancel id).2.spots.Subperm B.spots := by
      rw [spots, (placed_cancel hex).2]
      exact (List.filter_sublist.map _).subperm
    obtain ⟨b, pre, p, q, o, q', post, hside, -, hcancel⟩ := cancel_split hids hex
    rw [hcancel] at hspots ⊢
    refine Shrinks.of_side (side_setSide_not ..) ?_ (fun lv hlv => ?_) hspots
    · rw [side_setSide, hside]
      have := length_keepLevel p (q ++ q')
      simp only [List.length_append, List.length_cons, List.length_nil]
      omega
    · rw [side_setSide] at hlv
      rw [hside]
      rcases List.mem_append.mp hlv with hlv | hlv
      · rcases List.mem_append.mp hlv with hlv | hlv
        · exact Or.inl (List.mem_append_left _ (List.mem_append_left _ hlv))
        · exact Or.inr (keepLevel_queue hlv)
      · exact Or.inl (List.mem_append_right _ hlv)
  · rw [cancel_absent fun o ho heq => hex ⟨o, ho, heq⟩]
    exact Shrinks.refl B

theorem shrinks_marketOrder (isBuy : Bool) (taker : ParticipantID) (B : Book) (r : Int64) :
    B.Shrinks (B.marketOrder isBuy r taker).2 := by
  refine market_rounds isBuy taker (fun B _ _ B' => B.Shrinks B') ?_ ?_ ?_ B r
  · exact fun B r _ => Shrinks.refl B
  · intro B r p ls fs B' _ hside ih
    refine Shrinks.trans (Shrinks.of_side (side_setSide_not ..) ?_ (fun lv hlv => ?_) ?_) ih
    · rw [side_setSide, hside]
      exact Nat.le_succ _
    · rw [side_setSide] at hlv
      rw [hside]
      exact Or.inl (List.mem_cons_of_mem _ hlv)
    · rw [spots, placed_dropEmpty hside]
      exact List.Subperm.refl _
  · intro B r p o q ls fs B' _ hside ih
    have hother : (B.fillHead isBuy p o q ls (min r o.volume)).side (!!isBuy) =
        B.side (!!isBuy) := by
      cases isBuy <;> rfl
    refine Shrinks.trans (Shrinks.of_side hother ?_ (fun lv hlv => ?_) ?_) ih
    · rw [fillHead_side, hside, List.length_append, List.length_cons]
      have := length_keepLevel p (afterFill o q (min r o.volume))
      omega
    · rw [fillHead_side] at hlv
      rw [hside]
      rcases List.mem_append.mp hlv with hlv | hlv
      · exact Or.inr (keepLevel_queue hlv)
      · exact Or.inl (List.mem_cons_of_mem _ hlv)
    · obtain ⟨rest, hold, hnew⟩ := placed_fillHead (min r o.volume) hside
      refine (hnew.map spotOf).subperm.trans (List.Subperm.trans ?_ (hold.map spotOf).symm.subperm)
      split
      · exact (List.sublist_cons_self _ _).subperm
      · exact List.Subperm.refl _

/-- What an add can do that finds room in the level table. -/
structure Opens (B : Book) (b : Bool) (p : Int64) (who : ParticipantID) (B' : Book) : Prop where
  levels : ∀ b', (B'.side b').length ≤ (B.side b').length + if b' = b then 1 else 0
  spots : B'.spots.Subperm (⟨b, p, B.nextOrderId, who⟩ :: B.spots)
  noEmpty : ¬ B.PoolFull → B.NoEmpty → B'.NoEmpty

theorem length_openLevel (b : Bool) (p : Int64) (ls : List BookLevel) :
    (openLevel b p ls).length ≤ ls.length + 1 := by
  unfold openLevel
  split
  · exact Nat.le_succ _
  · obtain ⟨pre, post, rfl, hins⟩ := insertLevel_split b ⟨p, []⟩ ls
    rw [hins]
    simp only [List.length_append, List.length_cons]
    omega

theorem opens_levels {b : Bool} {ls : List BookLevel} (hother : B'.side (!b) = B.side (!b))
    (hside : B'.side b = ls) (hlength : ls.length ≤ (B.side b).length + 1) (b' : Bool) :
    (B'.side b').length ≤ (B.side b').length + if b' = b then 1 else 0 := by
  by_cases hb : b' = b
  · rw [hb, hside, if_pos rfl]
    exact hlength
  · rw [Bool.eq_not.mpr hb, hother]
    exact Nat.le_add_right _ _

theorem apply_effect (hids : (B.orders.map RestingOrder.orderId).Nodup)
    (hprices : ∀ b, ((B.side b).map BookLevel.priceFp).Nodup) (op : BookOp) :
    B.Shrinks (B.applyBounded op).2 ∨ ∃ b p v who, op = .addLimit b p v who ∧
      B.Opens b p who (B.applyBounded op).2 := by
  cases op with
  | cancel id => exact Or.inl (shrinks_cancel hids id)
  | marketOrder isBuy v taker => exact Or.inl (shrinks_marketOrder isBuy taker B v)
  | addLimit b p v who =>
      show B.Shrinks (B.addLimitBounded b p v who).2 ∨ ∃ b' p' v' who',
        BookOp.addLimit b p v who = .addLimit b' p' v' who' ∧
          B.Opens b' p' who' (B.addLimitBounded b p v who).2
      unfold addLimitBounded
      split
      · exact Or.inl (Shrinks.refl B)
      · refine Or.inr ⟨b, p, v, who, rfl, ?_⟩
        split
        · rename_i hfull
          refine ⟨opens_levels (side_setSide_not ..) (side_setSide ..) (length_openLevel b p _), ?_,
            fun h => absurd hfull h⟩
          exact ((placed_openLevel b p).map spotOf).subperm.trans (List.sublist_cons_self _ _).subperm
        · have hother : (B.addLimit b p v who).2.side (!b) = B.side (!b) := by cases b <;> rfl
          have hside : (B.addLimit b p v who).2.side b =
              enqueue p ⟨B.nextOrderId, v, who⟩ (openLevel b p (B.side b)) := by cases b <;> rfl
          refine ⟨opens_levels hother hside ?_, ?_, fun _ h b' lv hlv => ?_⟩
          · rw [enqueue, List.length_map]
            exact length_openLevel b p _
          · exact ((placed_addLimit (hprices b)).map spotOf).subperm
          · obtain ⟨pre, q, post, hold, -, hnew⟩ := addLimit_split (B := B) p v who (hprices b)
            by_cases hb : b' = b
            · rw [hb, hnew] at hlv
              have hkeep : ∀ lv ∈ pre ++ post, lv.queue ≠ [] := by
                refine fun lv hlv => h b lv ?_
                rw [hold]
                rcases List.mem_append.mp hlv with hlv | hlv
                · exact List.mem_append_left _ (List.mem_append_left _ hlv)
                · exact List.mem_append_right _ hlv
              rcases List.mem_append.mp hlv with hlv | hlv
              · rcases List.mem_append.mp hlv with hlv | hlv
                · exact hkeep lv (List.mem_append_left _ hlv)
                · rw [List.mem_singleton.mp hlv]
                  exact List.append_ne_nil_of_right_ne_nil _ (List.cons_ne_nil _ _)
              · exact hkeep lv (List.mem_append_right _ hlv)
            · rw [Bool.eq_not.mpr hb, hother] at hlv
              exact h _ lv hlv

end Book

/-! ## One call on the flat book -/

/-- The call adds on side `b`. -/
def BookOp.addsOn (b : Bool) : BookOp → Bool
  | .addLimit b' _ _ _ => b' = b
  | _ => false

/-- An add is made in the name of somebody with `P`. -/
def BookOp.AddsBy (P : ParticipantID → Bool) : BookOp → Prop
  | .addLimit _ _ _ participant => P participant = true
  | _ => True

theorem weighs_addsOn (b : Bool) : Weighs (BookOp.addsOn b) fun b' => if b' = b then 1 else 0 := by
  refine ⟨fun b' _ _ _ h => ?_, fun _ => rfl, fun _ _ _ => rfl⟩
  rw [if_pos (of_decide_eq_true h)]

namespace PersistentLOB

variable {lob lob' : PersistentLOB} {op : BookOp} {r : Reply} {b : Bool}

def spots (lob : PersistentLOB) : List Spot := lob.view.spots

def levelCount (lob : PersistentLOB) (b : Bool) : Nat := (lob.view.side b).length

/-- The orders of everybody without `P`. -/
def others (P : ParticipantID → Bool) (lob : PersistentLOB) : List Spot :=
  lob.spots.filter fun x => !P x.participant

theorem Sound.effect (h : lob.Sound) (hids : IdsLast lob op) (hcall : lob.apply op = .ok (r, lob')) :
    lob'.Sound ∧ (lob.view.Shrinks lob'.view ∨ ∃ b p v who, op = .addLimit b p v who ∧
      lob.view.Opens b p who lob'.view) := by
  obtain ⟨B, href⟩ := h
  obtain ⟨rfl, href'⟩ := href.apply_of_ok (href.idsLast hids) hcall
  refine ⟨⟨_, href'⟩, ?_⟩
  rw [href'.view_eq, href.view_eq]
  exact B.apply_effect href.orderIds_nodup (fun b => (href.prices_sorted b).nodup) op

theorem Sound.levels_step (h : lob.Sound) (hids : IdsLast lob op)
    (hcall : lob.apply op = .ok (r, lob')) (b : Bool) :
    lob'.Sound ∧ lob'.levelCount b ≤ lob.levelCount b + if op.addsOn b then 1 else 0 := by
  obtain ⟨h', hshrinks | ⟨b', p, v, who, rfl, hopens⟩⟩ := h.effect hids hcall
  · exact ⟨h', (hshrinks.levels b).trans (Nat.le_add_right _ _)⟩
  · refine ⟨h', (hopens.levels b).trans (Nat.add_le_add_left ?_ _)⟩
    by_cases hb : b = b'
    · rw [if_pos hb, if_pos (show BookOp.addsOn b (.addLimit b' p v who) = true from
        decide_eq_true hb.symm)]
    · rw [if_neg hb]
      exact Nat.zero_le _

theorem Sound.orders_step (h : lob.Sound) (hids : IdsLast lob op)
    (hcall : lob.apply op = .ok (r, lob')) :
    lob'.Sound ∧ lob'.spots.length ≤ lob.spots.length + if op.isAdd then 1 else 0 := by
  obtain ⟨h', hshrinks | ⟨b', p, v, who, rfl, hopens⟩⟩ := h.effect hids hcall
  · exact ⟨h', hshrinks.spots.length_le.trans (Nat.le_add_right _ _)⟩
  · exact ⟨h', hopens.spots.length_le⟩

/-- Adds by somebody with `P` leave the others as they are, or fewer. -/
theorem Sound.others_step {P : ParticipantID → Bool} (h : lob.Sound) (hids : IdsLast lob op)
    (hby : op.AddsBy P) (hcall : lob.apply op = .ok (r, lob')) :
    (others P lob').Subperm (others P lob) := by
  obtain ⟨-, hshrinks | ⟨b', p, v, who, rfl, hopens⟩⟩ := h.effect hids hcall
  · exact hshrinks.spots.filter _
  · have hsub := hopens.spots.filter fun x => !P x.participant
    have hwho : P who = true := hby
    rwa [List.filter_cons_of_neg (by simp [hwho])] at hsub

theorem Sound.noEmpty_step (h : lob.Sound) (hids : IdsLast lob op)
    (hroom : op.isAdd = true → lob.spots.length < orderPoolSize) (hempty : lob.view.NoEmpty)
    (hcall : lob.apply op = .ok (r, lob')) : lob'.view.NoEmpty := by
  obtain ⟨-, hshrinks | ⟨b', p, v, who, rfl, hopens⟩⟩ := h.effect hids hcall
  · exact hshrinks.noEmpty hempty
  · refine hopens.noEmpty (fun hfull => ?_) hempty
    refine absurd (hroom rfl) (not_lt.mpr ?_)
    rwa [spots, Book.spots, List.length_map, ← List.length_map fun x : Placement => x.2.2,
      Book.placed_orders]

/-! ## Refusals -/

/-- A level of the price or room for one, and a slot for the order. -/
def HasRoom (lob : PersistentLOB) (b : Bool) (p : Int64) : Prop :=
  ¬ lob.view.TableFull b p ∧ ¬ lob.view.PoolFull

/-- An add is refused exactly when it has no room, as long as ids last. -/
theorem Sound.refused_iff (h : lob.Sound) {p v : Int64} {who : ParticipantID}
    (hids : IdsLast lob (.addLimit b p v who))
    (hcall : lob.apply (.addLimit b p v who) = .ok (r, lob')) :
    r = .orderId nullOrderId ↔ ¬ lob.HasRoom b p := by
  obtain ⟨B, href⟩ := h
  obtain ⟨rfl, -⟩ := href.apply_of_ok (href.idsLast hids) hcall
  rw [HasRoom, href.view_eq]
  show Reply.orderId (B.addLimitBounded b p v who).1 = _ ↔ _
  unfold Book.addLimitBounded
  split
  · rename_i hfull
    exact ⟨fun _ h => h.1 hfull, fun _ => rfl⟩
  · rename_i htable
    split
    · rename_i hfull
      exact ⟨fun _ h => h.2 hfull, fun _ => rfl⟩
    · rename_i hpool
      constructor
      · exact fun heq => absurd (Reply.orderId.inj heq) href.next_ne_null
      · exact fun hroom => absurd ⟨htable, hpool⟩ hroom

end PersistentLOB

/-! ## Room for the bots -/

def botOwners : List ParticipantID := [botMM, botMR, botNOISE]

namespace PersistentLOB

variable {lob lob' : PersistentLOB}

/-- Nobody but the contestant and three bots rests, and no level is empty. -/
structure Kept (lob : PersistentLOB) : Prop where
  noEmpty : lob.view.NoEmpty
  owners : ∀ x ∈ lob.spots, x.participant ∈ contestant :: botOwners

def contestantSpots (lob : PersistentLOB) : List Spot :=
  lob.spots.filter fun x => x.participant = contestant

/-- The prices on side `b` at which the contestant rests. -/
def contestantPrices (lob : PersistentLOB) (b : Bool) : List Int64 :=
  ((lob.contestantSpots.filter fun x => x.isBid = b).map Spot.priceFp).dedup

def botOrders (lob : PersistentLOB) : List Placement :=
  lob.view.placed.filter fun x => x.2.2.participant ≠ contestant

theorem length_spots (lob : PersistentLOB) :
    lob.spots.length = lob.contestantSpots.length + lob.botOrders.length := by
  unfold botOrders contestantSpots spots Book.spots
  induction lob.view.placed with
  | nil => rfl
  | cons x xs ih =>
      by_cases hx : x.2.2.participant = contestant
      · simp [Book.spotOf, hx] at ih ⊢
        omega
      · simp [Book.spotOf, hx] at ih ⊢
        omega

/-- The contestant leaves room for the bots: on either side for their sixteen prices
and one more, in the pool for their twenty-six orders and the four of the contestant's
next answer. -/
structure Roomy (lob : PersistentLOB) : Prop where
  prices : ∀ b, (lob.contestantPrices b).length ≤ 239
  orders : lob.contestantSpots.length ≤ 16354

/-- Who takes no limit orders of the contestant's into the book leaves the room. -/
theorem Roomy.of_others (h : lob.Roomy) {P : ParticipantID → Bool} (hP : P contestant = false)
    (hsub : (others P lob').Subperm (others P lob)) : lob'.Roomy := by
  have hspots : lob'.contestantSpots.Subperm lob.contestantSpots := by
    have hpick : ∀ lob : PersistentLOB, lob.contestantSpots =
        (others P lob).filter fun x => x.participant = contestant := by
      intro lob
      rw [others, List.filter_filter, contestantSpots]
      refine List.filter_congr fun x _ => ?_
      by_cases hx : x.participant = contestant
      · simp [hx, hP]
      · simp [hx]
    rw [hpick lob', hpick lob]
    exact hsub.filter _
  refine ⟨fun b => le_trans ?_ (h.prices b), hspots.length_le.trans h.orders⟩
  refine ((List.nodup_dedup _).subperm fun p hp => ?_).length_le
  obtain ⟨x, hx, rfl⟩ := List.mem_map.mp (List.mem_dedup.mp hp)
  obtain ⟨hx, hb⟩ := List.mem_filter.mp hx
  refine List.mem_dedup.mpr ?_
  exact List.mem_map_of_mem (List.mem_filter.mpr ⟨hspots.subset hx, hb⟩)

end PersistentLOB

section Count

variable {bots : BotFleet} {lob : PersistentLOB}

open PersistentLOB

/-- The ids that the bots remember on side `b`, and the seed there. -/
def BotFleet.idsOn (bots : BotFleet) (b : Bool) : List UInt64 :=
  [bots.mm.quoteId b, seedId b] ++
    (List.ofFn (if b then bots.mr.bidRing else bots.mr.askRing).ids ++
      List.ofFn bots.noise.orderRing.ids)

theorem FleetTracks.mem_idsOn (h : FleetTracks bots lob) (hkept : lob.Kept) {x : Placement}
    (hx : x ∈ lob.view.placed) (hbot : x.2.2.participant ≠ contestant) :
    x.2.2.orderId ∈ bots.idsOn x.1 := by
  have howner := hkept.owners _ (List.mem_map_of_mem hx)
  have htag : x.2.2.orderId = (Book.tag x).2.1 := rfl
  have hmem : Book.tag x ∈ lob.view.tags := List.mem_map_of_mem hx
  unfold BotFleet.idsOn
  rcases List.mem_cons.mp howner with hc | hb
  · exact absurd hc hbot
  rcases List.mem_cons.mp hb with hmm | hb
  · refine List.mem_append_left _ ?_
    rcases h.mm x.1 _ hmem hmm rfl with hid | hid
    · rw [htag, hid]
      exact List.mem_cons_self
    · rw [htag, hid]
      exact List.mem_cons_of_mem _ List.mem_cons_self
  rcases List.mem_cons.mp hb with hmr | hb
  · refine List.mem_append_right _ (List.mem_append_left _ (OrderRing.mem_ofFn ?_))
    cases hside : x.1 with
    | true => exact h.mr.bids _ hmem hmr hside
    | false => exact h.mr.asks _ hmem hmr hside
  · refine List.mem_append_right _ (List.mem_append_right _ (OrderRing.mem_ofFn ?_))
    exact h.noise.orders x.1 _ hmem (List.mem_singleton.mp hb) rfl

theorem length_idsOn (b : Bool) : (bots.idsOn b).length = 16 := by
  simp [BotFleet.idsOn, maxMROrders, maxNoiseOrders]

theorem FleetTracks.levelCount_le (h : FleetTracks bots lob) (hkept : lob.Kept)
    (hroomy : lob.Roomy) (b : Bool) : lob.levelCount b ≤ 255 := by
  have hbots : (lob.botOrders.filter fun x => x.1 = b).length ≤ (bots.idsOn b).length := by
    refine h.sound.length_le (List.filter_sublist.trans List.filter_sublist) fun x hx => ?_
    obtain ⟨hx, hb⟩ := List.mem_filter.mp hx
    obtain ⟨hx, hbot⟩ := List.mem_filter.mp hx
    exact of_decide_eq_true hb ▸ h.mem_idsOn hkept hx (of_decide_eq_true hbot)
  rw [length_idsOn] at hbots
  -- a level's price is one of the contestant's, or that of a bot's order
  have hprices : (lob.view.side b).map BookLevel.priceFp ⊆ lob.contestantPrices b ++
      (lob.botOrders.filter fun x => x.1 = b).map fun x => x.2.1 := by
    intro p hp
    obtain ⟨lv, hlv, rfl⟩ := List.mem_map.mp hp
    obtain ⟨o, ho⟩ := List.exists_mem_of_ne_nil _ (hkept.noEmpty b lv hlv)
    have hx : (b, lv.priceFp, o) ∈ lob.view.placed :=
      Book.mem_placed.mpr ⟨lv, hlv, rfl, ho⟩
    by_cases hwho : o.participant = contestant
    · refine List.mem_append_left _ (List.mem_dedup.mpr ?_)
      refine List.mem_map.mpr ⟨Book.spotOf (b, lv.priceFp, o), ?_, rfl⟩
      refine List.mem_filter.mpr ⟨List.mem_filter.mpr ⟨List.mem_map_of_mem hx, ?_⟩, ?_⟩
      · exact decide_eq_true hwho
      · exact decide_eq_true rfl
    · refine List.mem_append_right _ (List.mem_map.mpr ⟨(b, lv.priceFp, o), ?_, rfl⟩)
      refine List.mem_filter.mpr ⟨List.mem_filter.mpr ⟨hx, ?_⟩, ?_⟩
      · exact decide_eq_true hwho
      · exact decide_eq_true rfl
  obtain ⟨B, href⟩ := h.sound
  have hnodup := (href.prices_sorted b).nodup
  rw [← href.view_eq] at hnodup
  have hle := (hnodup.subperm hprices).length_le
  rw [List.length_map, List.length_append, List.length_map] at hle
  calc lob.levelCount b ≤ _ := hle
    _ ≤ 239 + 16 := Nat.add_le_add (hroomy.prices b) hbots

theorem FleetTracks.spots_le (h : FleetTracks bots lob) (hkept : lob.Kept) (hroomy : lob.Roomy) :
    lob.spots.length ≤ 16380 := by
  have hbots : lob.botOrders.length ≤
      ([bots.mm.quoteId true, seedId true, bots.mm.quoteId false, seedId false] ++
        (List.ofFn bots.mr.bidRing.ids ++ List.ofFn bots.mr.askRing.ids ++
          List.ofFn bots.noise.orderRing.ids)).length := by
    refine h.sound.length_le List.filter_sublist fun x hx => ?_
    obtain ⟨hx, hb⟩ := List.mem_filter.mp hx
    have hmem := h.mem_idsOn hkept hx (of_decide_eq_true hb)
    cases hside : x.1 with
    | true =>
        rw [hside] at hmem
        simp only [BotFleet.idsOn, if_true, List.mem_append, List.mem_cons, List.not_mem_nil,
          or_false] at hmem ⊢
        tauto
    | false =>
        rw [hside] at hmem
        simp only [BotFleet.idsOn, Bool.false_eq_true, if_false, List.mem_append, List.mem_cons,
          List.not_mem_nil, or_false] at hmem ⊢
        tauto
  have hlength : lob.botOrders.length ≤ 26 := by
    refine hbots.trans (le_of_eq ?_)
    simp [maxMROrders, maxNoiseOrders]
  calc lob.spots.length = _ := lob.length_spots
    _ ≤ 16354 + 26 := Nat.add_le_add hroomy.orders hlength

end Count

/-! ## Programs -/

section Programs

open PersistentLOB

variable {lob : PersistentLOB} {α : Type} {p : BookProg α} {P : ParticipantID → Bool}

theorem BookOp.By.adds {op : BookOp} (h : op.By fun who => P who = true) : op.AddsBy P := by
  cases op <;> first | exact h | trivial

theorem BookOp.addsBy_of_not_add {op : BookOp} (h : op.isAdd = false) : op.AddsBy P := by
  cases op with
  | addLimit b p v who => cases h
  | cancel id => trivial
  | marketOrder isBuy v taker => trivial

theorem processOrders_addsBy (ws : List OrderWord) :
    (processOrders ws).All (BookOp.AddsBy fun who => who = contestant) :=
  (processOrders_by ws).imp fun op hop => by
    cases op <;> first | exact decide_eq_true hop | trivial

/-- What the adds of a few keep, if the pool has room for all of them: no level is
empty, and the others' orders are as they were, or fewer. -/
theorem kept_of_adds {n : Nat} (hP : ∀ who, P who = true → who ∈ contestant :: botOwners)
    (hby : p.All (BookOp.AddsBy P)) (hadds : p.AtMost BookOp.isAdd n) (h : lob.Sound)
    (hkept : lob.Kept) (hroom : lob.spots.length + n ≤ orderPoolSize)
    (hids : Prog.AdmittedIn PersistentLOB.apply IdsLast p lob) :
    Prog.AdmittedIn PersistentLOB.apply (fun lob op => op.isAdd = true →
        lob.spots.length < orderPoolSize) p lob ∧
      ∀ a hist lob', p.run PersistentLOB.apply lob = .ok (a, hist, lob') →
        lob'.Kept ∧ (others P lob').Subperm (others P lob) := by
  have hpool := hadds.admits Sound (fun lob => lob.spots.length)
    (fun _ _ _ _ h hids hcall => h.orders_step hids hcall) h hroom hids
  refine ⟨hpool, fun a hist lob' hrun => ?_⟩
  refine ((Prog.run_steps (fun lob₁ => lob₁.Sound ∧ lob₁.Kept ∧
    (others P lob₁).Subperm (others P lob)) (fun _ _ => True) ?_ ⟨h, hkept, List.Subperm.refl _⟩
    ((hids.and hpool).and hby.admitted) hrun).1).2
  rintro lob₁ op r lob₂ ⟨h₁, hkept₁, hsub⟩ ⟨⟨hlast, hfree⟩, hop⟩ hcall
  have hothers := h₁.others_step hlast hop hcall
  refine ⟨⟨(h₁.orders_step hlast hcall).1, ⟨h₁.noEmpty_step hlast hfree hkept₁.noEmpty hcall, ?_⟩,
    hothers.trans hsub⟩, trivial⟩
  intro x hx
  by_cases hwho : P x.participant = true
  · exact hP _ hwho
  · have hmem : x ∈ others P lob₂ := List.mem_filter.mpr ⟨hx, by simpa using hwho⟩
    exact hkept₁.owners x (List.mem_filter.mp (hothers.subset hmem)).1

def BotsHaveRoom (lob : PersistentLOB) (op : BookOp) : Prop :=
  ∀ b p v who, op = .addLimit b p v who → who ≠ contestant → lob.HasRoom b p

/-- Every bot that acts on a book with room finds it. -/
abbrev BookMeets (Q : α → PersistentLOB → Prop) (p : BookProg α) (lob : PersistentLOB) : Prop :=
  Prog.Meets PersistentLOB.apply IdsLast BotsHaveRoom Q p lob

theorem meets_book {k : PersistentLOB → BookProg α} {Q : α → PersistentLOB → Prop}
    (h : BookMeets Q (k lob) lob) : BookMeets Q (book >>= k) lob := h

/-- The book as the next bot meets it. -/
structure Ready (bots : BotFleet) (lob : PersistentLOB) : Prop where
  kept : lob.Kept
  roomy : lob.Roomy
  tracks : FleetTracks bots lob

variable {bots : BotFleet}

theorem Ready.bot (h : Ready bots lob) (hby : p.All (BookOp.AddsBy fun who => who ∈ botOwners))
    (hadds : p.AtMost BookOp.isAdd 2) (hside : ∀ b, p.AtMost (BookOp.addsOn b) 1) :
    BookMeets (fun _ lob' => lob'.Kept ∧ lob'.Roomy) p lob := by
  intro hids
  have hsound := h.tracks.sound
  have hspots := h.tracks.spots_le h.kept h.roomy
  obtain ⟨hpool, hrest⟩ := kept_of_adds (n := 2)
    (fun who hwho => List.mem_cons_of_mem _ (of_decide_eq_true hwho)) hby hadds hsound h.kept
    (le_trans (Nat.add_le_add_right hspots 2) (by decide)) hids
  have hlevels : ∀ b, Prog.AdmittedIn PersistentLOB.apply (fun lob op => op.addsOn b = true →
      lob.levelCount b < maxPriceLevels) p lob :=
    fun b => by
      have hroom : lob.levelCount b + 1 ≤ maxPriceLevels :=
        Nat.add_le_add_right (h.tracks.levelCount_le h.kept h.roomy b) 1
      refine (hside b).admits Sound (fun lob => lob.levelCount b) ?_ hsound hroom hids
      exact fun _ _ _ _ h hids hcall => h.levels_step hids hcall b
  refine ⟨(hpool.and ((hlevels true).and (hlevels false))).imp ?_, fun a hist lob' hrun => ?_⟩
  · rintro lob₁ op ⟨hfree, htrue, hfalse⟩ b p v who rfl -
    refine ⟨fun hfull => absurd hfull.2 (not_le.mpr ?_), fun hfull => ?_⟩
    · cases b with
      | true => exact htrue rfl
      | false => exact hfalse rfl
    · refine absurd (hfree rfl) (not_lt.mpr ?_)
      rwa [spots, Book.spots, List.length_map, ← List.length_map fun x : Placement => x.2.2,
        Book.placed_orders]
  · obtain ⟨hkept, hothers⟩ := hrest a hist lob' hrun
    exact ⟨hkept, h.roomy.of_others (by decide) hothers⟩

theorem Ready.quiet (h : Ready bots lob) (hnone : ∀ {q : BookOp → Bool} {w : Bool → Nat},
    Weighs q w → p.AtMost q 0) : BookMeets (fun _ lob' => lob'.Kept ∧ lob'.Roomy) p lob :=
  h.bot ((hnone weighs_isAdd).none.imp fun _ hop => BookOp.addsBy_of_not_add hop)
    ((hnone weighs_isAdd).mono (Nat.zero_le _)) fun b => (hnone (weighs_addsOn b)).mono (Nat.zero_le _)

theorem Ready.step (h : Ready bots lob) (cfg : BotConfig) (snap : MarketSnapshot) :
    BookMeets (fun bots lob' => Ready bots lob') (bots.step cfg snap) lob := by
  have hby : ∀ {α : Type} {p : BookProg α},
      p.All (BookOp.By fun who => decide (who ∈ botOwners) = true) →
      p.All (BookOp.AddsBy fun who => who ∈ botOwners) :=
    fun hp => hp.imp fun _ hop => hop.adds
  have hone : ∀ b b' : Bool, (if b' = b then 1 else 0) ≤ 1 := by decide
  have hboth : ∀ b : Bool, (if true = b then 1 else 0) + (if false = b then 1 else 0) ≤ 1 := by
    decide
  unfold BotFleet.step
  refine Prog.meets_when (Q := fun mm lob => Ready { bots with mm } lob)
    (fun _ => ((h.bot (hby (MarketMakerBot.compute_by (by decide) ..))
      (MarketMakerBot.compute_atMost weighs_isAdd ..) fun b =>
        (MarketMakerBot.compute_atMost (weighs_addsOn b) ..).mono (hboth b)).and
      (h.tracks.mm_compute _ snap)).imp fun mm _ hq => ⟨hq.1.1, hq.1.2, hq.2⟩)
    (fun _ => h) fun mm lob₁ h₁ => ?_
  refine Prog.meets_when (Q := fun mom lob => Ready { bots with mm, mom } lob)
    (fun _ => ?_) (fun _ => h₁) fun mom lob₂ h₂ => ?_
  · refine ((h₁.quiet fun hw => MomentumBot.compute_atMost hw ..).and
      (h₁.tracks.others fun who hwho => MomentumBot.compute_by ?_ ..)).imp
      fun mom _ hq => ⟨hq.1.1, hq.1.2, hq.2.with_mom mom⟩
    rcases hwho with rfl | rfl | rfl <;> decide
  refine Prog.meets_when (Q := fun mr lob => Ready { bots with mm, mom, mr } lob)
    (fun _ => ((h₂.bot (hby (MeanReversionBot.compute_by (by decide) ..))
      (MeanReversionBot.compute_atMost weighs_isAdd ..) fun b =>
        (MeanReversionBot.compute_atMost (weighs_addsOn b) ..).mono
          ((Nat.add_comm _ _).trans_le (hboth b))).and
      (h₂.tracks.mr_compute _ snap)).imp fun mr _ hq => ⟨hq.1.1, hq.1.2, hq.2⟩)
    (fun _ => h₂) fun mr lob₃ h₃ => ?_
  refine Prog.meets_when (Q := fun noise lob => Ready { bots with mm, mom, mr, noise } lob)
    (fun _ => ((h₃.bot (hby (NoiseTraderBot.compute_by (by decide) ..))
      ((NoiseTraderBot.compute_atMost weighs_isAdd (fun _ => le_refl 1) ..).mono (by decide))
      fun b => NoiseTraderBot.compute_atMost (weighs_addsOn b) (hone b) ..).and
      (h₃.tracks.noise_compute _ snap)).imp fun noise _ hq => ⟨hq.1.1, hq.1.2, hq.2⟩)
    (fun _ => h₃) fun noise lob₄ h₄ => ?_
  refine Prog.meets_when (a := ()) (Q := fun _ lob => Ready { bots with mm, mom, mr, noise } lob)
    (fun _ => ?_) (fun _ => h₄) fun _ _ h₅ => Prog.meets_ret h₅
  refine ((h₄.quiet fun hw => SniperBot.compute_atMost hw ..).and
    (h₄.tracks.others fun who hwho => SniperBot.compute_by ?_ ..)).imp
    fun _ _ hq => ⟨hq.1.1, hq.1.2, hq.2⟩
  rcases hwho with rfl | rfl | rfl <;> decide

/-- One tick: the bots find room, and step 6 leaves no empty level. -/
theorem Ready.tick {gm : Master} (h : Ready gm.bots lob) (cfg : SimConfig) (input : TickInput) :
    BookMeets (fun gm' lob' => FleetTracks gm'.bots lob' ∧ lob'.Kept) (gm.tick cfg input) lob := by
  unfold Master.tick
  refine meets_book (Prog.meets_bind (h.step _ _) fun bots lob₁ h₁ => ?_)
  refine meets_book (Prog.meets_bind (Q := fun _ lob' => FleetTracks bots lob' ∧ lob'.Kept) ?_
    fun fills lob₂ h₂ => Prog.meets_ret ⟨h₂.1.distributeFills fills, h₂.2⟩)
  intro hids
  refine ⟨(processOrders_addsBy _).admitted.imp ?_, fun fs hist lob' hrun => ⟨?_, ?_⟩⟩
  · rintro lob₂ op hop b p v who rfl hwho
    exact absurd (of_decide_eq_true hop) hwho
  · refine h₁.tracks.others (fun who hwho => ?_) hids fs hist lob' hrun
    refine Prog.All.imp (fun op hop => ?_) (processOrders_by _)
    have hne : contestant ≠ who := by rcases hwho with rfl | rfl | rfl <;> decide
    cases op with
    | addLimit b p v participant => exact hop ▸ hne
    | marketOrder isBuy v taker => exact hop ▸ hne
    | cancel id => trivial
  · have hfour : ∀ sm : SharedMem, (processOrders sm.pending).AtMost BookOp.isAdd 4 := by
      intro sm
      refine (processOrders_adds _).mono ?_
      unfold SharedMem.pending
      rw [List.length_take, List.length_map, List.length_finRange]
      exact Nat.min_le_right _ _
    refine ((kept_of_adds (n := 4) (fun who hwho => ?_) (processOrders_addsBy _) (hfour _)
      h₁.tracks.sound h₁.kept ?_ hids).2 fs hist lob' hrun).1
    · rw [of_decide_eq_true hwho]
      exact List.mem_cons_self
    · exact le_trans (Nat.add_le_add_right (h₁.tracks.spots_le h₁.kept h₁.roomy) 4) (by decide)

end Programs

/-! ## Runs -/

/-- What the contestant leaves at the start of a tick: room for the bots, and the order
counter ids for one more tick. -/
def LeavesRoom (s : SimState) : Prop := s.1.Roomy ∧ s.1.nextOrderId.toNat + 9 < 2 ^ 64

instance (lob : PersistentLOB) : Decidable lob.Roomy :=
  decidable_of_iff ((∀ b, (lob.contestantPrices b).length ≤ 239) ∧
    lob.contestantSpots.length ≤ 16354) ⟨fun h => ⟨h.1, h.2⟩, fun h => ⟨h.prices, h.orders⟩⟩

instance (s : SimState) : Decidable (LeavesRoom s) := inferInstanceAs (Decidable (_ ∧ _))

/-- The reply is not that of a bot's order that has been refused. -/
def NotRefused (op : BookOp) (r : Reply) : Prop :=
  ∀ b p v who, op = .addLimit b p v who → who ≠ contestant → r ≠ .orderId nullOrderId

theorem notRefused_of_room {α : Type} {p : BookProg α} {lob lob' : PersistentLOB} {a : α}
    {h : BookHistory} (hsound : lob.Sound)
    (hids : Prog.AdmittedIn PersistentLOB.apply IdsLast p lob)
    (hroom : Prog.AdmittedIn PersistentLOB.apply BotsHaveRoom p lob)
    (hrun : p.run PersistentLOB.apply lob = .ok (a, h, lob')) : ∀ c ∈ h, NotRefused c.1 c.2 := by
  refine (Prog.run_steps PersistentLOB.Sound NotRefused ?_ hsound (hids.and hroom) hrun).2
  rintro lob₁ op r lob₂ h₁ ⟨hlast, hfree⟩ hcall
  refine ⟨(h₁.orders_step hlast hcall).1, ?_⟩
  rintro b p v who rfl hwho hnull
  exact (h₁.refused_iff hlast hcall).mp hnull (hfree b p v who rfl hwho)

theorem seeded_kept (cfg : SimConfig) {h : BookHistory} {lob : PersistentLOB}
    (hseed : seedBook.run PersistentLOB.apply PersistentLOB.init = .ok ((), h, lob)) :
    FleetTracks (Master.init cfg).bots lob ∧ lob.Kept ∧ ∀ c ∈ h, NotRefused c.1 c.2 := by
  have hbook : (seedBook.run PersistentLOB.apply PersistentLOB.init).map (fun r =>
      decide (r.2.2.view.spots = [⟨true, 100000000, 1, botMM⟩, ⟨false, 100100000, 2, botMM⟩] ∧
        r.2.2.view.bids = [⟨100000000, [⟨1, 100, botMM⟩]⟩] ∧
        r.2.2.view.asks = [⟨100100000, [⟨2, 100, botMM⟩]⟩] ∧
        r.2.1.map Prod.snd = [.orderId 1, .orderId 2])) = .ok true := by
    decide +kernel
  rw [hseed] at hbook
  obtain ⟨hspots, hbids, hasks, hreplies⟩ := of_decide_eq_true (Except.ok.inj hbook)
  have htracked : Tracked 0 (lob, Master.init cfg) := Tracked.seeded (by decide) hseed
  refine ⟨htracked.bots, ⟨fun b lv hlv => ?_, fun x hx => ?_⟩, fun c hc => ?_⟩
  · cases b with
    | true =>
        change lv ∈ lob.view.bids at hlv
        rw [hbids] at hlv
        rw [List.mem_singleton.mp hlv]
        exact List.cons_ne_nil _ _
    | false =>
        change lv ∈ lob.view.asks at hlv
        rw [hasks] at hlv
        rw [List.mem_singleton.mp hlv]
        exact List.cons_ne_nil _ _
  · have hx : x ∈ lob.view.spots := hx
    rw [hspots] at hx
    rcases List.mem_pair.mp hx with rfl | rfl <;> exact List.mem_cons_of_mem _ List.mem_cons_self
  · have hreply : c.2 ∈ [Reply.orderId 1, Reply.orderId 2] := by
      rw [← hreplies]
      exact List.mem_map_of_mem hc
    intro b p v who _ _ hnull
    rw [hnull] at hreply
    exact absurd hreply (by decide)

/-- No order of a bot is ever refused while the contestant leaves room: whatever the
prices, the eagerness of the bots and the contestant's answers. -/
theorem bots_never_refused {cfg : SimConfig} {inputs : List TickInput} {hs : List BookHistory}
    {s : SimState} (hadm : TicksAdmitted cfg (fun s _ => LeavesRoom s) inputs)
    (hrun : runSimulation cfg inputs = .ok (hs, s)) :
    ∀ h ∈ hs, ∀ c ∈ h, ∀ b p v who, c.1 = .addLimit b p v who → who ≠ contestant →
      c.2 ≠ .orderId nullOrderId := by
  obtain ⟨h₀, lob, hs', hseed, hticks, rfl⟩ := runSimulation_eq_ok.mp hrun
  simp only [TicksAdmitted, hseed] at hadm
  obtain ⟨htracks, hkept, hnull⟩ := seeded_kept cfg hseed
  have hall : List.Forall₂ (fun _ h => ∀ c ∈ h, NotRefused c.1 c.2) inputs hs' := by
    refine (runFrom_steps (fun s : SimState => FleetTracks s.2.bots s.1 ∧ s.1.Kept) _ ?_ inputs _
      ⟨htracks, hkept⟩ hadm hticks).2
    rintro s₁ input h s₂ ⟨htracks, hkept⟩ ⟨hroomy, hids⟩ hstep
    have htick := SimState.step_eq_ok.mp hstep
    obtain ⟨B, href⟩ := htracks.sound
    rw [href.next_eq] at hids
    have hlast := idsLast_of_adds (Master.tick_adds s₁.2 cfg input) href hids
    obtain ⟨hroom, hnext⟩ := Ready.tick ⟨hkept, hroomy, htracks⟩ cfg input hlast
    exact ⟨hnext _ _ _ htick, notRefused_of_room htracks.sound hlast hroom htick⟩
  intro h hh
  rcases List.mem_cons.mp hh with rfl | hh
  · exact hnull
  · obtain ⟨i, hi, rfl⟩ := List.mem_iff_getElem.mp hh
    exact (List.forall₂_iff_get.mp hall).2 i (hall.length_eq ▸ hi) hi

/-- One tick of a run with room, in which the contestant bids a cent below the seed. -/
theorem bots_never_refused_one_tick :
    let cfg : SimConfig := ⟨BotConfig.default, 1000, fun _ _ => 0⟩
    let inputs : List TickInput :=
      [⟨.gbm 100050000 450000 false, .answer 1 fun _ => ⟨1, 99990000, 10, 0⟩⟩]
    ∃ hs s, runSimulation cfg inputs = .ok (hs, s) ∧
      TicksAdmitted cfg (fun s _ => LeavesRoom s) inputs ∧
      ∀ h ∈ hs, ∀ c ∈ h, ∀ b p v who, c.1 = .addLimit b p v who → who ≠ contestant →
        c.2 ≠ .orderId nullOrderId := by
  intro cfg inputs
  have hdone : (runSimulation cfg inputs).map (fun _ => true) = .ok true := by
    decide +kernel
  obtain ⟨⟨hs, s⟩, hrun, -⟩ := map_eq_ok hdone
  have hadm : TicksAdmitted cfg (fun s _ => LeavesRoom s) inputs := by
    decide +kernel
  exact ⟨hs, s, hrun, hadm, bots_never_refused hadm hrun⟩

/-! ## The contestant fills the table -/

/-- Only the mean-reversion bot is active. -/
def mrOnly : SimConfig :=
  let off : Aggression := ⟨false, fun _ => 0⟩
  ⟨⟨off, off, 30000, ⟨true, fun k => k⟩, off, off⟩, 1000, fun _ _ => 0⟩

/-- A row with its own mid price of 100.05. -/
def quotedAt (fairValueFp : Int64) : PriceTick :=
  .row 100000000 100100000 100050000 100000 fairValueFp 450000 false

/-- Nothing to fade; the contestant bids for one at the `k`-th lowest price there is. -/
def rung (k : Nat) : TickInput :=
  ⟨quotedAt 100050000, .answer 1 fun _ => ⟨1, Int64.ofNat (k + 1), 1, 0⟩⟩

/-- The fair value 15 cents above the mid price. -/
def dip : TickInput := ⟨quotedAt 100200000, .timeout⟩

/-- The bid that the mean-reversion bot answers with. -/
def fadeBid : BookOp := .addLimit true 100110000 80 botMR

theorem snapshot_quotedAt (fair a b : Int64) : (quotedAt fair).snapshot a b =
    ⟨100000000, 100100000, 100050000, 100000, fair, 450000, false⟩ := by
  have hbid : (0 : Int64) < 100000000 := by decide
  have hask : (0 : Int64) < 100100000 := by decide
  have hmid : (0 : Int64) < 100050000 := by decide
  simp only [quotedAt, PriceTick.snapshot, if_pos hbid, if_pos hask, if_pos hmid]

theorem step_mrOnly (bots : BotFleet) (snap : MarketSnapshot) : bots.step mrOnly.bots snap =
    (do let mr ← bots.mr.compute ⟨true, fun k => k⟩ snap
        return ⟨bots.mm, bots.mom, mr, bots.noise⟩) := by
  unfold BotFleet.step
  simp [mrOnly]

theorem compute_calm (bot : MeanReversionBot) (agg : Aggression) :
    bot.compute agg ⟨100000000, 100100000, 100050000, 100000, 100050000, 450000, false⟩ =
      .ret bot := by
  unfold MeanReversionBot.compute
  rfl

theorem SimState.step_of_run {cfg : SimConfig} {gm : Master} {input : TickInput}
    {lob lob₁ lob' : PersistentLOB} {bots : BotFleet} {h₁ h₂ : BookHistory}
    {fs : List MatchedFill}
    (hbots : (gm.bots.step cfg.bots (input.price.snapshot lob.bestBid lob.bestAsk)).run
      PersistentLOB.apply lob = .ok (bots, h₁, lob₁))
    (hwords : (processOrders ((Master.publish cfg lob₁
        (input.price.snapshot lob.bestBid lob.bestAsk) gm.pnl.resetTickState gm.shm).receive
        input.response).pending).run PersistentLOB.apply lob₁ = .ok (fs, h₂, lob')) :
    ∃ gm', SimState.step cfg (lob, gm) input = .ok (h₁ ++ h₂, lob', gm') ∧
      gm'.bots = bots.distributeFills fs := by
  -- read the book, the bots, read it again, step 6
  refine ⟨_, SimState.step_eq_ok.mpr (Prog.run_bind_eq_ok.mpr ⟨lob, [], lob, h₁ ++ h₂, rfl,
    Prog.run_bind_eq_ok.mpr ⟨bots, h₁, lob₁, h₂, hbots, Prog.run_bind_eq_ok.mpr
      ⟨lob₁, [], lob₁, h₂, rfl, Prog.run_bind_eq_ok.mpr
        ⟨fs, h₂, lob', [], hwords, rfl, (List.append_nil _).symm⟩, rfl⟩, rfl⟩, rfl⟩), rfl⟩

theorem processOrders_one {lob lob' : PersistentLOB} {p v : Int64} {r : Reply}
    (hcall : lob.apply (.addLimit true p v contestant) = .ok (r, lob')) :
    (processOrders [⟨1, p, v, 0⟩]).run PersistentLOB.apply lob =
      .ok ([], [(.addLimit true p v contestant, r)], lob') := by
  show Prog.run PersistentLOB.apply (Prog.call _ _) lob = _
  rw [Prog.run, hcall]
  cases r <;> rfl

theorem rung_step {lob lob' : PersistentLOB} {k : Nat} {r : Reply} (gm : Master)
    (hcall : lob.apply (.addLimit true (Int64.ofNat (k + 1)) 1 contestant) = .ok (r, lob')) :
    ∃ h gm', SimState.step mrOnly (lob, gm) (rung k) = .ok (h, lob', gm') ∧
      gm'.bots = gm.bots := by
  have hbots : ∃ gm', SimState.step mrOnly (lob, gm) (rung k) = .ok ([] ++
      [(.addLimit true (Int64.ofNat (k + 1)) 1 contestant, r)], lob', gm') ∧
      gm'.bots = gm.bots.distributeFills [] := by
    refine SimState.step_of_run ?_ (processOrders_one hcall)
    rw [rung, snapshot_quotedAt, step_mrOnly, compute_calm]
    rfl
  obtain ⟨gm', hstep⟩ := hbots
  exact ⟨_, gm', hstep⟩

theorem dip_step {lob lob' : PersistentLOB} {gm : Master} (hbots : gm.bots = BotFleet.init)
    (hcall : lob.apply fadeBid = .ok (.orderId nullOrderId, lob')) :
    ∃ gm', SimState.step mrOnly (lob, gm) dip =
      .ok ([(fadeBid, .orderId nullOrderId)], lob', gm') := by
  have hrun : (gm.bots.step mrOnly.bots (dip.price.snapshot lob.bestBid lob.bestAsk)).run
      PersistentLOB.apply lob = .ok ({ BotFleet.init with
        mr := { MeanReversionBot.init with bidRing := (OrderRing.empty.push nullOrderId).2 } },
        [(fadeBid, .orderId nullOrderId)], lob') := by
    rw [dip, snapshot_quotedAt, step_mrOnly, hbots]
    show Prog.run PersistentLOB.apply (Prog.call fadeBid _) lob = _
    rw [Prog.run, hcall]
    rfl
  have hnone : (processOrders []).run PersistentLOB.apply lob' = .ok ([], [], lob') := rfl
  obtain ⟨gm', hstep, -⟩ := SimState.step_of_run hrun hnone
  exact ⟨gm', hstep⟩

/-! ### The book with `n` rungs -/

def seedLevel : BookLevel := ⟨100000000, [⟨1, 100, botMM⟩]⟩

def rungs : Nat → List BookLevel
  | 0 => []
  | n + 1 => ⟨Int64.ofNat (n + 1), [⟨UInt64.ofNat (n + 3), 1, contestant⟩]⟩ :: rungs n

def ladder (n : Nat) : Book :=
  ⟨seedLevel :: rungs n, [⟨100100000, [⟨2, 100, botMM⟩]⟩], UInt64.ofNat (n + 3), 0, 0⟩

theorem length_rungs (n : Nat) : (rungs n).length = n := by
  induction n with
  | zero => rfl
  | succ n ih => rw [rungs, List.length_cons, ih]

theorem ladder_levels (n : Nat) : ((ladder n).side true).length = n + 1 :=
  congrArg Nat.succ (length_rungs n)

theorem ladder_orders (n : Nat) : (ladder n).orders.length = n + 2 := by
  have hpriority : (Book.priority (rungs n)).length = n := by
    induction n with
    | zero => rfl
    | succ n ih =>
        show (_ :: Book.priority (rungs n)).length = n + 1
        rw [List.length_cons, ih]
  show (_ :: Book.priority (rungs n) ++ [_]).length = n + 2
  rw [List.length_append, List.length_cons, hpriority]
  rfl

theorem toInt_rung {k : Nat} (hk : k < 256) : (Int64.ofNat k).toInt = k :=
  Int64.toInt_ofNat_of_lt (by omega)

theorem rungs_prices {n : Nat} : ∀ lv ∈ rungs n, ∃ k, k ≤ n ∧ lv.priceFp = Int64.ofNat k := by
  induction n with
  | zero => exact fun lv hlv => absurd hlv List.not_mem_nil
  | succ n ih =>
      intro lv hlv
      rcases List.mem_cons.mp hlv with rfl | hlv
      · exact ⟨n + 1, le_refl _, rfl⟩
      · obtain ⟨k, hk, hp⟩ := ih lv hlv
        exact ⟨k, Nat.le_succ_of_le hk, hp⟩

theorem ladder_new {n : Nat} {p : Int64} (hn : n < 256) (hlo : n < p.toInt)
    (hseed : p ≠ 100000000) : ∀ lv ∈ seedLevel :: rungs n, lv.priceFp ≠ p := by
  intro lv hlv
  rcases List.mem_cons.mp hlv with rfl | hlv
  · exact hseed.symm
  · obtain ⟨k, hk, hp⟩ := rungs_prices lv hlv
    rw [hp]
    rintro rfl
    rw [toInt_rung (by omega)] at hlo
    omega

theorem ladder_hasLevel {n : Nat} {p : Int64} (hn : n < 256) (hlo : n < p.toInt)
    (hseed : p ≠ 100000000) : Book.hasLevel ((ladder n).side true) p = false := by
  rw [Book.hasLevel, List.any_eq_false]
  intro lv hlv
  simpa using ladder_new hn hlo hseed lv hlv

theorem ladder_insert {n : Nat} (hn : n < 255) :
    Book.insertLevel true ⟨Int64.ofNat (n + 1), []⟩ (seedLevel :: rungs n) =
      [seedLevel] ++ ⟨Int64.ofNat (n + 1), []⟩ :: rungs n := by
  refine Book.insertLevel_eq [seedLevel] (rungs n) (fun x hx => ?_) fun x post heq => ?_
  · rw [List.mem_singleton.mp hx]
    simp only [LOBSide.before, if_true, decide_eq_false_iff_not, Int64.lt_iff_toInt_lt]
    rw [toInt_rung (by omega), show seedLevel.priceFp.toInt = 100000000 from rfl]
    omega
  · cases n with
    | zero => cases heq
    | succ n =>
        cases heq
        simp only [LOBSide.before, if_true, decide_eq_true_eq, Int64.lt_iff_toInt_lt]
        rw [toInt_rung (by omega), toInt_rung (by omega)]
        omega

theorem ladder_add {n : Nat} (hn : n < 255) :
    (ladder n).applyBounded (.addLimit true (Int64.ofNat (n + 1)) 1 contestant) =
      (.orderId (UInt64.ofNat (n + 3)), ladder (n + 1)) := by
  have hlo : (n : Int) < (Int64.ofNat (n + 1)).toInt := by
    rw [toInt_rung (by omega)]
    omega
  have hseed : Int64.ofNat (n + 1) ≠ 100000000 := by
    intro heq
    have := congrArg Int64.toInt heq
    rw [toInt_rung (by omega), show (100000000 : Int64).toInt = 100000000 from rfl] at this
    omega
  have htable : ¬ (ladder n).TableFull true (Int64.ofNat (n + 1)) := by
    rintro ⟨-, hfull⟩
    rw [ladder_levels, show maxPriceLevels = 256 from rfl] at hfull
    omega
  have hpool : ¬ (ladder n).PoolFull := by
    rw [Book.PoolFull, ladder_orders, show orderPoolSize = 16384 from rfl]
    omega
  have hnext : (ladder n).nextOrderId + 1 = UInt64.ofNat (n + 1 + 3) := by
    rw [show n + 1 + 3 = (n + 3) + 1 from by omega]
    exact (UInt64.ofNat_add (n + 3) 1).symm
  have hadd : (ladder n).addLimit true (Int64.ofNat (n + 1)) 1 contestant =
      (UInt64.ofNat (n + 3), ladder (n + 1)) := by
    unfold Book.addLimit
    rw [Book.openLevel, ladder_hasLevel (by omega) hlo hseed, if_neg (by simp),
      show (ladder n).side true = seedLevel :: rungs n from rfl, ladder_insert hn,
      Rep.enqueue_eq ⟨Int64.ofNat (n + 1), []⟩ rfl
        (fun x hx => ladder_new (by omega) hlo hseed x hx), hnext]
    rfl
  have hbounded : (ladder n).addLimitBounded true (Int64.ofNat (n + 1)) 1 contestant =
      (UInt64.ofNat (n + 3), ladder (n + 1)) := by
    unfold Book.addLimitBounded
    rw [if_neg htable, if_neg hpool, hadd]
  simp only [Book.applyBounded, hbounded]

/-- The full ladder has no place for the bid of the mean-reversion bot. -/
theorem ladder_full : (ladder 255).applyBounded fadeBid = (.orderId nullOrderId, ladder 255) := by
  have htable : (ladder 255).TableFull true 100110000 := by
    refine ⟨ladder_hasLevel (by decide) (by decide) (by decide), ?_⟩
    rw [ladder_levels]
    exact le_refl _
  simp only [fadeBid, Book.applyBounded, Book.addLimitBounded, if_pos htable]

/-! ### The run -/

theorem ladder_zero : ∃ h lob, seedBook.run PersistentLOB.apply PersistentLOB.init =
    .ok ((), h, lob) ∧ Refines lob (ladder 0) := by
  have hseed : (seedBook.run PersistentLOB.apply PersistentLOB.init).map (fun r =>
      decide (r.2.1.map Prod.fst = [.addLimit true 100000000 100 botMM,
        .addLimit false 100100000 100 botMM])) = .ok true := by
    decide +kernel
  obtain ⟨⟨_, h, lob⟩, hrun, hops⟩ := map_eq_ok hseed
  have hops : h.map Prod.fst = _ := of_decide_eq_true hops
  have hreplay : PersistentLOB.run (h.map Prod.fst) = _ := Prog.run_replay hrun
  rw [hops] at hreplay
  obtain ⟨-, href⟩ := run_bounded (by decide) hreplay
  exact ⟨h, lob, hrun, href⟩

theorem ladder_run : ∀ n, n ≤ 255 → ∃ hs lob gm,
    runSimulation mrOnly ((List.range n).map rung) = .ok (hs, lob, gm) ∧
      Refines lob (ladder n) ∧ gm.bots = BotFleet.init
  | 0, _ => by
      obtain ⟨h, lob, hseed, href⟩ := ladder_zero
      exact ⟨[h], lob, Master.init mrOnly,
        runSimulation_eq_ok.mpr ⟨h, lob, [], hseed, rfl, rfl⟩, href, rfl⟩
  | n + 1, hn => by
      obtain ⟨hs, lob, gm, hrun, href, hbots⟩ := ladder_run n (Nat.le_of_succ_le hn)
      have hproper : BookOp.Proper (ladder n)
          (.addLimit true (Int64.ofNat (n + 1)) 1 contestant) := by
        show UInt64.ofNat (n + 3) ≠ emptyKey
        intro heq
        have := congrArg UInt64.toNat heq
        rw [UInt64.toNat_ofNat_of_lt' (by rw [UInt64.size]; omega),
          show emptyKey.toNat = 2 ^ 64 - 1 from rfl] at this
        omega
      obtain ⟨lob', hcall, href'⟩ := href.apply hproper
      rw [ladder_add hn] at hcall href'
      obtain ⟨h, gm', hstep, hbots'⟩ := rung_step gm hcall
      refine ⟨hs ++ [h], lob', gm', ?_, href', hbots'.trans hbots⟩
      rw [List.range_succ, List.map_append]
      exact runSimulation_snoc hrun hstep

/-- An order of a bot is refused: 255 ticks with a fresh bid each have filled the level
table, and the bid of the mean-reversion bot finds no place. -/
theorem ladder_refuses_bot : ∃ hs s,
    runSimulation mrOnly ((List.range 255).map rung ++ [dip]) = .ok (hs, s) ∧
      ∃ h ∈ hs, (BookOp.addLimit true 100110000 80 botMR, Reply.orderId nullOrderId) ∈ h := by
  obtain ⟨hs, lob, gm, hrun, href, hbots⟩ := ladder_run 255 (le_refl _)
  have hproper : BookOp.Proper (ladder 255) fadeBid := by
    show UInt64.ofNat 258 ≠ emptyKey
    decide
  obtain ⟨lob', hcall, -⟩ := href.apply hproper
  rw [ladder_full] at hcall
  obtain ⟨gm', hstep⟩ := dip_step hbots hcall
  exact ⟨_, _, runSimulation_snoc hrun hstep, _, List.mem_append_right _ List.mem_cons_self,
    List.mem_cons_self⟩

end VidhiArena.GameMaster
