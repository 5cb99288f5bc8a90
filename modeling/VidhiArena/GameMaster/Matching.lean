import VidhiArena.GameMaster.Cancel

/-!
# `market_order` against the naive book

One round of the matching loop is one round of the naive matching
(`Book.marketOrder_round`); the loop is then an induction on its budget. Every
round but the last erases an empty level or a filled order, so the budget of
the embedding is never the reason why it stops.
-/

namespace VidhiArena.GameMaster

open VidhiArena.Foundation

namespace Book

@[simp] theorem side_setSide (B : Book) (b : Bool) (ls : List BookLevel) :
    (B.setSide b ls).side b = ls := by cases b <;> rfl

@[simp] theorem side_setSide_not (B : Book) (b : Bool) (ls : List BookLevel) :
    (B.setSide b ls).side (!b) = B.side (!b) := by cases b <;> rfl

theorem setSide_side (B : Book) (b : Bool) : B.setSide b (B.side b) = B := by cases b <;> rfl

/-! ## One round of the naive matching -/

/-- What a level keeps when its queue is `q`: nothing if `q` is empty. -/
def keepLevel (priceFp : Int64) (q : List RestingOrder) : List BookLevel :=
  if q = [] then [] else [⟨priceFp, q⟩]

/-- The queue `o :: q` after `fillVol` was taken from its head. -/
def afterFill (o : RestingOrder) (q : List RestingOrder) (fillVol : Int64) :
    List RestingOrder :=
  if o.volume - fillVol = 0 then q else { o with volume := o.volume - fillVol } :: q

/-- The book after one fill of `fillVol` against the head of its best level. -/
def fillHead (B : Book) (isBuy : Bool) (priceFp : Int64) (o : RestingOrder)
    (q : List RestingOrder) (ls : List BookLevel) (fillVol : Int64) : Book :=
  { B.setSide (!isBuy) (keepLevel priceFp (afterFill o q fillVol) ++ ls) with
    lastTradeFp := priceFp
    totalFills := B.totalFills + 1 }

variable {B : Book} {isBuy : Bool} {taker : ParticipantID} {remaining : Int64}

theorem lastPrice_cons (last : Int64) (f : MatchedFill) (fs : List MatchedFill) :
    lastPrice last (f :: fs) = lastPrice f.priceFp fs := by
  rcases List.eq_nil_or_concat' fs with rfl | ⟨fs, x, rfl⟩
  · rfl
  · have h : f :: (fs ++ [x]) = (f :: fs) ++ [x] := rfl
    rw [h, lastPrice, lastPrice, List.getLast?_concat, List.getLast?_concat]
    rfl

theorem marketOrder_eq (B : Book) (isBuy : Bool) (volume : Int64) (taker : ParticipantID) :
    B.marketOrder isBuy volume taker =
      ((matchLevels isBuy taker volume (B.side !isBuy)).1,
        { B.setSide (!isBuy) (matchLevels isBuy taker volume (B.side !isBuy)).2 with
          lastTradeFp := lastPrice B.lastTradeFp
            (matchLevels isBuy taker volume (B.side !isBuy)).1
          totalFills := B.totalFills +
            Int64.ofNat (matchLevels isBuy taker volume (B.side !isBuy)).1.length }) := rfl

theorem marketOrder_of_nil {ls : List BookLevel}
    (h : matchLevels isBuy taker remaining (B.side !isBuy) = ([], ls)) :
    B.marketOrder isBuy remaining taker = ([], B.setSide (!isBuy) ls) := by
  rw [marketOrder_eq, h]
  cases isBuy <;> simp [setSide, lastPrice]

theorem marketOrder_done (h : ¬ 0 < remaining ∨ B.side (!isBuy) = []) :
    B.marketOrder isBuy remaining taker = ([], B) := by
  have hmatch : matchLevels isBuy taker remaining (B.side !isBuy) = ([], B.side !isBuy) := by
    rcases h with h | h
    · cases B.side (!isBuy) with
      | nil => rfl
      | cons lv ls => simp [matchLevels, h]
    · rw [h]
      rfl
  rw [marketOrder_of_nil hmatch, setSide_side]

theorem marketOrder_empty {p : Int64} {ls : List BookLevel} (hpos : 0 < remaining)
    (hside : B.side (!isBuy) = ⟨p, []⟩ :: ls) :
    B.marketOrder isBuy remaining taker =
      (B.setSide (!isBuy) ls).marketOrder isBuy remaining taker := by
  rw [marketOrder_eq, marketOrder_eq, side_setSide, hside]
  simp only [matchLevels, hpos, matchQueue, if_true, List.nil_append]
  cases isBuy <;> rfl

theorem min_ite (a b : Int64) : min a b = if a ≤ b then a else b := rfl

/-- A maker that survives a fill limited nothing: the taker is used up. -/
theorem min_of_survivor {v : Int64} (h : v - min remaining v ≠ 0) :
    min remaining v = remaining ∧ remaining < v := by
  rw [min_ite] at h ⊢
  split at h <;> grind

theorem remaining_of_survivor {v : Int64} (h : v - min remaining v ≠ 0) :
    remaining - min remaining v = 0 := by
  rw [(min_of_survivor h).1]
  grind

theorem matchLevels_round (isBuy : Bool) (taker : ParticipantID) (p : Int64) (o : RestingOrder)
    (q : List RestingOrder) (ls : List BookLevel) (hpos : 0 < remaining) :
    matchLevels isBuy taker remaining (⟨p, o :: q⟩ :: ls) =
      (fillOf isBuy taker p (min remaining o.volume) o ::
        (matchLevels isBuy taker (remaining - min remaining o.volume)
          (keepLevel p (afterFill o q (min remaining o.volume)) ++ ls)).1,
        (matchLevels isBuy taker (remaining - min remaining o.volume)
          (keepLevel p (afterFill o q (min remaining o.volume)) ++ ls)).2) := by
  by_cases hfull : o.volume - min remaining o.volume = 0
  · -- the maker leaves; matching goes on in its queue
    rw [afterFill, if_pos hfull]
    cases q with
    | nil => simp [matchLevels, matchQueue, hpos, hfull, keepLevel]
    | cons o' q =>
        by_cases hpos' : 0 < remaining - min remaining o.volume
        · simp only [matchLevels, hpos, if_true, keepLevel, reduceCtorEq, if_false,
            List.cons_append, List.nil_append, hpos']
          rw [matchQueue, if_pos hpos]
          simp only [hfull, if_true]
          split <;> simp
        · simp [matchLevels, matchQueue, hpos, hfull, keepLevel, hpos']
  · -- the taker is exhausted
    have hzero := remaining_of_survivor hfull
    rw [afterFill, if_neg hfull]
    simp [matchLevels, matchQueue, hpos, hfull, keepLevel, hzero]

/-- One round: a fill against the head of the best level, then the rest of
the order against the book that it leaves. -/
theorem marketOrder_round {p : Int64} {o : RestingOrder} {q : List RestingOrder}
    {ls : List BookLevel} (hpos : 0 < remaining)
    (hside : B.side (!isBuy) = ⟨p, o :: q⟩ :: ls) :
    B.marketOrder isBuy remaining taker =
      (fillOf isBuy taker p (min remaining o.volume) o ::
        ((B.fillHead isBuy p o q ls (min remaining o.volume)).marketOrder isBuy
          (remaining - min remaining o.volume) taker).1,
        ((B.fillHead isBuy p o q ls (min remaining o.volume)).marketOrder isBuy
          (remaining - min remaining o.volume) taker).2) := by
  have hround := matchLevels_round isBuy taker p o q ls hpos
  have hhead : (B.fillHead isBuy p o q ls (min remaining o.volume)).side (!isBuy) =
      keepLevel p (afterFill o q (min remaining o.volume)) ++ ls := by
    cases isBuy <;> rfl
  rw [marketOrder_eq, marketOrder_eq, hhead, hside, hround]
  have hcount : ∀ n : Nat, Int64.ofNat (n + 1) = Int64.ofNat n + 1 := fun n => by
    rw [Int64.ofNat_add]
    rfl
  refine Prod.ext rfl ?_
  simp only [lastPrice_cons, List.length_cons, hcount, fillHead]
  cases isBuy <;> simp only [setSide, if_true, if_false, Bool.not_true, Bool.not_false,
    Bool.false_eq_true, fillOf, Book.mk.injEq, true_and] <;> grind

@[simp] theorem fillHead_side (B : Book) (isBuy : Bool) (p : Int64) (o : RestingOrder)
    (q : List RestingOrder) (ls : List BookLevel) (fillVol : Int64) :
    (B.fillHead isBuy p o q ls fillVol).side (!isBuy) =
      keepLevel p (afterFill o q fillVol) ++ ls := by
  cases isBuy <;> rfl

/-- What a matching loop can still do to a side: fill an order or erase a level. -/
def work (ls : List BookLevel) : Nat := (priority ls).length + ls.length

@[simp] theorem work_cons (lv : BookLevel) (ls : List BookLevel) :
    work (lv :: ls) = lv.queue.length + 1 + work ls := by
  simp only [work, priority, List.flatMap_cons, List.length_append, List.length_cons]
  omega

theorem work_round (p : Int64) {o : RestingOrder} (q : List RestingOrder)
    (ls : List BookLevel) (hpos : 0 < remaining - min remaining o.volume) :
    work (keepLevel p (afterFill o q (min remaining o.volume)) ++ ls) <
      work (⟨p, o :: q⟩ :: ls) := by
  have hfull : o.volume - min remaining o.volume = 0 := by
    by_contra hne
    rw [remaining_of_survivor hne] at hpos
    exact absurd hpos (by decide)
  rw [afterFill, if_pos hfull, keepLevel]
  split
  · simp
  · simp

end Book

/-! ## One round of the loop -/

theorem Layout.entries_congr {L : Layout} {b : Bool} {gs : List GLevel}
    (nodes : UInt32 → LimitOrder) {nodes' : UInt32 → LimitOrder}
    (hq : ∀ i p, Layout.Queued gs i p ↔ Layout.Queued (L.side b) i p)
    (hids : ∀ i, (nodes' i).orderId = (nodes i).orderId) :
    (L.setSide b gs).entries nodes' = L.entries nodes := by
  have hside : ∀ c i p, Layout.Queued ((L.setSide b gs).side c) i p ↔
      Layout.Queued (L.side c) i p := by
    intro c i p
    by_cases hc : c = b
    · subst hc
      rw [L.side_setSide, hq]
    · obtain rfl : c = !b := by cases b <;> cases c <;> simp_all
      rw [L.side_setSide_not]
  ext e
  simp only [Layout.entries, Set.mem_ofPred_eq, hside, hids]

namespace Rep

variable {lob : PersistentLOB} {L : Layout} {g : GLevel} {post : List GLevel}

/-- A failed `add_limit` leaves an empty level; the loop erases it when it is
in front. -/
theorem dropEmpty (h : Rep lob L) {b : Bool} (hside : L.side b = g :: post)
    (hempty : g.chain = []) :
    Rep (lob.setSide b ((lob.side b).erase 0)) (L.setSide b post) ∧
      (L.setSide b post).view (lob.setSide b ((lob.side b).erase 0)) =
        (L.view lob).setSide b (post.map (GLevel.view lob.pool.nodes)) := by
  have hsplit : L.side b = [] ++ [g] ++ post := hside
  have hslots : Layout.slots [g] = [] := by simp [hempty]
  constructor
  · refine h.splice [] hsplit ?_ (by simp) (by simp) (by simp) ?_ ?_ ?_ (by simp)
      (by simp) ?_ ?_ (by simpa using h.blank)
    · rw [PersistentLOB.side_setSide, h.sides b, hside]
      simp [LOBSide.erase]
    · exact List.Pairwise.sublist (by simp [hside]) (h.sorted b)
    · have := h.room b
      rw [hside] at this
      simp only [List.length_append, List.length_cons, List.length_nil] at this ⊢
      omega
    · rw [hslots, PersistentLOB.setSide_pool, Layout.slots_nil]
    · have hd := ((Layout.indices_split hsplit).map
        fun i => (lob.pool.nodes i).orderId).nodup_iff.mp h.distinct
      rw [hslots] at hd
      simpa using hd
    · rw [PersistentLOB.setSide_orderMap, Layout.entries_congr lob.pool.nodes ?_
        (by simp)]
      · exact h.map
      · intro i p
        simp [hside, Layout.Queued, hempty]
  · have := Layout.view_splice lob (lob.setSide b ((lob.side b).erase 0)) [] hsplit (by simp)
    simp only [List.append_nil, List.nil_append] at this
    rw [this]
    cases b <;> rfl

variable {t : UInt32} {c : List UInt32}

/-- A new node at the head of a queue changes nothing behind it, and no other queue. -/
theorem update_head (h : Rep lob L) {b : Bool} (hg : g ∈ L.side b) (hchain : g.chain = t :: c)
    (node : LimitOrder) :
    (∀ i, i ∉ g.chain → Function.update lob.pool.nodes t node i = lob.pool.nodes i) ∧
      ∀ i ∈ c, Function.update lob.pool.nodes t node i = lob.pool.nodes i := by
  have hnd := h.chain_nodup hg
  rw [hchain] at hnd
  constructor
  · intro i hi
    refine Function.update_of_ne ?_ _ _
    rintro rfl
    exact hi (by rw [hchain]; simp)
  · intro i hi
    refine Function.update_of_ne ?_ _ _
    rintro rfl
    exact (List.nodup_cons.mp hnd).1 hi

/-- A new volume changes neither the ids nor the links. -/
theorem update_volume (nodes : UInt32 → LimitOrder) (t : UInt32) (v : Int64) (i : UInt32) :
    (Function.update nodes t { nodes t with volume := v } i).orderId = (nodes i).orderId ∧
      (Function.update nodes t { nodes t with volume := v } i).next = (nodes i).next := by
  by_cases hi : i = t
  · subst hi
    rw [Function.update_self]
    exact ⟨rfl, rfl⟩
  · rw [Function.update_of_ne hi]
    exact ⟨rfl, rfl⟩

theorem head_eq (h : Rep lob L) {b : Bool} (hg : g ∈ L.side b) (hchain : g.chain = t :: c) :
    g.level.head = t := by
  have hpath := (h.ok b g hg).path
  rw [hchain] at hpath
  exact hpath.1

theorem popHead (h : Rep lob L) {b : Bool} (hside : L.side b = g :: post)
    (hchain : g.chain = t :: c) (lob' : PersistentLOB) {left : PriceLevel} {v fillVol : Int64}
    (hleft : left = { g.level with
      head := (lob.pool.nodes t).next
      tail := if g.level.tail = t then nullIdx else g.level.tail
      totalVolume := g.level.totalVolume - fillVol
      count := g.level.count - 1 })
    (hv : (lob.pool.nodes t).volume - fillVol = 0)
    (hnodes : lob'.pool.nodes =
      Function.update lob.pool.nodes t { lob.pool.nodes t with volume := v })
    (hfree : lob'.pool.freeStack = t :: lob.pool.freeStack)
    (hs : lob'.side b = if left.count = 0 then (lob.side b).erase 0
      else (lob.side b).setLevel 0 left)
    (ho : lob'.side (!b) = lob.side (!b))
    (hm : lob'.orderMap = PersistentLOB.mapErase lob.orderMap (lob.pool.nodes t).orderId)
    (hn : lob'.nextOrderId = lob.nextOrderId) :
    Rep lob' (L.setSide b (remnant left c ++ post)) := by
  have hg : g ∈ L.side b := by rw [hside]; simp
  have hok := h.ok b g hg
  have hnd := h.chain_nodup hg
  rw [hchain] at hnd
  have herase : g.chain.erase t = c := by rw [hchain, List.erase_cons_head]
  obtain ⟨hframe, hkeep⟩ := h.update_head hg hchain { lob.pool.nodes t with volume := v }
  rw [← hnodes] at hframe hkeep
  -- the rest of the queue is as it was; only the fields of the level change
  have hokLeft : GLevel.Ok lob'.pool.nodes ⟨left, c⟩ := by
    have hold : GLevel.Ok lob.pool.nodes ⟨left, c⟩ := by
      refine ⟨?_, ?_, ?_, ?_, ?_⟩
      · have hpath := hok.path
        rw [hchain] at hpath
        rw [hleft]
        exact hpath.2.2
      · rw [hleft]
        simp only [hok.tail, hchain]
        exact (lastOr_tail hnd).symm
      · rw [hleft]
        simp only [hok.count, hchain, List.length_cons]
        omega
      · rw [hleft]
        simp only [hok.total, hchain, List.map_cons, List.sum_cons]
        grind
      · have hids := hok.ids
        rw [hchain] at hids
        exact (List.pairwise_cons.mp hids).2
    exact hold.congr hkeep
  have hside' : L.side b = [] ++ g :: post := hside
  have hids : ∀ i, (lob'.pool.nodes i).orderId = (lob.pool.nodes i).orderId := by
    intro i
    rw [hnodes]
    exact (update_volume ..).1
  have hrep := h.remove hside' (by rw [hchain]; exact List.mem_cons_self) hids hframe hfree
    (by rwa [herase]) (by rw [hleft]) hs ho hm hn
  rw [herase] at hrep
  exact hrep

/-- The head of the best queue is filled in part and keeps its place. -/
theorem revalueHead (h : Rep lob L) {b : Bool} (hside : L.side b = g :: post)
    (hchain : g.chain = t :: c) (lob' : PersistentLOB) {fillVol : Int64}
    (hnodes : lob'.pool.nodes = Function.update lob.pool.nodes t
      { lob.pool.nodes t with volume := (lob.pool.nodes t).volume - fillVol })
    (hfree : lob'.pool.freeStack = lob.pool.freeStack)
    (hs : lob'.side b = (lob.side b).setLevel 0
      { g.level with totalVolume := g.level.totalVolume - fillVol })
    (ho : lob'.side (!b) = lob.side (!b)) (hm : lob'.orderMap = lob.orderMap)
    (hn : lob'.nextOrderId = lob.nextOrderId) :
    Rep lob' (L.setSide b
      (⟨{ g.level with totalVolume := g.level.totalVolume - fillVol }, g.chain⟩ :: post)) := by
  have hsplit : L.side b = [] ++ [g] ++ post := hside
  have hg : g ∈ L.side b := by rw [hside]; simp
  have hok := h.ok b g hg
  have hids : ∀ i, (lob'.pool.nodes i).orderId = (lob.pool.nodes i).orderId := by
    intro i
    rw [hnodes]
    exact (update_volume ..).1
  have hnext : ∀ i, (lob'.pool.nodes i).next = (lob.pool.nodes i).next := by
    intro i
    rw [hnodes]
    exact (update_volume ..).2
  obtain ⟨hframe, hkeep⟩ := h.update_head hg hchain
    { lob.pool.nodes t with volume := (lob.pool.nodes t).volume - fillVol }
  rw [← hnodes] at hframe hkeep
  refine h.splice [⟨{ g.level with
      totalVolume := g.level.totalVolume - fillVol }, g.chain⟩] hsplit ?_ ho ?_ ?_ ?_ ?_ ?_
    (by rw [hn]) ?_ ?_ ?_ (by rw [hm]; exact h.blank)
  · rw [hs, h.sides b, hside]
    simp [LOBSide.setLevel]
  · intro i hi
    exact hframe i fun hc => h.not_mem_rest hsplit hi (by simpa using hc)
  · intro g' hg'
    rw [List.mem_singleton] at hg'
    subst hg'
    -- the links and the ids stay; the total falls with the volume
    refine ⟨hok.path.congr fun i _ => hnext i, hok.tail, hok.count, ?_, ?_⟩
    · have hsum : (c.map fun i => (lob'.pool.nodes i).volume).sum =
          (c.map fun i => (lob.pool.nodes i).volume).sum :=
        congrArg List.sum (List.map_congr_left fun i hi => by rw [hkeep i hi])
      have ht : (lob'.pool.nodes t).volume = (lob.pool.nodes t).volume - fillVol := by
        rw [hnodes, Function.update_self]
      simp only [hok.total, hchain, List.map_cons, List.sum_cons, hsum, ht]
      grind
    · simp only [hids]
      exact hok.ids
  · have hsorted := h.sorted b
    rw [hside] at hsorted
    simpa using hsorted
  · have hroom := h.room b
    rw [hside] at hroom
    simpa using hroom
  · rw [hfree]
    simp
  · intro i hi
    rw [hids, hn]
    exact h.issued i (Layout.mem_indices_of hg (by simpa using hi))
  · have hd := ((Layout.indices_split hsplit).map
      fun i => (lob.pool.nodes i).orderId).nodup_iff.mp h.distinct
    simp only [hids]
    simpa using hd
  · rw [hm, Layout.entries_congr lob.pool.nodes ?_ hids]
    · exact h.map
    · intro i p
      simp [hside, Layout.Queued]

theorem view_front (h : Rep lob L) (lob' : PersistentLOB) {b : Bool}
    (hside : L.side b = g :: post) (mid' : List GLevel)
    (hframe : ∀ i, i ∉ g.chain → lob'.pool.nodes i = lob.pool.nodes i)
    (hn : lob'.nextOrderId = lob.nextOrderId) :
    (L.setSide b (mid' ++ post)).view lob' =
      { (L.view lob).setSide b (mid'.map (GLevel.view lob'.pool.nodes) ++
          post.map (GLevel.view lob.pool.nodes)) with
        lastTradeFp := lob'.lastTradeFp
        totalFills := lob'.totalFills } := by
  have hsplit : L.side b = [] ++ [g] ++ post := hside
  have := Layout.view_splice lob lob' mid' hsplit ?_
  · simp only [List.nil_append, List.map_nil] at this
    rw [this, hn]
    cases b <;> rfl
  · intro i hi
    refine hframe i fun hc => h.not_mem_rest hsplit hi ?_
    simpa using hc

section MatchHead

variable {isBuy : Bool} {remaining : Int64}

/-- A filled head leaves its level, and an empty level leaves the side. -/
theorem view_popped (nodes : UInt32 → LimitOrder) (lv : PriceLevel) (o : RestingOrder)
    {fillVol : Int64} (hzero : o.volume - fillVol = 0) :
    (remnant lv c).map (GLevel.view nodes) = Book.keepLevel lv.priceFp
      (Book.afterFill o (c.map fun i => (nodes i).resting) fillVol) := by
  rw [Book.afterFill, if_pos hzero]
  unfold remnant Book.keepLevel
  cases c <;> rfl

/-- A head that is filled in part keeps its place, with what is left of it. -/
theorem view_revalued (nodes : UInt32 → LimitOrder) (lv : PriceLevel) (o : RestingOrder)
    {fillVol : Int64} (hleft : ¬ o.volume - fillVol = 0)
    (ht : (nodes t).resting = { o with volume := o.volume - fillVol }) :
    [(⟨lv, t :: c⟩ : GLevel)].map (GLevel.view nodes) = Book.keepLevel lv.priceFp
      (Book.afterFill o (c.map fun i => (nodes i).resting) fillVol) := by
  rw [Book.afterFill, if_neg hleft, Book.keepLevel, if_neg (by simp)]
  simp only [List.map_cons, List.map_nil, GLevel.view, ht]

theorem matchHead_filled (h : Rep lob L) (hside : L.side (!isBuy) = g :: post)
    (hchain : g.chain = t :: c) (taker : ParticipantID)
    (hzero : (lob.pool.nodes t).volume - min remaining (lob.pool.nodes t).volume = 0) :
    let o := (lob.pool.nodes t).resting
    ∃ lob' L', lob.matchHead isBuy taker remaining g.level =
        .ok (Book.fillOf isBuy taker g.level.priceFp (min remaining o.volume) o,
          remaining - min remaining o.volume, lob') ∧
      Rep lob' L' ∧
      L'.view lob' = (L.view lob).fillHead isBuy g.level.priceFp o
        (c.map fun i => (lob.pool.nodes i).resting)
        (post.map (GLevel.view lob.pool.nodes)) (min remaining o.volume) := by
  intro o
  have hg : g ∈ L.side (!isBuy) := by rw [hside]; simp
  have hti : t ∈ L.indices := Layout.mem_indices_of hg (by rw [hchain]; simp)
  have hlt := h.lt_of_mem (List.mem_append_right _ hti)
  obtain rfl := h.head_eq hg hchain
  let node := { lob.pool.nodes g.level.head with
    volume := o.volume - min remaining o.volume }
  obtain ⟨hframe, hkeep⟩ := h.update_head hg hchain node
  let left : PriceLevel := { g.level with
    head := (lob.pool.nodes g.level.head).next
    tail := if g.level.tail = g.level.head then nullIdx else g.level.tail
    totalVolume := g.level.totalVolume - min remaining o.volume
    count := g.level.count - 1 }
  let side' := if left.count = 0 then (lob.side !isBuy).erase 0
    else (lob.side !isBuy).setLevel 0 left
  let lob' : PersistentLOB := { lob.setSide (!isBuy) side' with
    lastTradeFp := g.level.priceFp
    totalFills := lob.totalFills + 1
    pool := ⟨Function.update lob.pool.nodes g.level.head node,
      g.level.head :: lob.pool.freeStack⟩
    orderMap := PersistentLOB.mapErase lob.orderMap (lob.pool.nodes g.level.head).orderId }
  refine ⟨lob', L.setSide (!isBuy) (remnant left c ++ post), ?_, ?_, ?_⟩
  · simp only [PersistentLOB.matchHead, h.get hti, ok_bind, OrderPool.set, if_pos hlt,
      if_pos hzero, OrderPool.release, if_neg (Rep.ne_null_of_lt hlt),
      if_pos (h.free_room hti), pure_ok]
    cases isBuy <;> rfl
  · refine h.popHead hside hchain lob' rfl hzero rfl rfl ?_ ?_ rfl ?_ <;>
      cases isBuy <;> rfl
  · rw [h.view_front lob' hside _ hframe (by cases isBuy <;> rfl),
      view_popped lob'.pool.nodes left o hzero,
      List.map_congr_left fun i hi => congrArg LimitOrder.resting (hkeep i hi)]
    rfl

theorem matchHead_partial (h : Rep lob L) (hside : L.side (!isBuy) = g :: post)
    (hchain : g.chain = t :: c) (taker : ParticipantID)
    (hleft : ¬ (lob.pool.nodes t).volume - min remaining (lob.pool.nodes t).volume = 0) :
    let o := (lob.pool.nodes t).resting
    ∃ lob' L', lob.matchHead isBuy taker remaining g.level =
        .ok (Book.fillOf isBuy taker g.level.priceFp (min remaining o.volume) o,
          remaining - min remaining o.volume, lob') ∧
      Rep lob' L' ∧
      L'.view lob' = (L.view lob).fillHead isBuy g.level.priceFp o
        (c.map fun i => (lob.pool.nodes i).resting)
        (post.map (GLevel.view lob.pool.nodes)) (min remaining o.volume) := by
  intro o
  have hg : g ∈ L.side (!isBuy) := by rw [hside]; simp
  have hti : t ∈ L.indices := Layout.mem_indices_of hg (by rw [hchain]; simp)
  have hlt := h.lt_of_mem (List.mem_append_right _ hti)
  obtain rfl := h.head_eq hg hchain
  let node := { lob.pool.nodes g.level.head with
    volume := o.volume - min remaining o.volume }
  obtain ⟨hframe, hkeep⟩ := h.update_head hg hchain node
  let lv : PriceLevel := { g.level with
    totalVolume := g.level.totalVolume - min remaining o.volume }
  let lob' : PersistentLOB := { lob.setSide (!isBuy) ((lob.side !isBuy).setLevel 0 lv) with
    lastTradeFp := g.level.priceFp
    totalFills := lob.totalFills + 1
    pool := ⟨Function.update lob.pool.nodes g.level.head node, lob.pool.freeStack⟩ }
  refine ⟨lob', L.setSide (!isBuy) (⟨lv, g.chain⟩ :: post), ?_, ?_, ?_⟩
  · simp only [PersistentLOB.matchHead, h.get hti, ok_bind, OrderPool.set, if_pos hlt,
      if_neg hleft, pure_ok]
    cases isBuy <;> rfl
  · refine h.revalueHead hside hchain lob' rfl rfl ?_ ?_ ?_ ?_ <;>
      cases isBuy <;> rfl
  · have hview := h.view_front lob' hside [⟨lv, g.chain⟩] hframe (by cases isBuy <;> rfl)
    have hnew : (lob'.pool.nodes g.level.head).resting =
        { o with volume := o.volume - min remaining o.volume } := by
      rw [show lob'.pool.nodes g.level.head = node from Function.update_self ..]
      rfl
    rw [List.singleton_append] at hview
    rw [hview, hchain, view_revalued lob'.pool.nodes lv o hleft hnew,
      List.map_congr_left fun i hi => congrArg LimitOrder.resting (hkeep i hi)]
    rfl

theorem matchHead (h : Rep lob L) (hside : L.side (!isBuy) = g :: post)
    (hchain : g.chain = t :: c) (taker : ParticipantID) (remaining : Int64) :
    let o := (lob.pool.nodes t).resting
    ∃ lob' L', lob.matchHead isBuy taker remaining g.level =
        .ok (Book.fillOf isBuy taker g.level.priceFp (min remaining o.volume) o,
          remaining - min remaining o.volume, lob') ∧
      Rep lob' L' ∧
      L'.view lob' = (L.view lob).fillHead isBuy g.level.priceFp o
        (c.map fun i => (lob.pool.nodes i).resting)
        (post.map (GLevel.view lob.pool.nodes)) (min remaining o.volume) := by
  by_cases hzero : (lob.pool.nodes t).volume - min remaining (lob.pool.nodes t).volume = 0
  · exact h.matchHead_filled hside hchain taker hzero
  · exact h.matchHead_partial hside hchain taker hzero

end MatchHead

/-! ## The loop -/

theorem matchLoop {isBuy : Bool} {taker : ParticipantID} : ∀ {fuel : Nat}
    {lob : PersistentLOB} {L : Layout} {remaining : Int64}, Rep lob L → 0 < fuel →
    (0 < remaining → Book.work ((L.view lob).side !isBuy) < fuel) →
    ∃ lob' L', PersistentLOB.matchLoop isBuy taker fuel lob remaining =
        .ok (((L.view lob).marketOrder isBuy remaining taker).1, lob') ∧
      Rep lob' L' ∧ L'.view lob' = ((L.view lob).marketOrder isBuy remaining taker).2
  | 0, _, _, _, _, hfuel, _ => absurd hfuel (Nat.lt_irrefl 0)
  | fuel + 1, lob, L, remaining, h, _, hwork => by
      rw [PersistentLOB.matchLoop]
      by_cases hpos : 0 < remaining
      · have hw := hwork hpos
        rw [if_pos hpos, h.mem_side_levels]
        rw [Layout.view_side] at hw
        cases hside : L.side (!isBuy) with
        | nil =>
            rw [Book.marketOrder_done (Or.inr (by rw [Layout.view_side, hside]; rfl))]
            exact ⟨lob, L, rfl, h, rfl⟩
        | cons g post =>
            rw [hside, List.map_cons, Book.work_cons] at hw
            have hok := h.ok (!isBuy) g (by rw [hside]; simp)
            have hview : (L.view lob).side (!isBuy) = g.view lob.pool.nodes ::
                post.map (GLevel.view lob.pool.nodes) := by
              rw [Layout.view_side, hside, List.map_cons]
            simp only [List.map_cons]
            cases hchain : g.chain with
            | nil =>
                rw [if_pos (hok.path.head_eq_null_iff.mpr hchain)]
                have hfront : g.view lob.pool.nodes = ⟨g.level.priceFp, []⟩ := by
                  simp [GLevel.view, hchain]
                rw [hfront] at hview
                obtain ⟨hrep, hv⟩ := h.dropEmpty hside hchain
                rw [Book.marketOrder_empty hpos hview, ← hv]
                refine matchLoop hrep (by omega) fun _ => ?_
                rw [hv, Book.side_setSide]
                omega
            | cons t c =>
                have hne : ¬ g.level.head = nullIdx := by
                  rw [hok.path.head_eq_null_iff, hchain]
                  exact List.cons_ne_nil t c
                rw [if_neg hne]
                obtain ⟨lob₁, L₁, hstep, hrep, hv⟩ := h.matchHead hside hchain taker remaining
                have hfront : g.view lob.pool.nodes = ⟨g.level.priceFp,
                    (lob.pool.nodes t).resting ::
                      c.map fun i => (lob.pool.nodes i).resting⟩ := by
                  simp [GLevel.view, hchain]
                rw [hfront] at hview hw
                have hfuel : 0 < fuel := by
                  simp only [List.length_cons] at hw
                  omega
                obtain ⟨lob₂, L₂, hrest, hrep₂, hv₂⟩ := @matchLoop isBuy taker fuel
                  lob₁ L₁ (remaining - min remaining (lob.pool.nodes t).resting.volume) hrep
                  hfuel (by
                  intro hpos'
                  have hlt := Book.work_round g.level.priceFp
                    (c.map fun i => (lob.pool.nodes i).resting)
                    (post.map (GLevel.view lob.pool.nodes)) hpos'
                  rw [Book.work_cons] at hlt
                  rw [hv, Book.fillHead_side]
                  omega)
                rw [Book.marketOrder_round hpos hview]
                rw [hv] at hrest hv₂
                refine ⟨lob₂, L₂, ?_, hrep₂, hv₂⟩
                simp only [hstep, ok_bind, hrest, pure_ok]
      · rw [if_neg hpos, Book.marketOrder_done (Or.inl hpos)]
        exact ⟨lob, L, rfl, h, rfl⟩

/-- `market_order` is the naive market order, and its loop ends. -/
theorem marketOrder (h : Rep lob L) (isBuy : Bool) (volume : Int64) (taker : ParticipantID) :
    ∃ lob' L', lob.marketOrder isBuy volume taker =
        .ok (((L.view lob).marketOrder isBuy volume taker).1, lob') ∧
      Rep lob' L' ∧ L'.view lob' = ((L.view lob).marketOrder isBuy volume taker).2 := by
  refine matchLoop h (by decide) fun _ => ?_
  have hroom := h.room (!isBuy)
  have hpool := h.length_partition
  have hperm := (L.indices_perm !isBuy).length_eq
  rw [List.length_append] at hperm
  rw [Layout.view_side, Book.work, Layout.priority_view, List.length_map, List.length_map]
  omega

end Rep

end VidhiArena.GameMaster
