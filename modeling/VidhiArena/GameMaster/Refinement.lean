import VidhiArena.GameMaster.AddLimit

/-!
# The flat book refines the naive book

Runs of the three mutating calls, from `init()`. Every run that the flat book
survives is the run of the naive book with the two capacity limits
(`run_bounded`); it survives every run in which nobody cancels the id that
marks empty map slots (`run_defined`); and as long as no limit is hit, the
naive book needs no limits (`run_unbounded`).

All three need fewer than `2^64 - 1` calls of `add_limit`: the next id would be
the empty marker itself.
-/

namespace VidhiArena.GameMaster

open VidhiArena.Foundation

/-! ## Calls and runs -/

inductive BookOp where
  | addLimit (isBid : Bool) (priceFp volume : Int64) (participant : ParticipantID)
  | cancel (orderId : UInt64)
  | marketOrder (isBuy : Bool) (volume : Int64) (taker : ParticipantID)
deriving DecidableEq

inductive Reply where
  | orderId (id : UInt64)
  | cancelled (ok : Bool)
  | fills (fs : List MatchedFill)
deriving DecidableEq

def Reply.matched : Reply → List MatchedFill
  | fills fs => fs
  | _ => []

namespace BookOp

def isAdd : BookOp → Bool
  | addLimit .. => true
  | _ => false

def adds (ops : List BookOp) : Nat := ops.countP isAdd

end BookOp

def PersistentLOB.apply (lob : PersistentLOB) : BookOp → Except Fault (Reply × PersistentLOB)
  | .addLimit isBid priceFp volume participant => do
      let (id, lob) ← lob.addLimit isBid priceFp volume participant
      return (.orderId id, lob)
  | .cancel orderId => do
      let (ok, lob) ← lob.cancel orderId
      return (.cancelled ok, lob)
  | .marketOrder isBuy volume taker => do
      let (fs, lob) ← lob.marketOrder isBuy volume taker
      return (.fills fs, lob)

/-- A run of the flat book from `init()`. -/
def PersistentLOB.run (ops : List BookOp) : Except Fault (List Reply × PersistentLOB) :=
  runFrom PersistentLOB.apply PersistentLOB.init ops

namespace Book

def apply (B : Book) : BookOp → Reply × Book
  | .addLimit isBid priceFp volume participant =>
      let (id, B) := B.addLimit isBid priceFp volume participant
      (.orderId id, B)
  | .cancel orderId =>
      let (ok, B) := B.cancel orderId
      (.cancelled ok, B)
  | .marketOrder isBuy volume taker =>
      let (fs, B) := B.marketOrder isBuy volume taker
      (.fills fs, B)

/-- The same with the capacity limits of the flat book. -/
def applyBounded (B : Book) : BookOp → Reply × Book
  | .addLimit isBid priceFp volume participant =>
      let (id, B) := B.addLimitBounded isBid priceFp volume participant
      (.orderId id, B)
  | op => B.apply op

def run (ops : List BookOp) : List Reply × Book := traceFrom apply empty ops

def runBounded (ops : List BookOp) : List Reply × Book := traceFrom applyBounded empty ops

/-- No capacity limit of the flat book stands in the way of `op`. -/
def Uncapped (B : Book) : BookOp → Prop
  | .addLimit isBid priceFp _ _ => ¬ B.TableFull isBid priceFp ∧ ¬ B.PoolFull
  | .cancel _ => True
  | .marketOrder .. => True

instance : ∀ (B : Book) (op : BookOp), Decidable (B.Uncapped op)
  | _, .addLimit .. => inferInstanceAs (Decidable (_ ∧ _))
  | _, .cancel _ => inferInstanceAs (Decidable True)
  | _, .marketOrder .. => inferInstanceAs (Decidable True)

end Book

/-! ## The book a memory holds -/

/-- Follow the links from `i`, at most `n` of them. -/
def walk (nodes : UInt32 → LimitOrder) : Nat → UInt32 → List UInt32
  | 0, _ => []
  | n + 1, i => if i = nullIdx then [] else i :: walk nodes n (nodes i).next

theorem walk_eq {nodes : UInt32 → LimitOrder} : ∀ {n : Nat} {i : UInt32} {c : List UInt32},
    Chain (fun i => (nodes i).next) nullIdx i c → c.length ≤ n → walk nodes n i = c
  | 0, _, [], _, _ => rfl
  | n + 1, _, [], hc, _ => if_pos hc
  | n + 1, _, j :: c, ⟨rfl, hne, hc⟩, hlen => by
      rw [walk, if_neg hne, walk_eq hc (Nat.le_of_succ_le_succ hlen)]

namespace PersistentLOB

/-- The slab indices on the chain of a level. -/
def queue (lob : PersistentLOB) (lv : PriceLevel) : List UInt32 :=
  walk lob.pool.nodes orderPoolSize lv.head

def viewLevel (lob : PersistentLOB) (lv : PriceLevel) : BookLevel :=
  ⟨lv.priceFp, (lob.queue lv).map fun i => (lob.pool.nodes i).resting⟩

/-- The naive book, read off the memory. -/
def view (lob : PersistentLOB) : Book where
  bids := lob.bids.levels.map lob.viewLevel
  asks := lob.asks.levels.map lob.viewLevel
  nextOrderId := lob.nextOrderId
  lastTradeFp := lob.lastTradeFp
  totalFills := lob.totalFills

end PersistentLOB

namespace Rep

variable {lob : PersistentLOB} {L : Layout}

theorem chain_length_le (h : Rep lob L) {b : Bool} {g : GLevel} (hg : g ∈ L.side b) :
    g.chain.length ≤ orderPoolSize := by
  have hle : g.chain.length ≤ L.indices.length :=
    ((h.chain_nodup hg).subperm fun i hi => Layout.mem_indices_of hg hi).length_le
  have := h.length_partition
  omega

theorem queue_eq (h : Rep lob L) {b : Bool} {g : GLevel} (hg : g ∈ L.side b) :
    lob.queue g.level = g.chain :=
  walk_eq (h.ok b g hg).path (h.chain_length_le hg)

theorem viewLevel_eq (h : Rep lob L) (b : Bool) :
    (lob.side b).levels.map lob.viewLevel = (L.side b).map (GLevel.view lob.pool.nodes) := by
  rw [h.mem_side_levels, List.map_map]
  refine List.map_congr_left fun g hg => ?_
  simp only [Function.comp_apply, PersistentLOB.viewLevel, h.queue_eq hg]
  rfl

theorem view_eq (h : Rep lob L) : lob.view = L.view lob :=
  congrArg₂ (fun bids asks => Book.mk bids asks lob.nextOrderId lob.lastTradeFp lob.totalFills)
    (h.viewLevel_eq true) (h.viewLevel_eq false)

end Rep

/-! ## The simulation relation -/

/-- The memory is laid out properly and holds `B`. -/
def Refines (lob : PersistentLOB) (B : Book) : Prop := ∃ L, Rep lob L ∧ L.view lob = B

theorem Refines.view_eq {lob : PersistentLOB} {B : Book} (h : Refines lob B) :
    lob.view = B := by
  obtain ⟨L, hrep, hview⟩ := h
  rw [hrep.view_eq, hview]

theorem Refines.next_eq {lob : PersistentLOB} {B : Book} (h : Refines lob B) :
    lob.nextOrderId = B.nextOrderId :=
  congrArg Book.nextOrderId h.view_eq

theorem init_refines : Refines PersistentLOB.init Book.empty := by
  refine ⟨⟨[], []⟩, ⟨?_, ?_, ?_, ?_, ?_, by decide, ?_, List.nodup_nil, ?_, fun _ _ => rfl⟩, rfl⟩
  · intro b
    cases b <;> rfl
  · intro b g hg
    cases b <;> exact absurd hg List.not_mem_nil
  · intro b
    cases b <;> exact List.Pairwise.nil
  · intro b
    cases b <;> exact Nat.zero_le _
  · simp [Layout.indices, PersistentLOB.init, OrderPool.init]
  · intro i hi
    exact absurd hi List.not_mem_nil
  · have hnone : (⟨[], []⟩ : Layout).entries PersistentLOB.init.pool.nodes = ∅ := by
      ext e
      simp only [Layout.entries, Set.mem_ofPred_eq, Set.mem_empty_iff_false, iff_false, not_and]
      rintro ⟨g, hg, _⟩
      cases hb : e.isBid <;> rw [hb] at hg <;> exact absurd hg List.not_mem_nil
    rw [hnone]
    exact Probing.represents_empty fun _ => rfl

/-- What a call must respect for the simulation: the id counter has not reached
the empty marker, and the marker itself is not cancelled. -/
def BookOp.Proper (B : Book) : BookOp → Prop
  | .addLimit .. => B.nextOrderId ≠ emptyKey
  | .cancel orderId => orderId ≠ emptyKey
  | .marketOrder .. => True

theorem Refines.apply {lob : PersistentLOB} {B : Book} (h : Refines lob B) {op : BookOp}
    (hop : op.Proper B) :
    ∃ lob', lob.apply op = .ok ((B.applyBounded op).1, lob') ∧
      Refines lob' (B.applyBounded op).2 := by
  obtain ⟨L, hrep, rfl⟩ := h
  cases op with
  | addLimit isBid priceFp volume participant =>
      obtain ⟨lob', L', hcall, hrep', hview⟩ :=
        hrep.addLimit hop isBid priceFp volume participant
      refine ⟨lob', ?_, L', hrep', hview⟩
      simp only [PersistentLOB.apply, hcall, ok_bind, pure_ok]
      rfl
  | cancel orderId =>
      obtain ⟨lob', L', hcall, hrep', hview⟩ := hrep.cancel hop
      refine ⟨lob', ?_, L', hrep', hview⟩
      simp only [PersistentLOB.apply, hcall, ok_bind, pure_ok]
      rfl
  | marketOrder isBuy volume taker =>
      obtain ⟨lob', L', hcall, hrep', hview⟩ := hrep.marketOrder isBuy volume taker
      refine ⟨lob', ?_, L', hrep', hview⟩
      simp only [PersistentLOB.apply, hcall, ok_bind, pure_ok]
      rfl

/-! ## Runs -/

theorem Book.applyBounded_nextOrderId (B : Book) (op : BookOp) :
    (B.applyBounded op).2.nextOrderId = B.nextOrderId ∨
      op.isAdd = true ∧ (B.applyBounded op).2.nextOrderId = B.nextOrderId + 1 := by
  cases op with
  | addLimit isBid priceFp volume participant =>
      simp only [applyBounded, addLimitBounded]
      split
      · exact Or.inl rfl
      · split
        · left
          cases isBid <;> rfl
        · exact Or.inr ⟨rfl, rfl⟩
  | cancel orderId =>
      left
      simp only [applyBounded, apply, cancel]
      split <;> rfl
  | marketOrder isBuy volume taker =>
      left
      cases isBuy <;> rfl

theorem Book.applyBounded_counter (B : Book) (op : BookOp) {n : Nat}
    (h : B.nextOrderId.toNat + BookOp.adds [op] + n < 2 ^ 64) :
    (B.applyBounded op).2.nextOrderId.toNat + n < 2 ^ 64 := by
  rcases B.applyBounded_nextOrderId op with heq | ⟨hadd, heq⟩
  · rw [heq]
    omega
  · rw [heq, UInt64.toNat_add, UInt64.toNat_one]
    simp only [BookOp.adds, List.countP_cons, hadd, List.countP_nil, if_true] at h
    omega

theorem BookOp.adds_cons (op : BookOp) (ops : List BookOp) :
    adds (op :: ops) = adds [op] + adds ops := by
  simp only [adds, List.countP_cons, List.countP_nil]
  omega

theorem BookOp.proper_of_counter {B : Book} {op : BookOp} {n : Nat}
    (h : B.nextOrderId.toNat + adds [op] + n < 2 ^ 64) (hop : op ≠ .cancel emptyKey) :
    op.Proper B := by
  cases op with
  | addLimit isBid priceFp volume participant =>
      intro heq
      have hone : adds [.addLimit isBid priceFp volume participant] = 1 := rfl
      have hmarker : emptyKey.toNat = 2 ^ 64 - 1 := rfl
      rw [heq, hone, hmarker] at h
      omega
  | cancel orderId => exact fun heq => hop (by rw [heq])
  | marketOrder isBuy volume taker => trivial

theorem Refines.run {lob : PersistentLOB} {B : Book} (h : Refines lob B) :
    ∀ {ops : List BookOp}, B.nextOrderId.toNat + BookOp.adds ops < 2 ^ 64 →
      (∀ op ∈ ops, op ≠ .cancel emptyKey) →
      ∃ lob', runFrom PersistentLOB.apply lob ops =
          .ok ((traceFrom Book.applyBounded B ops).1, lob') ∧
        Refines lob' (traceFrom Book.applyBounded B ops).2 := by
  intro ops hids hops
  refine runFrom_sim (fun B op => op.Proper B) (fun _ _ _ h hop => h.apply hop)
    ops lob B h ?_
  induction ops generalizing lob B with
  | nil => trivial
  | cons op ops ih =>
      rw [BookOp.adds_cons, ← Nat.add_assoc] at hids
      have hop := BookOp.proper_of_counter hids (hops op List.mem_cons_self)
      obtain ⟨lob', _, h'⟩ := h.apply hop
      exact ⟨hop, ih h' (B.applyBounded_counter op hids)
        fun o ho => hops o (List.mem_cons_of_mem _ ho)⟩

theorem Refines.orderId_ne {lob : PersistentLOB} {B : Book} (h : Refines lob B) :
    ∀ o ∈ B.orders, o.orderId ≠ emptyKey := by
  obtain ⟨L, hrep, rfl⟩ := h
  rw [Layout.view_orders]
  intro o ho heq
  obtain ⟨i, hi, rfl⟩ := List.mem_map.mp ho
  have hlt := (hrep.issued i hi).2
  have hid : (lob.pool.nodes i).orderId = emptyKey := heq
  have := lob.nextOrderId.toNat_lt
  rw [hid] at hlt
  simp only [emptyKey, UInt64.toNat_ofNat] at hlt
  omega

theorem Refines.apply_of_ok {lob lob' : PersistentLOB} {B : Book} {op : BookOp} {r : Reply}
    (h : Refines lob B) (hadd : op.isAdd = true → B.nextOrderId ≠ emptyKey)
    (hok : lob.apply op = .ok (r, lob')) :
    r = (B.applyBounded op).1 ∧ Refines lob' (B.applyBounded op).2 := by
  by_cases hop : op.Proper B
  · obtain ⟨lob₁, hcall, h₁⟩ := h.apply hop
    rw [hcall] at hok
    cases hok
    exact ⟨rfl, h₁⟩
  · -- only a cancel of the marker is left, and it has met no empty slot
    obtain rfl : op = .cancel emptyKey := by
      cases op with
      | addLimit isBid priceFp volume participant => exact absurd (hadd rfl) hop
      | cancel orderId => exact congrArg BookOp.cancel (not_not.mp hop)
      | marketOrder isBuy volume taker => exact absurd trivial hop
    have hnaive : B.cancel emptyKey = (false, B) := Book.cancel_absent h.orderId_ne
    have hfull : ∀ s, s.toNat < mapSize → (lob.orderMap s).key ≠ emptyKey := by
      intro s hs hkey
      obtain ⟨L, hrep, _⟩ := h
      simp only [PersistentLOB.apply, hrep.cancel_emptyKey hs hkey, error_bind] at hok
      cases hok
    simp only [PersistentLOB.apply, PersistentLOB.cancel_emptyKey_full hfull, ok_bind,
      pure_ok] at hok
    cases hok
    simp only [Book.applyBounded, Book.apply, hnaive]
    exact ⟨trivial, h⟩

theorem Refines.run_of_ok : ∀ {ops : List BookOp} {lob lob' : PersistentLOB} {B : Book}
    {rs : List Reply}, Refines lob B → B.nextOrderId.toNat + BookOp.adds ops < 2 ^ 64 →
    runFrom PersistentLOB.apply lob ops = .ok (rs, lob') →
    rs = (traceFrom Book.applyBounded B ops).1 ∧
      Refines lob' (traceFrom Book.applyBounded B ops).2
  | [], _, _, _, _, h, _, hrun => by
      cases hrun
      exact ⟨rfl, h⟩
  | op :: ops, lob, lob', B, rs, h, hids, hrun => by
      obtain ⟨⟨r, lob₁⟩, hop, hrun⟩ := bind_eq_ok.mp hrun
      obtain ⟨⟨rs₁, lob₂⟩, hrest, hrun⟩ := bind_eq_ok.mp hrun
      cases hrun
      rw [BookOp.adds_cons, ← Nat.add_assoc] at hids
      have hadd : op.isAdd = true → B.nextOrderId ≠ emptyKey := by
        intro hadd
        cases op with
        | addLimit isBid priceFp volume participant =>
            exact BookOp.proper_of_counter hids (by simp)
        | cancel orderId => cases hadd
        | marketOrder isBuy volume taker => cases hadd
      obtain ⟨rfl, h₁⟩ := h.apply_of_ok hadd hop
      obtain ⟨rfl, h₂⟩ := Refines.run_of_ok h₁ (B.applyBounded_counter op hids) hrest
      exact ⟨rfl, h₂⟩

theorem Book.traceFrom_counter : ∀ {ops : List BookOp} {B : Book} {n : Nat},
    B.nextOrderId.toNat + BookOp.adds ops + n < 2 ^ 64 →
      (traceFrom Book.applyBounded B ops).2.nextOrderId.toNat + n < 2 ^ 64
  | [], _, _, h => by simpa [BookOp.adds, traceFrom] using h
  | op :: ops, B, n, h => by
      rw [BookOp.adds_cons, ← Nat.add_assoc, Nat.add_assoc] at h
      have hstep := B.applyBounded_counter op h
      rw [← Nat.add_assoc] at hstep
      exact Book.traceFrom_counter (B := (B.applyBounded op).2) hstep

theorem run_defined (ops : List BookOp) (hids : BookOp.adds ops < 2 ^ 64 - 1)
    (hops : ∀ op ∈ ops, op ≠ .cancel emptyKey) :
    ∃ lob, PersistentLOB.run ops = .ok ((Book.runBounded ops).1, lob) ∧
      Refines lob (Book.runBounded ops).2 := by
  refine init_refines.run ?_ hops
  rw [show Book.empty.nextOrderId.toNat = 1 from rfl]
  omega

/-- Every run that the flat book survives is the run of the bounded naive
book. -/
theorem run_bounded {ops : List BookOp} (hids : BookOp.adds ops < 2 ^ 64 - 1)
    {rs : List Reply} {lob : PersistentLOB} (hrun : PersistentLOB.run ops = .ok (rs, lob)) :
    rs = (Book.runBounded ops).1 ∧ Refines lob (Book.runBounded ops).2 := by
  refine init_refines.run_of_ok ?_ hrun
  rw [show Book.empty.nextOrderId.toNat = 1 from rfl]
  omega

namespace Book

theorem applyBounded_eq_apply {B : Book} {op : BookOp} (h : B.Uncapped op) :
    B.applyBounded op = B.apply op := by
  cases op with
  | addLimit isBid priceFp volume participant =>
      simp only [applyBounded, apply, addLimitBounded, if_neg h.1, if_neg h.2]
  | cancel orderId => rfl
  | marketOrder isBuy volume taker => rfl

theorem run_unbounded : ∀ {ops : List BookOp} {B : Book}, Admitted apply Uncapped B ops →
    traceFrom applyBounded B ops = traceFrom apply B ops
  | [], _, _ => rfl
  | op :: ops, B, ⟨hop, hrest⟩ => by
      simp only [traceFrom, applyBounded_eq_apply hop, run_unbounded hrest]

end Book

/-! ## Quotes -/

/-- Every quote that the flat book publishes is the one of `B`. -/
structure SameQuotes (lob : PersistentLOB) (B : Book) : Prop where
  bestBid : lob.bestBid = B.bestBid
  bestAsk : lob.bestAsk = B.bestAsk
  mid : lob.mid = B.mid
  spread : lob.spread = B.spread
  lastTradeFp : lob.lastTradeFp = B.lastTradeFp
  totalFills : lob.totalFills = B.totalFills
  snapshot : ∀ sm, lob.fillSnapshot sm = B.fillSnapshot sm

theorem Rep.bestPrice_eq {lob : PersistentLOB} {L : Layout} (h : Rep lob L) (b : Bool) :
    (lob.side b).bestPrice = Book.bestPrice b ((L.view lob).side b) := by
  rw [h.sides b, Layout.view_side]
  cases L.side b with
  | nil => rfl
  | cons g gs => rfl

theorem Rep.depth_eq {lob : PersistentLOB} {L : Layout} (h : Rep lob L) (b : Bool) :
    PersistentLOB.depth (lob.side b) = Book.depth ((L.view lob).side b) := by
  funext i
  rw [PersistentLOB.depth, Book.depth, h.mem_side_levels, Layout.view_side, List.getElem?_map,
    List.getElem?_map]
  cases hg : (L.side b)[i.val]? with
  | none => rfl
  | some g =>
      have htotal := (h.ok b g (List.mem_of_getElem? hg)).total
      simp only [Option.map_some, htotal, GLevel.view, Book.volumeSum, List.map_map]
      rfl

theorem Refines.quotes {lob : PersistentLOB} {B : Book} (h : Refines lob B) :
    SameQuotes lob B := by
  obtain ⟨L, hrep, rfl⟩ := h
  have hbid : lob.bestBid = (L.view lob).bestBid := hrep.bestPrice_eq true
  have hask : lob.bestAsk = (L.view lob).bestAsk := hrep.bestPrice_eq false
  have hspread : lob.spread = (L.view lob).spread := by
    rw [PersistentLOB.spread, Book.spread, hbid, hask]
  have hbids : PersistentLOB.depth lob.bids = Book.depth (L.view lob).bids :=
    hrep.depth_eq true
  have hasks : PersistentLOB.depth lob.asks = Book.depth (L.view lob).asks :=
    hrep.depth_eq false
  refine ⟨hbid, hask, ?_, hspread, rfl, rfl, ?_⟩
  · rw [PersistentLOB.mid, Book.mid, hbid, hask]
    rfl
  · intro sm
    simp only [PersistentLOB.fillSnapshot, Book.fillSnapshot, hbid, hask, hspread, hbids,
      hasks]
    rfl

/-! ## The refinement theorem -/

theorem BookOp.adds_append (ops ops' : List BookOp) :
    adds (ops ++ ops') = adds ops + adds ops' := List.countP_append

/-- The flat book is the naive book. Take any calls that hit no capacity
limit, do not cancel the empty marker and ask for fewer than `2^64 - 1` ids:
after each of them the flat book has answered as the naive one and quotes as it
does. -/
theorem flat_book_refines_naive {ops : List BookOp}
    (hcap : Admitted Book.apply Book.Uncapped Book.empty ops)
    (hmark : ∀ op ∈ ops, op ≠ .cancel emptyKey) (hids : BookOp.adds ops < 2 ^ 64 - 1) :
    ∀ pre, pre <+: ops → ∃ lob, PersistentLOB.run pre = .ok ((Book.run pre).1, lob) ∧
      SameQuotes lob (Book.run pre).2 ∧ lob.view = (Book.run pre).2 := by
  rintro pre ⟨post, rfl⟩
  rw [BookOp.adds_append] at hids
  have hpre : Book.runBounded pre = Book.run pre := Book.run_unbounded (hcap.of_append)
  obtain ⟨lob, hrun, href⟩ := run_defined pre (by omega)
    fun op hop => hmark op (List.mem_append_left _ hop)
  rw [hpre] at hrun href
  exact ⟨lob, hrun, href.quotes, href.view_eq⟩

/-- Two orders at one price and a sweep through the first into the second. -/
theorem flat_book_refines_naive_sweep :
    let ops := [BookOp.addLimit false 100 5 contestant, .addLimit false 100 5 botMM,
      .marketOrder true 7 botSNIPER, .cancel 1]
    Admitted Book.apply Book.Uncapped Book.empty ops ∧
      ∃ lob, PersistentLOB.run ops = .ok ((Book.run ops).1, lob) ∧
        SameQuotes lob (Book.run ops).2 ∧ lob.view = (Book.run ops).2 := by
  intro ops
  have hcap : Admitted Book.apply Book.Uncapped Book.empty ops :=
    ⟨by decide +kernel, by decide +kernel, trivial, trivial, trivial⟩
  exact ⟨hcap, flat_book_refines_naive hcap (by decide) (by decide) ops (List.prefix_refl ops)⟩

/-! ## When the ids run out

The counter is 64 bits wide. After `2^64 - 1` orders it stands at zero, which
`add_limit` hands out like any other id and `cancel` refuses as `NULL_ORDER_ID`. -/

/-- An order that rests and is taken at once: the book is empty again, one id is gone. -/
def restAndTakeAt (p : Int64) : List BookOp :=
  [.addLimit false p 1 botMM, .marketOrder true 1 botSNIPER]

def restAndTake : List BookOp := [.addLimit false 1 1 botMM, .marketOrder true 1 botSNIPER]

theorem traceFrom_restAndTake (bs : List BookLevel) (p : Int64) (k : UInt64) (last fills : Int64) :
    (traceFrom Book.apply ⟨bs, [], k, last, fills⟩ (restAndTakeAt p)).2 =
      ⟨bs, [], k + 1, p, fills + 1⟩ := by
  have hmin : min (1 : Int64) 1 = 1 := by decide
  simp [hmin, restAndTakeAt, traceFrom, Book.apply, Book.addLimit, Book.openLevel, Book.hasLevel,
    Book.insertLevel, Book.enqueue, Book.side, Book.setSide, Book.marketOrder,
    Book.matchLevels, Book.matchQueue, Book.lastPrice, Book.fillOf]

theorem noBids_room : (Book.priority []).length < orderPoolSize := by decide

theorem uncapped_noAsks {bs : List BookLevel} (hbs : (Book.priority bs).length < orderPoolSize)
    (p : Int64) (k : UInt64) (last fills : Int64) :
    Book.Uncapped ⟨bs, [], k, last, fills⟩ (.addLimit false p 1 botMM) := by
  refine ⟨fun hfull => absurd hfull.2 (show ¬ maxPriceLevels ≤ 0 by decide), fun hfull => ?_⟩
  have hfull : orderPoolSize ≤ (Book.priority bs ++ Book.priority []).length := hfull
  rw [List.length_append, show Book.priority [] = [] from rfl, List.length_nil] at hfull
  omega

theorem admitted_restAndTake {bs : List BookLevel}
    (hbs : (Book.priority bs).length < orderPoolSize) (p : Int64) (k : UInt64)
    (last fills : Int64) :
    Admitted Book.apply Book.Uncapped ⟨bs, [], k, last, fills⟩ (restAndTakeAt p) :=
  ⟨uncapped_noAsks hbs p k last fills, trivial, trivial⟩

theorem cycles_restAndTake {bs : List BookLevel} (hbs : (Book.priority bs).length < orderPoolSize)
    (p : Int64) : ∀ (n : Nat) (k : UInt64) (last fills : Int64),
    Admitted Book.apply Book.Uncapped ⟨bs, [], k, last, fills⟩
        (List.replicate n (restAndTakeAt p)).flatten ∧
      ∃ last' fills', (traceFrom Book.apply ⟨bs, [], k, last, fills⟩
        (List.replicate n (restAndTakeAt p)).flatten).2 =
          ⟨bs, [], k + UInt64.ofNat n, last', fills'⟩
  | 0, k, last, fills => ⟨trivial, last, fills, by simp [traceFrom]⟩
  | n + 1, k, last, fills => by
      obtain ⟨hadm, last', fills', hend⟩ := cycles_restAndTake hbs p n (k + 1) p (fills + 1)
      have hfirst := traceFrom_restAndTake bs p k last fills
      rw [List.replicate_succ, List.flatten_cons]
      refine ⟨(admitted_restAndTake hbs p k last fills).append (by rw [hfirst]; exact hadm),
        last', fills', ?_⟩
      rw [traceFrom_append, hfirst, hend]
      have hcount : UInt64.ofNat (n + 1) = UInt64.ofNat n + 1 := by
        rw [UInt64.ofNat_add]
        rfl
      simp only [Book.mk.injEq, true_and, and_true, hcount]
      grind

/-- The bound on the ids is needed: some calls that hit no capacity limit
and do not cancel the marker are answered differently by the naive book. -/
theorem naive_book_outlives_ids :
    ¬ ∀ ops : List BookOp, Admitted Book.apply Book.Uncapped Book.empty ops →
      (∀ op ∈ ops, op ≠ .cancel emptyKey) →
      ∃ lob, PersistentLOB.run ops = .ok ((Book.run ops).1, lob) := by
  intro hall
  let cycles := (List.replicate (2 ^ 64 - 1) restAndTake).flatten
  let final : List BookOp := [.addLimit false 1 1 botMM, .cancel 0]
  obtain ⟨hadm, last, fills, hend⟩ := cycles_restAndTake noBids_room 1 (2 ^ 64 - 1) 1 0 0
  have hzero : (1 : UInt64) + UInt64.ofNat (2 ^ 64 - 1) = 0 := by decide
  rw [hzero] at hend
  have hfinal : Admitted Book.apply Book.Uncapped ⟨[], [], 0, last, fills⟩ final :=
    ⟨uncapped_noAsks noBids_room 1 0 last fills, trivial, trivial⟩
  have hcycle : ∀ op ∈ restAndTake, op ≠ .cancel emptyKey := by decide
  have htail : ∀ op ∈ final, op ≠ .cancel emptyKey := by decide
  obtain ⟨lob, hrun⟩ := hall (cycles ++ final)
    (hadm.append (by rw [hend]; exact hfinal)) (by
      intro op hop
      rcases List.mem_append.mp hop with hop | hop
      · obtain ⟨c, hc, hop⟩ := List.mem_flatten.mp hop
        rw [(List.mem_replicate.mp hc).2] at hop
        exact hcycle op hop
      · exact htail op hop)
  -- the naive book finds order zero, the flat book does not look for it
  have hnaive : (Book.run (cycles ++ final)).1 =
      (Book.run cycles).1 ++ [.orderId 0, .cancelled true] := by
    have hlast : (traceFrom Book.apply ⟨[], [], 0, last, fills⟩ final).1 =
        [.orderId 0, .cancelled true] := rfl
    rw [Book.run, traceFrom_append]
    show _ ++ (traceFrom Book.apply (traceFrom Book.apply Book.empty cycles).2 final).1 = _
    rw [show (traceFrom Book.apply Book.empty cycles).2 = ⟨[], [], 0, last, fills⟩ from hend,
      hlast]
    rfl
  rw [hnaive, PersistentLOB.run, runFrom_append] at hrun
  obtain ⟨⟨rs, lob₁⟩, _, hrun⟩ := bind_eq_ok.mp hrun
  obtain ⟨⟨rs', lob₂⟩, hrest, hrun⟩ := bind_eq_ok.mp hrun
  obtain ⟨⟨r, lob₃⟩, _, hrest⟩ := bind_eq_ok.mp hrest
  simp only [runFrom, PersistentLOB.apply, PersistentLOB.cancel, nullOrderId, if_true, ok_bind,
    pure_ok] at hrest
  cases hrest
  simp only [pure_ok, Except.ok.injEq, Prod.mk.injEq] at hrun
  have := congrArg List.getLast? hrun.1
  simp at this

end VidhiArena.GameMaster
