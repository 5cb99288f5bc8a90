import VidhiArena.GameMaster.CancelSafety

/-!
# The book under other names

An order id is a name: the queues, the levels and the slab never look at it, and
`market_order` only copies it into its fills. The three calls therefore commute with
a change of the ids (`PersistentLOB.named`), whatever the order map and the id counter
hold; only a cancel asks the map which slot is meant.

`Rep` wants the ids of the resting orders distinct and the map exact, which a run of
more than `2^64` orders does not keep. `Rep.renumber` gives a book laid out properly
fresh ids, in the order of the old ones, with a map to match. So a memory may be read
as a proper one under other names (`Rep.renumber`, then `named`), in every run.
-/

namespace VidhiArena.GameMaster

open VidhiArena.Foundation

variable {f : UInt64 → UInt64}

def LimitOrder.named (f : UInt64 → UInt64) (o : LimitOrder) : LimitOrder :=
  { o with orderId := f o.orderId }

def OrderPool.named (f : UInt64 → UInt64) (p : OrderPool) : OrderPool :=
  { p with nodes := fun i => (p.nodes i).named f }

/-- The same memory with the ids `f` gives, another map and another counter. -/
def PersistentLOB.named (f : UInt64 → UInt64) (m : UInt32 → MapEntry) (n : UInt64)
    (lob : PersistentLOB) : PersistentLOB :=
  { lob with pool := lob.pool.named f, orderMap := m, nextOrderId := n }

def RestingOrder.named (f : UInt64 → UInt64) (o : RestingOrder) : RestingOrder :=
  { o with orderId := f o.orderId }

def BookLevel.named (f : UInt64 → UInt64) (lv : BookLevel) : BookLevel :=
  { lv with queue := lv.queue.map (RestingOrder.named f) }

def MatchedFill.named (f : UInt64 → UInt64) (x : MatchedFill) : MatchedFill :=
  { x with makerOrderId := f x.makerOrderId }

def Book.named (f : UInt64 → UInt64) (n : UInt64) (B : Book) : Book :=
  { B with bids := B.bids.map (BookLevel.named f), asks := B.asks.map (BookLevel.named f),
           nextOrderId := n }

/-! ## The slab -/

namespace OrderPool

theorem named_get (p : OrderPool) (i : UInt32) :
    (p.named f).get i = (p.get i).map (LimitOrder.named f) := by
  rw [get, get]
  split <;> rfl

theorem named_set (p : OrderPool) (i : UInt32) (o : LimitOrder) :
    (p.named f).set i (o.named f) = (p.set i o).map (OrderPool.named f) := by
  rw [set, set]
  split
  · refine congrArg Except.ok ?_
    simp only [named, mk.injEq, and_true]
    ext j : 1
    by_cases hj : j = i
    · subst hj
      rw [Function.update_self, Function.update_self]
    · rw [Function.update_of_ne hj, Function.update_of_ne hj]
  · rfl

theorem named_alloc (p : OrderPool) :
    (p.named f).alloc = (p.alloc.1, p.alloc.2.named f) := by
  obtain ⟨nodes, free⟩ := p
  cases free <;> rfl

theorem named_release (p : OrderPool) (i : UInt32) :
    (p.named f).release i = (p.release i).map (OrderPool.named f) := by
  rw [release, release]
  split
  · rfl
  · show (if p.freeStack.length < orderPoolSize then _ else _) = _
    split <;> rfl

end OrderPool

namespace PersistentLOB

variable {m : UInt32 → MapEntry} {n : UInt64}

@[simp] theorem named_side (lob : PersistentLOB) (b : Bool) :
    (lob.named f m n).side b = lob.side b := by cases b <;> rfl

@[simp] theorem named_setSide (lob : PersistentLOB) (b : Bool) (s : LOBSide) :
    (lob.named f m n).setSide b s = (lob.setSide b s).named f m n := by cases b <;> rfl

theorem named_appendNode (pool : OrderPool) (lv : PriceLevel) (idx : UInt32) (volume : Int64) :
    appendNode (pool.named f) lv idx volume =
      (appendNode pool lv idx volume).map fun r => (r.1.named f, r.2) := by
  rw [appendNode, appendNode]
  split
  · rfl
  · rw [OrderPool.named_get]
    cases pool.get lv.tail with
    | error e => rfl
    | ok last =>
        simp only [Except.map, ok_bind]
        have hset := OrderPool.named_set (f := f) pool lv.tail { last with next := idx }
        rw [show (LimitOrder.named f { last with next := idx }) =
          { last.named f with next := idx } from rfl] at hset
        rw [hset]
        cases pool.set lv.tail { last with next := idx } with
        | error e => rfl
        | ok pool => rfl

theorem named_findPrev (pool : OrderPool) (target : UInt32) : ∀ (fuel : Nat) (prev cur : UInt32),
    findPrev (pool.named f) target fuel prev cur = findPrev pool target fuel prev cur
  | 0, _, _ => rfl
  | fuel + 1, prev, cur => by
      rw [findPrev, findPrev]
      split
      · rfl
      split
      · rfl
      rw [OrderPool.named_get]
      cases pool.get cur with
      | error e => rfl
      | ok node => exact named_findPrev pool target fuel cur node.next

theorem named_unlinkNode (pool : OrderPool) (lv : PriceLevel) (prev cur : UInt32)
    (volume : Int64) :
    unlinkNode (pool.named f) lv prev cur volume =
      (unlinkNode pool lv prev cur volume).map fun r => (r.1.named f, r.2) := by
  rw [unlinkNode, unlinkNode, OrderPool.named_get]
  cases pool.get cur with
  | error e => rfl
  | ok node =>
      simp only [Except.map, ok_bind]
      split
      · simp only [pure_ok, ok_bind]
        rw [OrderPool.named_release]
        cases pool.release cur <;> rfl
      · rw [OrderPool.named_get]
        cases pool.get prev with
        | error e => rfl
        | ok before =>
            simp only [Except.map, ok_bind]
            have hset := OrderPool.named_set (f := f) pool prev { before with next := node.next }
            rw [show (LimitOrder.named f { before with next := node.next }) =
              { before.named f with next := (node.named f).next } from rfl] at hset
            rw [hset]
            cases pool.set prev { before with next := node.next } with
            | error e => rfl
            | ok pool =>
                simp only [Except.map, ok_bind, pure_ok]
                rw [OrderPool.named_release]
                cases pool.release cur <;> rfl

/-! ## The matching loop -/

theorem named_matchHead {lob lob' : PersistentLOB} {isBuy : Bool} {taker : ParticipantID}
    {r r' : Int64} {lv : PriceLevel} {x : MatchedFill}
    (h : lob.matchHead isBuy taker r lv = .ok (x, r', lob')) (m : UInt32 → MapEntry) (n : UInt64) :
    ∃ m', (lob.named f m n).matchHead isBuy taker r lv =
      .ok (x.named f, r', lob'.named f m' n) := by
  obtain ⟨maker, hget, h⟩ := bind_eq_ok.mp h
  obtain ⟨pool, hset, h⟩ := bind_eq_ok.mp h
  have hget' : (lob.named f m n).pool.get lv.head = .ok (maker.named f) := by
    show (lob.pool.named f).get lv.head = _
    rw [OrderPool.named_get, hget]
    rfl
  have hset' : (lob.named f m n).pool.set lv.head
      { maker.named f with volume := maker.volume - min r maker.volume } = .ok (pool.named f) := by
    show (lob.pool.named f).set lv.head (LimitOrder.named f
      { maker with volume := maker.volume - min r maker.volume }) = _
    rw [OrderPool.named_set, hset]
    rfl
  have hvol : (maker.named f).volume = maker.volume := rfl
  simp only [matchHead, hget', ok_bind, hvol, hset']
  split at h
  · rename_i hfull
    obtain ⟨freed, hrel, h⟩ := bind_eq_ok.mp h
    cases h
    refine ⟨mapErase m (f maker.orderId), ?_⟩
    rw [if_pos hfull, OrderPool.named_release, hrel]
    simp only [Except.map, ok_bind, pure_ok]
    cases isBuy <;> rfl
  · rename_i hfull
    cases h
    refine ⟨m, ?_⟩
    rw [if_neg hfull]
    cases isBuy <;> rfl

theorem named_matchLoop {isBuy : Bool} {taker : ParticipantID} : ∀ {fuel : Nat}
    {lob lob' : PersistentLOB} {r : Int64} {fs : List MatchedFill},
    matchLoop isBuy taker fuel lob r = .ok (fs, lob') → ∀ (m : UInt32 → MapEntry) (n : UInt64),
    ∃ m', matchLoop isBuy taker fuel (lob.named f m n) r =
      .ok (fs.map (MatchedFill.named f), lob'.named f m' n)
  | 0, _, _, _, _, h, _, _ => nomatch h
  | fuel + 1, lob, lob', r, fs, h, m, n => by
      rw [matchLoop] at h ⊢
      rw [named_side]
      split at h
      · rename_i hpos
        rw [if_pos hpos]
        split at h
        · cases h
          exact ⟨m, rfl⟩
        · split at h
          · rename_i hnull
            rw [if_pos hnull, named_setSide]
            exact named_matchLoop h m n
          · rename_i hnull
            rw [if_neg hnull]
            obtain ⟨⟨x, r', lob₁⟩, hhead, h⟩ := bind_eq_ok.mp h
            obtain ⟨⟨fs', lob₂⟩, hloop, h⟩ := bind_eq_ok.mp h
            cases h
            obtain ⟨m₁, hhead'⟩ := named_matchHead (f := f) hhead m n
            obtain ⟨m₂, hloop'⟩ := named_matchLoop hloop m₁ n
            refine ⟨m₂, ?_⟩
            simp only [hhead', ok_bind, hloop', pure_ok, List.map_cons]
      · rename_i hpos
        cases h
        rw [if_neg hpos]
        exact ⟨m, rfl⟩

/-- What a call can do to the slab when it takes no slot: give slots back, and keep the ids. -/
def Frees (lob lob' : PersistentLOB) : Prop :=
  lob.pool.freeStack <:+ lob'.pool.freeStack ∧
    ∀ i, (lob'.pool.nodes i).orderId = (lob.pool.nodes i).orderId

theorem Frees.refl (lob : PersistentLOB) : lob.Frees lob := ⟨List.suffix_refl _, fun _ => rfl⟩

theorem Frees.trans {lob lob' lob'' : PersistentLOB} (h : lob.Frees lob') (h' : lob'.Frees lob'') :
    lob.Frees lob'' := ⟨h.1.trans h'.1, fun i => (h'.2 i).trans (h.2 i)⟩

theorem set_eq_ok {pool pool' : OrderPool} {i : UInt32} {o : LimitOrder}
    (h : pool.set i o = .ok pool') : pool' = { pool with nodes := Function.update pool.nodes i o } := by
  rw [OrderPool.set] at h
  split at h
  · exact (Except.ok.inj h).symm
  · cases h

theorem release_eq_ok {pool pool' : OrderPool} {i : UInt32} (h : pool.release i = .ok pool') :
    pool'.nodes = pool.nodes ∧ pool.freeStack <:+ pool'.freeStack := by
  rw [OrderPool.release] at h
  split at h
  · cases h
    exact ⟨rfl, List.suffix_refl _⟩
  split at h
  · cases h
    exact ⟨rfl, List.suffix_cons _ _⟩
  · cases h

theorem get_eq_ok {pool : OrderPool} {i : UInt32} {o : LimitOrder} (h : pool.get i = .ok o) :
    o = pool.nodes i := by
  rw [OrderPool.get] at h
  split at h
  · exact (Except.ok.inj h).symm
  · cases h

theorem update_orderId {nodes : UInt32 → LimitOrder} {i : UInt32} {o : LimitOrder}
    (h : o.orderId = (nodes i).orderId) (j : UInt32) :
    (Function.update nodes i o j).orderId = (nodes j).orderId := by
  by_cases hj : j = i
  · subst hj
    rw [Function.update_self, h]
  · rw [Function.update_of_ne hj]

theorem matchHead_frees {lob lob' : PersistentLOB} {isBuy : Bool} {taker : ParticipantID}
    {r r' : Int64} {lv : PriceLevel} {x : MatchedFill}
    (h : lob.matchHead isBuy taker r lv = .ok (x, r', lob')) : lob.Frees lob' := by
  obtain ⟨maker, hget, h⟩ := bind_eq_ok.mp h
  obtain ⟨pool, hset, h⟩ := bind_eq_ok.mp h
  rw [get_eq_ok hget] at hset
  rw [set_eq_ok hset] at h
  split at h
  · obtain ⟨freed, hrel, h⟩ := bind_eq_ok.mp h
    cases h
    obtain ⟨hnodes, hfree⟩ := release_eq_ok hrel
    refine ⟨hfree, fun i => ?_⟩
    show (freed.nodes i).orderId = _
    rw [hnodes]
    change (Function.update lob.pool.nodes lv.head _ i).orderId = _
    exact update_orderId (by rfl) i
  · cases h
    refine ⟨List.suffix_refl _, fun i => ?_⟩
    change (Function.update lob.pool.nodes lv.head _ i).orderId = _
    exact update_orderId (by rfl) i

theorem matchLoop_frees {isBuy : Bool} {taker : ParticipantID} : ∀ {fuel : Nat}
    {lob lob' : PersistentLOB} {r : Int64} {fs : List MatchedFill},
    matchLoop isBuy taker fuel lob r = .ok (fs, lob') → lob.Frees lob'
  | 0, _, _, _, _, h => nomatch h
  | fuel + 1, lob, lob', r, fs, h => by
      rw [matchLoop] at h
      split at h
      · split at h
        · cases h
          exact Frees.refl lob
        · split at h
          · have hrest := matchLoop_frees h
            exact ⟨by simpa using hrest.1, fun i => by simpa using hrest.2 i⟩
          · obtain ⟨⟨x, r', lob₁⟩, hhead, h⟩ := bind_eq_ok.mp h
            obtain ⟨⟨fs', lob₂⟩, hloop, h⟩ := bind_eq_ok.mp h
            cases h
            exact (matchHead_frees hhead).trans (matchLoop_frees hloop)
      · cases h
        exact Frees.refl lob

/-! ## Adding -/

/-- What an add can do to the slab: nothing, or take the top of the free stack for the
order that gets the next id. -/
def Takes (lob lob' : PersistentLOB) : Prop :=
  (lob'.pool.freeStack = lob.pool.freeStack ∧
      ∀ i, (lob'.pool.nodes i).orderId = (lob.pool.nodes i).orderId) ∨
    ∃ x, lob.pool.freeStack = x :: lob'.pool.freeStack ∧
      (lob'.pool.nodes x).orderId = lob.nextOrderId ∧
      ∀ i, i ≠ x → (lob'.pool.nodes i).orderId = (lob.pool.nodes i).orderId

theorem appendNode_eq_ok {pool pool' : OrderPool} {lv lv' : PriceLevel} {idx : UInt32}
    {volume : Int64} (h : appendNode pool lv idx volume = .ok (pool', lv')) :
    pool'.freeStack = pool.freeStack ∧
      ∀ i, (pool'.nodes i).orderId = (pool.nodes i).orderId := by
  rw [appendNode] at h
  split at h
  · cases h
    exact ⟨rfl, fun _ => rfl⟩
  · obtain ⟨last, hget, h⟩ := bind_eq_ok.mp h
    obtain ⟨pool₁, hset, h⟩ := bind_eq_ok.mp h
    cases h
    rw [get_eq_ok hget] at hset
    rw [set_eq_ok hset]
    refine ⟨rfl, fun i => ?_⟩
    change (Function.update pool.nodes lv.tail _ i).orderId = _
    exact update_orderId (by rfl) i

theorem addLimit_takes {lob lob' : PersistentLOB} {isBid : Bool} {priceFp volume : Int64}
    {participant : ParticipantID} {id : UInt64} (hnull : nullIdx ∉ lob.pool.freeStack)
    (h : lob.addLimit isBid priceFp volume participant = .ok (id, lob')) : lob.Takes lob' := by
  rw [addLimit] at h
  split at h
  · cases h
    exact Or.inl ⟨rfl, fun _ => rfl⟩
  · rename_i k side hcreate
    simp only [OrderPool.alloc] at h
    cases hfree : lob.pool.freeStack with
    | nil =>
        simp only [hfree, if_true] at h
        cases h
        exact Or.inl ⟨rfl, fun i => rfl⟩
    | cons x rest =>
        have hx : x ≠ nullIdx := by
          rintro rfl
          exact hnull (by rw [hfree]; exact List.mem_cons_self)
        simp only [hfree, if_neg hx] at h
        obtain ⟨pool, hset, h⟩ := bind_eq_ok.mp h
        obtain ⟨⟨pool₁, lv⟩, happend, h⟩ := bind_eq_ok.mp h
        cases h
        obtain ⟨hfree₁, hids⟩ := appendNode_eq_ok happend
        have hpool := set_eq_ok hset
        refine Or.inr ⟨x, ?_, ?_, fun i hi => ?_⟩
        · show lob.pool.freeStack = x :: pool₁.freeStack
          rw [hfree₁, hpool, hfree]
        · show (pool₁.nodes x).orderId = _
          rw [hids, hpool]
          show (Function.update lob.pool.nodes x _ x).orderId = _
          rw [Function.update_self]
        · show (pool₁.nodes i).orderId = _
          rw [hids, hpool]
          show (Function.update lob.pool.nodes x _ i).orderId = _
          rw [Function.update_of_ne hi]

/-- An add under other names: only the name of the new order has to be the right one. -/
theorem named_addLimit {lob lob' : PersistentLOB} {isBid : Bool} {priceFp volume : Int64}
    {participant : ParticipantID} {id : UInt64}
    (h : lob.addLimit isBid priceFp volume participant = .ok (id, lob')) (m : UInt32 → MapEntry) :
    ∃ id' m' n', (lob.named f m (f lob.nextOrderId)).addLimit isBid priceFp volume participant =
      .ok (id', lob'.named f m' n') := by
  rw [addLimit] at h ⊢
  rw [named_side]
  split at h
  · cases h
    exact ⟨_, _, _, rfl⟩
  · rename_i k side hcreate
    have halloc : (lob.named f m (f lob.nextOrderId)).pool.alloc =
        (lob.pool.alloc.1, lob.pool.alloc.2.named f) := lob.pool.named_alloc
    simp only [halloc]
    generalize lob.pool.alloc = taken at h ⊢
    obtain ⟨idx, pool⟩ := taken
    simp only at h ⊢
    split at h
    · rename_i hnull
      cases h
      rw [if_pos hnull]
      refine ⟨nullOrderId, m, f lob.nextOrderId, ?_⟩
      cases isBid <;> rfl
    · rename_i hnull
      rw [if_neg hnull]
      obtain ⟨pool₁, hset, h⟩ := bind_eq_ok.mp h
      obtain ⟨⟨pool₂, lv⟩, happend, h⟩ := bind_eq_ok.mp h
      cases h
      have hset' : (pool.named f).set idx ⟨f lob.nextOrderId, volume, participant, nullIdx⟩ =
          .ok (pool₁.named f) := by
        have := pool.named_set (f := f) idx ⟨lob.nextOrderId, volume, participant, nullIdx⟩
        rw [hset] at this
        exact this
      have happend' : appendNode (pool₁.named f) (side.levels.getD k default) idx volume =
          .ok (pool₂.named f, lv) := by
        rw [named_appendNode, happend]
        rfl
      have hnext : (lob.named f m (f lob.nextOrderId)).nextOrderId = f lob.nextOrderId := rfl
      simp only [hnext, hset', ok_bind, happend', pure_ok]
      refine ⟨f lob.nextOrderId, mapInsert m (f lob.nextOrderId) idx priceFp isBid,
        f lob.nextOrderId + 1, ?_⟩
      cases isBid <;> rfl

/-! ## Cancelling -/

theorem mem_of_findPrev {pool : OrderPool} {target prev' : UInt32} : ∀ {fuel : Nat}
    {prev cur : UInt32} {c : List UInt32},
    Chain (fun i => (pool.nodes i).next) nullIdx cur c →
    findPrev pool target fuel prev cur = .ok (some prev') → target ∈ c
  | 0, _, _, _, _, h => nomatch h
  | fuel + 1, prev, cur, c, hc, h => by
      rw [findPrev] at h
      split at h
      · cases h
      rename_i hnull
      cases c with
      | nil => exact absurd hc hnull
      | cons i c =>
          obtain ⟨rfl, -, hc⟩ := hc
          split at h
          · rename_i heq
            rw [heq]
            exact List.mem_cons_self
          · obtain ⟨node, hget, h⟩ := bind_eq_ok.mp h
            rw [get_eq_ok hget] at h
            exact List.mem_cons_of_mem _ (mem_of_findPrev hc h)

theorem unlinkNode_eq_ok {pool pool' : OrderPool} {lv lv' : PriceLevel} {prev cur : UInt32}
    {volume : Int64} (h : unlinkNode pool lv prev cur volume = .ok (pool', lv')) :
    pool.freeStack <:+ pool'.freeStack ∧
      ∀ i, (pool'.nodes i).orderId = (pool.nodes i).orderId := by
  obtain ⟨node, hget, h⟩ := bind_eq_ok.mp h
  simp only at h
  split at h
  · obtain ⟨_, hpure, h⟩ := bind_eq_ok.mp h
    cases hpure
    obtain ⟨pool₁, hrel, h⟩ := bind_eq_ok.mp h
    cases h
    obtain ⟨hnodes, hfree⟩ := release_eq_ok hrel
    exact ⟨hfree, fun i => by rw [hnodes]⟩
  · obtain ⟨before, hbefore, h⟩ := bind_eq_ok.mp h
    obtain ⟨pool₁, hset, h⟩ := bind_eq_ok.mp h
    obtain ⟨_, hpure, h⟩ := bind_eq_ok.mp h
    cases hpure
    obtain ⟨pool₂, hrel, h⟩ := bind_eq_ok.mp h
    cases h
    rw [get_eq_ok hbefore] at hset
    obtain ⟨hnodes, hfree⟩ := release_eq_ok hrel
    rw [set_eq_ok hset] at hnodes hfree
    refine ⟨hfree, fun i => ?_⟩
    rw [hnodes]
    change (Function.update pool.nodes prev _ i).orderId = _
    exact update_orderId (by rfl) i

end PersistentLOB

/-- A cancel, whatever the map says: it changes nothing, or it takes out one of the
resting orders, as cancelling that order by its own name does. -/
theorem Rep.named_cancel {lob lob' : PersistentLOB} {L : Layout} (h : Rep lob L)
    {m : UInt32 → MapEntry} {n orderId : UInt64} {ok : Bool}
    (hcancel : (lob.named f m n).cancel orderId = .ok (ok, lob')) :
    lob' = lob.named f m n ∨ ∃ lob₁ L₁ m₁, Rep lob₁ L₁ ∧ lob.Frees lob₁ ∧
      lob' = lob₁.named f m₁ n := by
  rw [PersistentLOB.cancel] at hcancel
  split at hcancel
  · cases hcancel
    exact Or.inl rfl
  split at hcancel
  · cases hcancel
    exact Or.inl rfl
  rename_i entry hentry
  obtain ⟨target, hget, hcancel⟩ := bind_eq_ok.mp hcancel
  simp only [PersistentLOB.named_side] at hcancel
  split at hcancel
  · cases hcancel
    exact Or.inl rfl
  rename_i k hfind
  obtain ⟨prev, hwalk, hcancel⟩ := bind_eq_ok.mp hcancel
  split at hcancel
  · cases hcancel
    exact Or.inl rfl
  rename_i prev
  obtain ⟨⟨pool', lv⟩, hunlink, hcancel⟩ := bind_eq_ok.mp hcancel
  cases hcancel
  refine Or.inr ?_
  -- the level that the search has found, and the order on its queue
  have hprice := LOBSide.findLoop_some hfind
  rw [h.mem_side_levels, List.map_map, List.getElem?_map] at hprice
  obtain ⟨g, hk, hp⟩ := Option.map_eq_some_iff.mp hprice
  have hg := List.mem_of_getElem? hk
  change g.level.priceFp = entry.priceFp at hp
  obtain ⟨pre, post, hside, hfind', hgetD⟩ := h.find_level hg
  rw [hp, hfind] at hfind'
  obtain rfl := Option.some.inj hfind'
  change PersistentLOB.findPrev (lob.pool.named f) _ _ _ _ = _ at hwalk
  change PersistentLOB.unlinkNode (lob.pool.named f) _ _ _ _ = _ at hunlink
  change (lob.pool.named f).get _ = _ at hget
  rw [hgetD, PersistentLOB.named_findPrev] at hwalk
  rw [hgetD, PersistentLOB.named_unlinkNode] at hunlink
  have ht := PersistentLOB.mem_of_findPrev (h.ok _ g hg).path hwalk
  have hti := Layout.mem_indices_of hg ht
  rw [OrderPool.named_get, h.get hti] at hget
  cases hget
  obtain ⟨⟨pool, left⟩, hleft, heq⟩ := map_eq_ok hunlink
  cases heq
  -- the same order, cancelled by its name in `lob`
  have hid : (lob.pool.nodes entry.val).orderId ≠ nullOrderId := by
    intro hz
    have := (h.issued entry.val hti).1
    rw [hz] at this
    exact absurd this (by decide)
  have hfound : PersistentLOB.mapFind lob.orderMap (lob.pool.nodes entry.val).orderId =
      some ⟨(lob.pool.nodes entry.val).orderId, entry.val, entry.priceFp, entry.isBid⟩ :=
    PersistentLOB.mapFind_mem
      (e := ⟨(lob.pool.nodes entry.val).orderId, entry.val, entry.priceFp, entry.isBid⟩)
      h.map ⟨⟨g, hg, ht, hp⟩, rfl⟩
  have hunlink' : PersistentLOB.unlinkNode lob.pool g.level prev entry.val
      (lob.pool.nodes entry.val).volume = .ok (pool, left) := hleft
  obtain ⟨lob₁, L₁, hcancel₁, hrep₁, -⟩ := h.cancel_resting hg ht
  have hcode := hcancel₁
  simp only [PersistentLOB.cancel, if_neg hid, hfound, h.get hti, ok_bind, hfind, hgetD,
    hwalk, hunlink', pure_ok] at hcode
  cases hcode
  obtain ⟨hfree, hids⟩ := PersistentLOB.unlinkNode_eq_ok hunlink'
  refine ⟨_, L₁, PersistentLOB.mapErase m orderId, hrep₁, ⟨hfree, hids⟩, ?_⟩
  cases entry.isBid <;> rfl

/-! ## Fresh ids -/

namespace Layout

variable {L : Layout} {nodes : UInt32 → LimitOrder}

/-- The place of slot `i` among the slots in use, counted by their ids. -/
def rank (L : Layout) (nodes : UInt32 → LimitOrder) (i : UInt32) : Nat :=
  (L.indices.toFinset.filter fun j => (nodes j).orderId < (nodes i).orderId).card + 1

theorem rank_lt {i j : UInt32} (hi : i ∈ L.indices)
    (hlt : (nodes i).orderId < (nodes j).orderId) : L.rank nodes i < L.rank nodes j := by
  refine Nat.succ_lt_succ (Finset.card_lt_card ?_)
  rw [Finset.ssubset_iff_of_subset]
  · refine ⟨i, ?_, ?_⟩
    · rw [Finset.mem_filter, List.mem_toFinset]
      exact ⟨hi, hlt⟩
    · rw [Finset.mem_filter]
      exact fun hmem => absurd hmem.2 (UInt64.lt_irrefl _)
  · refine Finset.monotone_filter_right _ ?_
    intro k _ hk
    exact UInt64.lt_trans hk hlt

theorem rank_le (nodes : UInt32 → LimitOrder) {i : UInt32} (hi : i ∈ L.indices) :
    L.rank nodes i ≤ L.indices.length := by
  have hlt : (L.indices.toFinset.filter fun j => (nodes j).orderId < (nodes i).orderId).card <
      L.indices.toFinset.card := by
    refine Finset.card_lt_card (Finset.filter_ssubset.mpr ⟨i, List.mem_toFinset.mpr hi, ?_⟩)
    exact UInt64.lt_irrefl _
  exact lt_of_lt_of_le hlt (List.toFinset_card_le _)

/-- Ids from one on for the slots in use, in the order of the old ones; the others get ids that
no call will hand out next. -/
def freshId (L : Layout) (nodes : UInt32 → LimitOrder) (i : UInt32) : UInt64 :=
  if i ∈ L.indices then .ofNat (L.rank nodes i) else .ofNat (orderPoolSize + 2 + i.toNat)

theorem toNat_freshId_free (nodes : UInt32 → LimitOrder) {i : UInt32} (hi : i ∉ L.indices) :
    (L.freshId nodes i).toNat = orderPoolSize + 2 + i.toNat := by
  have hlt := i.toNat_lt
  rw [freshId, if_neg hi, UInt64.toNat_ofNat']
  unfold orderPoolSize
  omega

/-- The entries of the order map, with the ids that `ids` gives. -/
def entryList (L : Layout) (ids : UInt32 → UInt64) : List MapEntry :=
  (L.bids.flatMap fun g => g.chain.map fun i => ⟨ids i, i, g.level.priceFp, true⟩) ++
    L.asks.flatMap fun g => g.chain.map fun i => ⟨ids i, i, g.level.priceFp, false⟩

theorem keys_entryList (L : Layout) (ids : UInt32 → UInt64) :
    (L.entryList ids).map MapEntry.key = L.indices.map ids := by
  simp only [entryList, indices, slots, List.map_append, List.map_flatMap, List.map_map]
  rfl

theorem mem_entryList {ids : UInt32 → UInt64} {e : MapEntry} :
    e ∈ L.entryList ids ↔ Queued (L.side e.isBid) e.val e.priceFp ∧ e.key = ids e.val := by
  obtain ⟨k, i, p, b⟩ := e
  simp only [entryList, List.mem_append, List.mem_flatMap, List.mem_map, MapEntry.mk.injEq]
  constructor
  · rintro (⟨g, hg, j, hj, rfl, rfl, rfl, rfl⟩ | ⟨g, hg, j, hj, rfl, rfl, rfl, rfl⟩)
    · exact ⟨⟨g, hg, hj, rfl⟩, rfl⟩
    · exact ⟨⟨g, hg, hj, rfl⟩, rfl⟩
  · rintro ⟨⟨g, hg, hi, hp⟩, hk⟩
    cases b
    · exact Or.inr ⟨g, hg, i, hi, hk.symm, rfl, hp, rfl⟩
    · exact Or.inl ⟨g, hg, i, hi, hk.symm, rfl, hp, rfl⟩

end Layout

namespace Rep

variable {lob : PersistentLOB} {L : Layout}

theorem mem_indices_iff (h : Rep lob L) {i : UInt32} :
    i ∈ L.indices ↔ i.toNat < orderPoolSize ∧ i ∉ lob.pool.freeStack := by
  have hmem := h.partition.mem_iff (a := i)
  rw [List.mem_append, OrderPool.mem_freeIndices le_rfl] at hmem
  have hnd := List.nodup_append.mp h.nodup
  constructor
  · exact fun hi => ⟨hmem.mp (Or.inr hi), fun hfree => hnd.2.2 i hfree i hi rfl⟩
  · rintro ⟨hlt, hfree⟩
    exact (hmem.mpr hlt).resolve_left hfree

theorem toNat_freshId (h : Rep lob L) {i : UInt32} (hi : i ∈ L.indices) :
    (L.freshId lob.pool.nodes i).toNat = L.rank lob.pool.nodes i := by
  have hle := Layout.rank_le lob.pool.nodes hi
  have hpool := h.length_partition
  rw [Layout.freshId, if_pos hi, UInt64.toNat_ofNat']
  unfold orderPoolSize at hpool
  omega

theorem freshId_lt (h : Rep lob L) {i j : UInt32} (hi : i ∈ L.indices) (hj : j ∈ L.indices)
    (hlt : (lob.pool.nodes i).orderId < (lob.pool.nodes j).orderId) :
    L.freshId lob.pool.nodes i < L.freshId lob.pool.nodes j := by
  rw [UInt64.lt_iff_toNat_lt, h.toNat_freshId hi, h.toNat_freshId hj]
  exact Layout.rank_lt hi hlt

theorem freshId_lt_iff (h : Rep lob L) {i j : UInt32} (hi : i ∈ L.indices) (hj : j ∈ L.indices) :
    L.freshId lob.pool.nodes i < L.freshId lob.pool.nodes j ↔
      (lob.pool.nodes i).orderId < (lob.pool.nodes j).orderId := by
  refine ⟨fun hlt => ?_, h.freshId_lt hi hj⟩
  by_contra hnot
  rw [UInt64.lt_iff_toNat_lt, not_lt] at hnot
  rcases hnot.lt_or_eq with hgt | heq
  · have hback := h.freshId_lt hj hi (UInt64.lt_iff_toNat_lt.mpr hgt)
    exact UInt64.lt_irrefl _ (UInt64.lt_trans hlt hback)
  · rw [h.slot_of_orderId hj hi (UInt64.toNat_inj.mp heq)] at hlt
    exact UInt64.lt_irrefl _ hlt

/-- What the fresh ids are fresh for: they are at most as many as the slab has slots. -/
theorem freshId_le (h : Rep lob L) {i : UInt32} (hi : i ∈ L.indices) :
    0 < (L.freshId lob.pool.nodes i).toNat ∧
      (L.freshId lob.pool.nodes i).toNat ≤ orderPoolSize := by
  rw [h.toNat_freshId hi]
  have hle := Layout.rank_le lob.pool.nodes hi
  have hpool := h.length_partition
  exact ⟨Nat.succ_pos _, by omega⟩

theorem freshId_injective (h : Rep lob L) : Function.Injective (L.freshId lob.pool.nodes) := by
  intro i j heq
  have hnat := congrArg UInt64.toNat heq
  by_cases hi : i ∈ L.indices <;> by_cases hj : j ∈ L.indices
  · by_contra hne
    have hids : (lob.pool.nodes i).orderId.toNat ≠ (lob.pool.nodes j).orderId.toNat :=
      fun hid => hne (h.slot_of_orderId hi hj (UInt64.toNat_inj.mp hid))
    rcases lt_or_gt_of_ne hids with hlt | hlt
    · have := h.freshId_lt hi hj hlt
      rw [heq] at this
      exact UInt64.lt_irrefl _ this
    · have := h.freshId_lt hj hi hlt
      rw [heq] at this
      exact UInt64.lt_irrefl _ this
  · have := (h.freshId_le hi).2
    rw [hnat, Layout.toNat_freshId_free _ hj] at this
    omega
  · have := (h.freshId_le hj).2
    rw [← hnat, Layout.toNat_freshId_free _ hi] at this
    omega
  · rw [Layout.toNat_freshId_free _ hi, Layout.toNat_freshId_free _ hj] at hnat
    exact UInt32.toNat_inj.mp (by omega)

end Rep

/-- The same memory with other ids, another map and another counter. -/
def PersistentLOB.withIds (lob : PersistentLOB) (ids : UInt32 → UInt64) (m : UInt32 → MapEntry)
    (n : UInt64) : PersistentLOB :=
  { lob with
    pool := { lob.pool with nodes := fun i => { lob.pool.nodes i with orderId := ids i } }
    orderMap := m
    nextOrderId := n }

namespace Rep

/-- Fresh ids: the same memory with the ids `freshId` and a map to match is laid out as
before, and the next id is out of the way of all of them. -/
theorem renumber (h : Rep lob L) :
    ∃ m, Rep (lob.withIds (L.freshId lob.pool.nodes) m (.ofNat (orderPoolSize + 1))) L := by
  have hdistinct : (L.indices.map (L.freshId lob.pool.nodes)).Nodup :=
    (List.nodup_append.mp h.nodup).2.1.map h.freshId_injective
  have hlives : ∀ e ∈ L.entryList (L.freshId lob.pool.nodes),
      Probing.Live MapEntry.key emptyKey deletedKey e := by
    intro e he
    obtain ⟨hq, hkey⟩ := Layout.mem_entryList.mp he
    have hi : e.val ∈ L.indices := by
      obtain ⟨g, hg, hi, -⟩ := hq
      exact Layout.mem_indices_of hg hi
    obtain ⟨hpos, hle⟩ := h.freshId_le hi
    rw [← hkey] at hpos hle
    constructor
    · intro heq
      rw [heq] at hle
      exact absurd hle (by decide)
    · intro heq
      rw [heq] at hpos
      exact absurd hpos (by decide)
  have hlen : (L.entryList (L.freshId lob.pool.nodes)).length ≤ mapSize := by
    have hkeys := congrArg List.length (L.keys_entryList (L.freshId lob.pool.nodes))
    rw [List.length_map, List.length_map] at hkeys
    have hpool := h.length_partition
    unfold orderPoolSize at hpool
    unfold mapSize
    omega
  have hinj : ∀ k, Set.InjOn (PersistentLOB.mapSlot k) {i | i < mapSize} :=
    fun k i hi j hj heq => PersistentLOB.mapSlot_injOn hi hj heq
  obtain ⟨m, hmap, hblank⟩ := Probing.exists_represents (t := PersistentLOB.init.orderMap)
    (fun _ => rfl) hinj hlives (by rw [L.keys_entryList]; exact hdistinct) hlen
  have hnext : (UInt64.ofNat (orderPoolSize + 1)).toNat = orderPoolSize + 1 := rfl
  refine ⟨m, ⟨h.sides, ?_, h.sorted, h.room, h.partition, ?_, ?_, hdistinct, ?_, ?_⟩⟩
  · intro b g hg
    have hok := h.ok b g hg
    refine ⟨hok.path, hok.tail, hok.count, hok.total, ?_⟩
    have hids := hok.ids
    rw [List.pairwise_map] at hids ⊢
    exact hids.imp_of_mem fun hi hj hlt =>
      h.freshId_lt (Layout.mem_indices_of hg hi) (Layout.mem_indices_of hg hj) hlt
  · change 0 < (UInt64.ofNat (orderPoolSize + 1)).toNat
    rw [hnext]
    exact Nat.succ_pos _
  · intro i hi
    obtain ⟨hpos, hle⟩ := h.freshId_le hi
    refine ⟨hpos, ?_⟩
    change (L.freshId lob.pool.nodes i).toNat < (UInt64.ofNat (orderPoolSize + 1)).toNat
    rw [hnext]
    exact Nat.lt_succ_of_le hle
  · have hset : L.entries (lob.withIds (L.freshId lob.pool.nodes) m
        (.ofNat (orderPoolSize + 1))).pool.nodes =
        {e | e ∈ L.entryList (L.freshId lob.pool.nodes)} := by
      ext e
      change _ ↔ e ∈ L.entryList (L.freshId lob.pool.nodes)
      rw [Layout.mem_entryList]
      rfl
    rw [hset]
    exact hmap
  · intro s hs
    exact congrArg MapEntry.val (hblank s hs)

end Rep

end VidhiArena.GameMaster
