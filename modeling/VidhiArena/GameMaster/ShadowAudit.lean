import VidhiArena.Foundation.Faulting
import VidhiArena.GameMaster.ShadowCalls
import VidhiArena.GameMaster.Volumes

/-!
# The shadow audit against a ledger

The ledger is the plain record of what was reported to the shadow: every order
ever added, in order of addition, with what is left of it and what became of
it. `Audited` ties the deques, flags, totals and sequence numbers of the shadow
to the ledger; from it follows what `on_fill` logs.

The shadow erases a level whose `total_volume` is not positive. Fills never
lower that total, so it is an upper bound of what rests there, and the rule is
harmless until the 64-bit total wraps. `ShadowEvent.Safe` says that it does not.
-/

namespace VidhiArena.GameMaster

open VidhiArena.Foundation

/-! ## Events -/

inductive ShadowEvent where
  | limitAdd (isBid : Bool) (priceFp volume : Int64) (orderId : UInt64) (tickId : Int64)
  | fill (f : MatchedFill) (makerId : UInt64) (tickId : Int64)
  | cancel (orderId : UInt64) (liveSucceeded : Bool) (tickId : Int64)

def ShadowLOB.replay (S : ShadowLOB) : ShadowEvent → ShadowLOB
  | .limitAdd isBid priceFp volume orderId tickId =>
      S.onLimitAdd isBid priceFp volume orderId tickId
  | .fill f makerId tickId => S.onFill f makerId tickId
  | .cancel orderId liveSucceeded tickId => S.onCancel orderId liveSucceeded tickId

def ShadowLOB.run (events : List ShadowEvent) : ShadowLOB :=
  events.foldl ShadowLOB.replay ShadowLOB.init

/-! ## The ledger -/

inductive OrderStatus where
  | live
  | filled
  | cancelled
deriving DecidableEq

structure LedgerEntry where
  orderId : UInt64
  isBid : Bool
  priceFp : Int64
  original : Int
  remaining : Int
  status : OrderStatus
deriving DecidableEq

namespace LedgerEntry

def isLive (o : LedgerEntry) : Bool := o.status = .live

/-- The order rests at price `p` of side `b`. -/
def restsAt (b : Bool) (p : Int64) (o : LedgerEntry) : Bool :=
  o.isLive && (o.isBid = b) && (o.priceFp = p)

/-- The order after a fill of `v`: with nothing left it is filled. -/
def take (v : Int) (o : LedgerEntry) : LedgerEntry :=
  { o with
    remaining := o.remaining - v
    status := if o.remaining - v ≤ 0 then .filled else .live }

end LedgerEntry

/-- Every order ever added, in order of addition. -/
abbrev Ledger := List LedgerEntry

namespace Ledger

/-- Change the live order `id`, if there is one. -/
def update (K : Ledger) (id : UInt64) (g : LedgerEntry → LedgerEntry) : Ledger :=
  K.map fun o => if o.orderId = id ∧ o.isLive = true then g o else o

def record (K : Ledger) : ShadowEvent → Ledger
  | .limitAdd isBid priceFp volume orderId _ =>
      K ++ [⟨orderId, isBid, priceFp, volume.toInt, volume.toInt, .live⟩]
  | .fill f makerId _ => K.update makerId (LedgerEntry.take f.volume.toInt)
  | .cancel orderId _ _ => K.update orderId fun o => { o with status := .cancelled }

def run (events : List ShadowEvent) : Ledger := events.foldl record []

/-- The live orders at one price, oldest first. -/
def queue (K : Ledger) (b : Bool) (p : Int64) : Ledger := K.filter (LedgerEntry.restsAt b p)

/-- Order `m` is live, and an order of its side and price that was added before
it is live too. -/
def HasOlder (K : Ledger) (m : UInt64) : Prop :=
  ∃ pre o post, K = pre ++ o :: post ∧ o.orderId = m ∧ o.isLive = true ∧
    ∃ o' ∈ pre, o'.restsAt o.isBid o.priceFp = true

/-- A fill of `v` on `m` is one too many: `m` was never added, is filled or
cancelled already, or has less than `v` left. -/
def Overfills (K : Ledger) (m : UInt64) (v : Int) : Prop :=
  m ∉ K.map LedgerEntry.orderId ∨
    (∃ o ∈ K, o.orderId = m ∧ (o.status = .filled ∨ o.status = .cancelled)) ∨
    ∃ o ∈ K, o.orderId = m ∧ o.isLive = true ∧ o.remaining < v

end Ledger

/-- What the reports to the shadow promise: fresh ids and positive volumes. -/
def ShadowEvent.Legal (K : Ledger) : ShadowEvent → Prop
  | .limitAdd _ _ volume orderId _ => 0 < volume ∧ orderId ∉ K.map LedgerEntry.orderId
  | .fill f _ _ => 0 < f.volume
  | .cancel .. => True

/-- No 64-bit counter of the shadow wraps: the total of the level that an order
joins or leaves, and the sequence number. -/
def ShadowEvent.Safe (S : ShadowLOB) : ShadowEvent → Prop
  | .limitAdd isBid priceFp volume _ _ =>
      S.globalSeq.toNat + 1 < 2 ^ 64 ∧
        ∀ level ∈ OrderedMap.find (S.side isBid) priceFp,
          Fits (level.totalVolume.toInt + volume.toInt)
  | .fill f makerId _ =>
      ∀ so ∈ S.orders makerId, ∀ level ∈ OrderedMap.find (S.side so.isBid) so.priceFp,
        so.remainingVolume ≤ f.volume →
          Fits (level.totalVolume.toInt - (so.remainingVolume.toInt - f.volume.toInt))
  | .cancel .. => True

/-- The log has room for what the call has to log. -/
def ShadowEvent.HasRoom (S : ShadowLOB) : ShadowEvent → Prop
  | .fill f makerId tickId =>
      S.violations.length + (S.fillLog f makerId tickId).length ≤ maxViolations
  | _ => True

/-- The shadow and the ledger, side by side. -/
abbrev Audit := ShadowLOB × Ledger

def Audit.step (a : Audit) (e : ShadowEvent) : Audit := (a.1.replay e, a.2.record e)

def Audit.Admits (a : Audit) (e : ShadowEvent) : Prop :=
  e.Legal a.2 ∧ e.Safe a.1 ∧ e.HasRoom a.1

instance (K : Ledger) (e : ShadowEvent) : Decidable (e.Legal K) :=
  match e with
  | .limitAdd .. => inferInstanceAs (Decidable (_ ∧ _))
  | .fill .. => inferInstanceAs (Decidable (_ < _))
  | .cancel .. => inferInstanceAs (Decidable True)

instance (S : ShadowLOB) (e : ShadowEvent) : Decidable (e.Safe S) :=
  match e with
  | .limitAdd .. => inferInstanceAs (Decidable (_ ∧ ∀ level ∈ _, _))
  | .fill .. => inferInstanceAs (Decidable (∀ so ∈ _, ∀ level ∈ _, _ → _))
  | .cancel .. => inferInstanceAs (Decidable True)

instance (S : ShadowLOB) (e : ShadowEvent) : Decidable (e.HasRoom S) :=
  match e with
  | .limitAdd .. => inferInstanceAs (Decidable True)
  | .fill .. => inferInstanceAs (Decidable (_ ≤ _))
  | .cancel .. => inferInstanceAs (Decidable True)

instance (a : Audit) (e : ShadowEvent) : Decidable (a.Admits e) :=
  inferInstanceAs (Decidable (_ ∧ _ ∧ _))

/-! ## The invariant -/

/-- What a level has to hold of an order. -/
def LedgerEntry.share (o : LedgerEntry) : UInt64 × Int := (o.orderId, o.remaining)

/-- A level of the shadow and the live orders at its price. -/
def LevelMatches (level : Option ShadowLevel) (q : Ledger) : Prop :=
  match level with
  | none => q = []
  | some level => q ≠ [] ∧ level.Holds (q.map LedgerEntry.share)

def ShadowLOB.seqOf (S : ShadowLOB) (id : UInt64) : Nat :=
  ((S.orders id).map fun so => so.sequenceNum.toNat).getD 0

/-- What the shadow keeps of a live order. -/
def ShadowOrder.Keeps (so : ShadowOrder) (o : LedgerEntry) : Prop :=
  so.isBid = o.isBid ∧ so.priceFp = o.priceFp ∧ so.remainingVolume.toInt = o.remaining ∧
    so.isCancelled = false ∧ so.isFullyFilled = false

structure Audited (S : ShadowLOB) (K : Ledger) : Prop where
  ids : (K.map LedgerEntry.orderId).Nodup
  closed : ∀ id, (∀ o ∈ K, o.orderId = id → o.isLive = false) → S.orders id = none
  known : ∀ o ∈ K, o.isLive = true → ∃ so, S.orders o.orderId = some so ∧ so.Keeps o
  positive : ∀ o ∈ K, o.isLive = true → 0 < o.remaining
  seqs : (K.filter LedgerEntry.isLive).Pairwise fun o o' =>
    S.seqOf o.orderId < S.seqOf o'.orderId
  seqLe : ∀ o ∈ K, o.isLive = true → S.seqOf o.orderId ≤ S.globalSeq.toNat
  levels : ∀ b p, LevelMatches (OrderedMap.find (S.side b) p) (K.queue b p)

theorem audited_init : Audited ShadowLOB.init [] where
  ids := List.nodup_nil
  closed := fun _ _ => rfl
  known := fun _ h => absurd h List.not_mem_nil
  positive := fun _ h => absurd h List.not_mem_nil
  seqs := List.Pairwise.nil
  seqLe := fun _ h => absurd h List.not_mem_nil
  levels := fun b p => by cases b <;> rfl

theorem Audited.congr {S S' : ShadowLOB} {K : Ledger} (h : Audited S K)
    (hb : ShadowLOB.SameBook S S') : Audited S' K where
  ids := h.ids
  closed := by
    rw [hb.orders]
    exact h.closed
  known := by
    rw [hb.orders]
    exact h.known
  positive := h.positive
  seqs := by
    simp only [ShadowLOB.seqOf, hb.orders]
    exact h.seqs
  seqLe := by
    simp only [ShadowLOB.seqOf, hb.orders, hb.globalSeq]
    exact h.seqLe
  levels := fun b p => by
    rw [hb.side]
    exact h.levels b p

namespace Ledger

variable {K : Ledger}

theorem mem_queue {b : Bool} {p : Int64} {o : LedgerEntry} :
    o ∈ K.queue b p ↔ o ∈ K ∧ o.isLive = true ∧ o.isBid = b ∧ o.priceFp = p := by
  simp [queue, LedgerEntry.restsAt, and_assoc]

theorem queue_append (K K' : Ledger) (b : Bool) (p : Int64) :
    (K ++ K').queue b p = K.queue b p ++ K'.queue b p := List.filter_append ..

theorem queue_cons_of_pos {K : Ledger} {o : LedgerEntry} {b : Bool} {p : Int64}
    (h : o.restsAt b p = true) : queue (o :: K) b p = o :: K.queue b p :=
  List.filter_cons_of_pos h

theorem queue_cons_of_neg {K : Ledger} {o : LedgerEntry} {b : Bool} {p : Int64}
    (h : o.restsAt b p = false) : queue (o :: K) b p = K.queue b p :=
  List.filter_cons_of_neg (by simp [h])

theorem queue_singleton (o : LedgerEntry) (b : Bool) (p : Int64) :
    queue [o] b p = if o.restsAt b p = true then [o] else [] := by
  split
  · rename_i h
    rw [queue_cons_of_pos h]
    rfl
  · rename_i h
    rw [queue_cons_of_neg (by simpa using h)]
    rfl

theorem eq_of_orderId (hids : (K.map LedgerEntry.orderId).Nodup) {o o' : LedgerEntry}
    (ho : o ∈ K) (ho' : o' ∈ K) (h : o.orderId = o'.orderId) : o = o' :=
  List.inj_on_of_nodup_map hids ho ho' h

theorem update_absent {id : UInt64} {g : LedgerEntry → LedgerEntry}
    (h : ∀ o ∈ K, o.orderId = id → o.isLive = false) : K.update id g = K := by
  unfold update
  rw [List.map_congr_left (g := fun o => o), List.map_id']
  intro o ho
  rw [if_neg]
  rintro ⟨hid, hlive⟩
  rw [h o ho hid] at hlive
  cases hlive

theorem map_update_orderId {id : UInt64} {g : LedgerEntry → LedgerEntry}
    (hg : ∀ o, (g o).orderId = o.orderId) :
    (K.update id g).map LedgerEntry.orderId = K.map LedgerEntry.orderId := by
  rw [update, List.map_map]
  refine List.map_congr_left fun o _ => ?_
  simp only [Function.comp_apply]
  split
  · exact hg o
  · rfl

theorem mem_middle {pre post : Ledger} {o o' : LedgerEntry} :
    o' ∈ pre ++ o :: post ↔ o' = o ∨ o' ∈ pre ++ post := by
  rw [List.mem_append, List.mem_cons, List.mem_append, or_left_comm]

theorem ne_of_middle {pre post : Ledger} {o : LedgerEntry}
    (hids : ((pre ++ o :: post).map LedgerEntry.orderId).Nodup) :
    ∀ o' ∈ pre ++ post, o'.orderId ≠ o.orderId := by
  rw [List.map_append, List.map_cons, List.nodup_middle, List.nodup_cons,
    ← List.map_append] at hids
  exact fun o' ho' heq => hids.1 (heq ▸ List.mem_map_of_mem ho')

/-- The live order `o` splits the ledger, and an update changes it alone. -/
theorem split_at (hids : (K.map LedgerEntry.orderId).Nodup) {o : LedgerEntry} (ho : o ∈ K)
    (hlive : o.isLive = true) :
    ∃ pre post, K = pre ++ o :: post ∧
      ∀ g, K.update o.orderId g = pre ++ g o :: post := by
  obtain ⟨pre, post, rfl⟩ := List.append_of_mem ho
  have hne := ne_of_middle hids
  refine ⟨pre, post, rfl, fun g => ?_⟩
  have hpre : update pre o.orderId g = pre :=
    update_absent fun o' ho' h => absurd h (hne o' (List.mem_append_left _ ho'))
  have hpost : update post o.orderId g = post :=
    update_absent fun o' ho' h => absurd h (hne o' (List.mem_append_right _ ho'))
  unfold update at *
  rw [List.map_append, List.map_cons, hpre, hpost, if_pos ⟨rfl, hlive⟩]

end Ledger

/-! ## Levels -/

namespace LevelMatches

variable {level : Option ShadowLevel} {q q' : Ledger} {o : LedgerEntry}

theorem push (h : LevelMatches level q) {v : Int64} (o : LedgerEntry) (hv : o.remaining = v.toInt)
    (hfit : ∀ lv, level = some lv → Fits (lv.totalVolume.toInt + v.toInt)) :
    LevelMatches (some ⟨(level.getD ⟨[], 0⟩).orderIds ++ [o.orderId],
      (level.getD ⟨[], 0⟩).totalVolume + v⟩) (q ++ [o]) := by
  refine ⟨by simp, ?_⟩
  rw [List.map_append, List.map_singleton, LedgerEntry.share, hv]
  cases level with
  | none =>
      obtain rfl : q = [] := h
      refine ShadowLevel.holds_nil.push ?_
      simpa using fits_toInt v
  | some lv => exact h.2.push (hfit lv rfl)

theorem drop {so : ShadowOrder} (h : LevelMatches level (q ++ o :: q'))
    (hpos : ∀ o' ∈ q ++ q', 0 < o'.remaining) (hne : ∀ o' ∈ q, o'.orderId ≠ o.orderId)
    (hle : so.remainingVolume.toInt ≤ o.remaining)
    (hfit : ∀ lv, level = some lv →
      Fits (lv.totalVolume.toInt - so.remainingVolume.toInt)) :
    LevelMatches (level.bind (ShadowLOB.leftOf o.orderId so)) (q ++ q') := by
  cases level with
  | none =>
      have h : q ++ o :: q' = [] := h
      simp at h
  | some lv =>
      have hholds := h.2
      rw [List.map_append, List.map_cons] at hholds
      have hleft := hholds.leftOf so ?_ ?_ hle (hfit lv rfl)
      · rw [← List.map_append] at hleft
        rw [Option.bind_some]
        rcases hleft with ⟨hnil, hgone⟩ | ⟨hnil, level', hstays, hholds'⟩
        · rw [show ShadowLOB.leftOf o.orderId so lv = none from hgone]
          exact List.map_eq_nil_iff.mp hnil
        · rw [show ShadowLOB.leftOf o.orderId so lv = some level' from hstays]
          exact ⟨fun hq => hnil (by rw [hq]; rfl), hholds'⟩
      · intro y hy
        rw [← List.map_append] at hy
        obtain ⟨o', ho', rfl⟩ := List.mem_map.mp hy
        exact hpos o' ho'
      · intro y hy
        obtain ⟨o', ho', rfl⟩ := List.mem_map.mp hy
        exact hne o' ho'

theorem shrink {r : Int} (h : LevelMatches level (q ++ o :: q')) (hle : r ≤ o.remaining) :
    LevelMatches level (q ++ { o with remaining := r } :: q') := by
  cases level with
  | none =>
      have h : q ++ o :: q' = [] := h
      simp at h
  | some lv =>
      obtain ⟨-, hids, hvol⟩ := h
      refine ⟨by simp, ?_, ?_⟩
      · rw [hids]
        simp [LedgerEntry.share]
      · simp only [LedgerEntry.share, List.map_append, List.map_cons, List.sum_append,
          List.sum_cons] at hvol ⊢
        omega

end LevelMatches

/-! ## Steps -/

namespace Audited

variable {S : ShadowLOB} {K : Ledger}

theorem find_level (h : Audited S K) {o : LedgerEntry} (ho : o ∈ K) (hlive : o.isLive = true) :
    ∃ level, OrderedMap.find (S.side o.isBid) o.priceFp = some level ∧
      level.Holds ((K.queue o.isBid o.priceFp).map LedgerEntry.share) := by
  have hlevel := h.levels o.isBid o.priceFp
  have hmem : o ∈ K.queue o.isBid o.priceFp := Ledger.mem_queue.mpr ⟨ho, hlive, rfl, rfl⟩
  cases hfind : OrderedMap.find (S.side o.isBid) o.priceFp with
  | none =>
      rw [hfind] at hlevel
      rw [show K.queue o.isBid o.priceFp = [] from hlevel] at hmem
      cases hmem
  | some level =>
      rw [hfind] at hlevel
      exact ⟨level, rfl, hlevel.2⟩

theorem orders_eq_some (h : Audited S K) {id : UInt64} {so : ShadowOrder}
    (hso : S.orders id = some so) :
    ∃ o ∈ K, o.orderId = id ∧ o.isLive = true ∧ so.Keeps o := by
  by_cases hex : ∃ o ∈ K, o.orderId = id ∧ o.isLive = true
  · obtain ⟨o, ho, rfl, hlive⟩ := hex
    obtain ⟨so', hso', hkeeps⟩ := h.known o ho hlive
    rw [hso] at hso'
    obtain rfl := Option.some.inj hso'
    exact ⟨o, ho, rfl, hlive, hkeeps⟩
  · rw [h.closed id fun o ho hid => Bool.eq_false_iff.mpr fun hl => hex ⟨o, ho, hid, hl⟩] at hso
    cases hso

theorem orders_eq_none (h : Audited S K) {id : UInt64} (hso : S.orders id = none) :
    ∀ o ∈ K, o.orderId = id → o.isLive = false := by
  intro o ho hid
  by_contra hlive
  obtain ⟨so, hso', -⟩ := h.known o ho (by simpa using hlive)
  rw [hid, hso] at hso'
  cases hso'

theorem add (h : Audited S K) {b : Bool} {p v t : Int64} {id : UInt64} (hv : 0 < v)
    (hid : id ∉ K.map LedgerEntry.orderId) (hseq : S.globalSeq.toNat + 1 < 2 ^ 64)
    (hfit : ∀ level, OrderedMap.find (S.side b) p = some level →
      Fits (level.totalVolume.toInt + v.toInt)) :
    Audited (S.onLimitAdd b p v id t)
      (K ++ [⟨id, b, p, v.toInt, v.toInt, .live⟩]) := by
  have hne : ∀ o ∈ K, o.orderId ≠ id := fun o ho heq => hid (heq ▸ List.mem_map_of_mem ho)
  have hv' : 0 < v.toInt := by simpa using Int64.lt_iff_toInt_lt.mp hv
  have hnext : (S.globalSeq + 1).toNat = S.globalSeq.toNat + 1 := by
    rw [UInt64.toNat_add, UInt64.toNat_one, Nat.mod_eq_of_lt hseq]
  have horders := S.onLimitAdd_orders b p v id t
  have hold : ∀ o ∈ K, (S.onLimitAdd b p v id t).orders o.orderId = S.orders o.orderId := by
    intro o ho
    rw [horders, Function.update_of_ne (hne o ho)]
  have hnew : (S.onLimitAdd b p v id t).orders id =
      some ⟨id, S.globalSeq + 1, p, v, v, b, false, false, t⟩ := by
    rw [horders, Function.update_self]
  have hseqOld : ∀ o ∈ K, (S.onLimitAdd b p v id t).seqOf o.orderId = S.seqOf o.orderId := by
    intro o ho
    rw [ShadowLOB.seqOf, hold o ho, ShadowLOB.seqOf]
  have hseqNew : (S.onLimitAdd b p v id t).seqOf id = S.globalSeq.toNat + 1 := by
    rw [ShadowLOB.seqOf, hnew, Option.map_some, Option.getD_some, hnext]
  refine ⟨?_, ?_, ?_, ?_, ?_, ?_, ?_⟩
  · rw [List.map_append, List.map_singleton]
    exact h.ids.append (List.nodup_singleton id) (by simpa using hid)
  · intro id' hclosed
    by_cases heq : id' = id
    · subst heq
      have := hclosed _ (List.mem_append_right _ List.mem_cons_self) rfl
      cases this
    · rw [horders, Function.update_of_ne heq]
      exact h.closed id' fun o ho => hclosed o (List.mem_append_left _ ho)
  · intro o ho hlive
    rcases List.mem_append.mp ho with ho | ho
    · rw [hold o ho]
      exact h.known o ho hlive
    · obtain rfl := List.mem_singleton.mp ho
      exact ⟨_, hnew, rfl, rfl, rfl, rfl, rfl⟩
  · intro o ho hlive
    rcases List.mem_append.mp ho with ho | ho
    · exact h.positive o ho hlive
    · obtain rfl := List.mem_singleton.mp ho
      exact hv'
  · rw [List.filter_append, List.pairwise_append]
    refine ⟨h.seqs.imp_of_mem ?_, List.pairwise_singleton _ _, ?_⟩
    · intro o o' ho ho' hlt
      rw [hseqOld o (List.mem_filter.mp ho).1, hseqOld o' (List.mem_filter.mp ho').1]
      exact hlt
    · intro o ho o' ho'
      obtain rfl := List.mem_singleton.mp (List.mem_filter.mp ho').1
      obtain ⟨ho, hlive⟩ := List.mem_filter.mp ho
      rw [hseqOld o ho, hseqNew]
      exact Nat.lt_succ_of_le (h.seqLe o ho hlive)
  · intro o ho hlive
    rw [S.onLimitAdd_globalSeq, hnext]
    rcases List.mem_append.mp ho with ho | ho
    · rw [hseqOld o ho]
      exact Nat.le_succ_of_le (h.seqLe o ho hlive)
    · obtain rfl := List.mem_singleton.mp ho
      rw [hseqNew]
  · intro b' p'
    rw [S.onLimitAdd_side, Ledger.queue_append, Ledger.queue_singleton]
    have hlevel := h.levels b' p'
    by_cases hb : b' = b
    · subst hb
      rw [if_pos rfl, ShadowLOB.find_joined]
      by_cases hp : p = p'
      · subst hp
        rw [if_pos rfl, if_pos (by simp [LedgerEntry.restsAt, LedgerEntry.isLive])]
        exact hlevel.push _ rfl hfit
      · rw [if_neg hp, if_neg (by simp [LedgerEntry.restsAt, hp]), List.append_nil]
        exact hlevel
    · have hb' : ¬ b = b' := fun e => hb e.symm
      rw [if_neg hb, if_neg (by simp [LedgerEntry.restsAt, hb']), List.append_nil]
      exact hlevel

/-- An order leaves, with at most its volume taken off its level. -/
theorem close (h : Audited S K) {pre post : Ledger} {o o' : LedgerEntry} {so : ShadowOrder}
    (hK : K = pre ++ o :: post) (hlive : o.isLive = true) (hid : o'.orderId = o.orderId)
    (hdead : o'.isLive = false) (hbid : so.isBid = o.isBid) (hprice : so.priceFp = o.priceFp)
    (hle : so.remainingVolume.toInt ≤ o.remaining)
    (hfit : ∀ level, OrderedMap.find (S.side o.isBid) o.priceFp = some level →
      Fits (level.totalVolume.toInt - so.remainingVolume.toInt)) :
    Audited (S.closeOrder o.orderId so) (pre ++ o' :: post) := by
  subst hK
  have hne := Ledger.ne_of_middle h.ids
  have hmem : ∀ o₁ ∈ pre ++ o' :: post, o₁.isLive = true → o₁ ∈ pre ++ post := by
    intro o₁ ho₁ hlive₁
    rcases Ledger.mem_middle.mp ho₁ with rfl | ho₁
    · rw [hdead] at hlive₁
      cases hlive₁
    · exact ho₁
  have hsub : ∀ o₁ ∈ pre ++ post, o₁ ∈ pre ++ o :: post :=
    fun o₁ ho₁ => Ledger.mem_middle.mpr (Or.inr ho₁)
  have horders : ∀ o₁ ∈ pre ++ post,
      (S.closeOrder o.orderId so).orders o₁.orderId = S.orders o₁.orderId := by
    intro o₁ ho₁
    rw [ShadowLOB.closeOrder_orders, Function.update_of_ne (hne o₁ ho₁)]
  have hseq : ∀ o₁ ∈ pre ++ post,
      (S.closeOrder o.orderId so).seqOf o₁.orderId = S.seqOf o₁.orderId := by
    intro o₁ ho₁
    rw [ShadowLOB.seqOf, horders o₁ ho₁, ShadowLOB.seqOf]
  refine ⟨?_, ?_, ?_, ?_, ?_, ?_, ?_⟩
  · have := h.ids
    rw [List.map_append, List.map_cons] at this ⊢
    rwa [hid]
  · intro id hclosed
    rw [ShadowLOB.closeOrder_orders]
    by_cases heq : id = o.orderId
    · rw [heq, Function.update_self]
    · rw [Function.update_of_ne heq]
      refine h.closed id fun o₁ ho₁ hid₁ => ?_
      rcases Ledger.mem_middle.mp ho₁ with rfl | ho₁
      · exact absurd hid₁.symm heq
      · exact hclosed o₁ (Ledger.mem_middle.mpr (Or.inr ho₁)) hid₁
  · intro o₁ ho₁ hlive₁
    rw [horders o₁ (hmem o₁ ho₁ hlive₁)]
    exact h.known o₁ (hsub o₁ (hmem o₁ ho₁ hlive₁)) hlive₁
  · intro o₁ ho₁ hlive₁
    exact h.positive o₁ (hsub o₁ (hmem o₁ ho₁ hlive₁)) hlive₁
  · have hseqs := h.seqs
    rw [List.filter_append, List.filter_cons_of_pos hlive] at hseqs
    rw [List.filter_append, List.filter_cons_of_neg (by simp [hdead]), ← List.filter_append]
    refine (hseqs.sublist ?_).imp_of_mem ?_
    · rw [List.filter_append]
      exact List.Sublist.append_left (List.sublist_cons_self _ _) _
    · intro o₁ o₂ ho₁ ho₂ hlt
      rw [hseq o₁ (List.mem_filter.mp ho₁).1, hseq o₂ (List.mem_filter.mp ho₂).1]
      exact hlt
  · intro o₁ ho₁ hlive₁
    rw [hseq o₁ (hmem o₁ ho₁ hlive₁), ShadowLOB.closeOrder_globalSeq]
    exact h.seqLe o₁ (hsub o₁ (hmem o₁ ho₁ hlive₁)) hlive₁
  · intro b p
    have hlevel := h.levels b p
    have hdead' : o'.restsAt b p = false := by simp [LedgerEntry.restsAt, hdead]
    rw [ShadowLOB.find_closeOrder, hbid, hprice, Ledger.queue_append, Ledger.queue_cons_of_neg hdead']
    rw [Ledger.queue_append] at hlevel
    by_cases hat : o.isBid = b ∧ o.priceFp = p
    · obtain ⟨rfl, rfl⟩ := hat
      have hrests : o.restsAt o.isBid o.priceFp = true := by simp [LedgerEntry.restsAt, hlive]
      rw [Ledger.queue_cons_of_pos hrests] at hlevel
      rw [if_pos ⟨rfl, rfl⟩]
      refine hlevel.drop ?_ ?_ hle hfit
      · intro o₁ ho₁
        rw [← Ledger.queue_append, Ledger.mem_queue] at ho₁
        exact h.positive o₁ (hsub o₁ ho₁.1) ho₁.2.1
      · intro o₁ ho₁ heq
        exact hne o₁ (List.mem_append_left _ (Ledger.mem_queue.mp ho₁).1) heq
    · have hrests : o.restsAt b p = false := by
        simpa [LedgerEntry.restsAt, hlive] using hat
      rw [Ledger.queue_cons_of_neg hrests] at hlevel
      rw [if_neg hat]
      exact hlevel

/-- Part of an order is filled: it stays where it is, with less left. -/
theorem reduce (h : Audited S K) {pre post : Ledger} {o : LedgerEntry} {so so' : ShadowOrder}
    (hK : K = pre ++ o :: post) (hlive : o.isLive = true) (hso : S.orders o.orderId = some so)
    {r : Int} (hr : 0 < r) (hle : r ≤ o.remaining)
    (hkeeps : so'.Keeps { o with remaining := r })
    (hseqNum : so'.sequenceNum = so.sequenceNum) :
    Audited { S with orders := Function.update S.orders o.orderId (some so') }
      (pre ++ { o with remaining := r } :: post) := by
  subst hK
  set S' : ShadowLOB := { S with orders := Function.update S.orders o.orderId (some so') }
    with hS'
  have hmapIds : (pre ++ { o with remaining := r } :: post).map LedgerEntry.orderId =
      (pre ++ o :: post).map LedgerEntry.orderId := by simp
  have hne := Ledger.ne_of_middle h.ids
  have hother : ∀ id, id ≠ o.orderId → S'.orders id = S.orders id :=
    fun id hid => Function.update_of_ne hid ..
  -- every sequence number is kept
  have hseq : ∀ id, S'.seqOf id = S.seqOf id := by
    intro id
    by_cases heq : id = o.orderId
    · subst heq
      simp [ShadowLOB.seqOf, hS', Function.update_self, hso, hseqNum]
    · simp only [ShadowLOB.seqOf, hS', Function.update_of_ne heq]
  have hsub : ∀ o₁ ∈ pre ++ post, o₁ ∈ pre ++ o :: post :=
    fun o₁ ho₁ => Ledger.mem_middle.mpr (Or.inr ho₁)
  have homem : o ∈ pre ++ o :: post := by simp
  refine ⟨hmapIds ▸ h.ids, ?_, ?_, ?_, ?_, ?_, ?_⟩
  · intro id hclosed
    have heq : id ≠ o.orderId := by
      rintro rfl
      have := hclosed { o with remaining := r } (by simp) rfl
      rw [show LedgerEntry.isLive { o with remaining := r } = o.isLive from rfl, hlive] at this
      cases this
    rw [hother id heq]
    refine h.closed id fun o₁ ho₁ hid₁ => ?_
    rcases Ledger.mem_middle.mp ho₁ with rfl | ho₁
    · exact absurd hid₁.symm heq
    · exact hclosed o₁ (Ledger.mem_middle.mpr (Or.inr ho₁)) hid₁
  · intro o₁ ho₁ hlive₁
    rcases Ledger.mem_middle.mp ho₁ with rfl | ho₁
    · exact ⟨so', Function.update_self .., hkeeps⟩
    · rw [hother _ (hne o₁ ho₁)]
      exact h.known o₁ (hsub o₁ ho₁) hlive₁
  · intro o₁ ho₁ hlive₁
    rcases Ledger.mem_middle.mp ho₁ with rfl | ho₁
    · exact hr
    · exact h.positive o₁ (hsub o₁ ho₁) hlive₁
  · have hseqs := h.seqs
    simp only [hseq]
    rw [List.filter_append, List.filter_cons_of_pos hlive] at hseqs
    rw [List.filter_append, List.filter_cons_of_pos (by exact hlive)]
    simp only [List.pairwise_append, List.pairwise_cons, List.forall_mem_cons] at hseqs ⊢
    exact hseqs
  · intro o₁ ho₁ hlive₁
    rw [hseq]
    rcases Ledger.mem_middle.mp ho₁ with rfl | ho₁
    · exact h.seqLe o homem hlive
    · exact h.seqLe o₁ (hsub o₁ ho₁) hlive₁
  · intro b p
    have hlevel := h.levels b p
    have hrests : LedgerEntry.restsAt b p { o with remaining := r } = o.restsAt b p := rfl
    rw [Ledger.queue_append] at hlevel ⊢
    cases hat : o.restsAt b p
    · rw [Ledger.queue_cons_of_neg hat] at hlevel
      rw [Ledger.queue_cons_of_neg (hrests.trans hat)]
      exact hlevel
    · rw [Ledger.queue_cons_of_pos hat] at hlevel
      rw [Ledger.queue_cons_of_pos (hrests.trans hat)]
      exact hlevel.shrink hle

theorem fill (h : Audited S K) {f : MatchedFill} {m : UInt64} {t : Int64} (hv : 0 < f.volume)
    (hsafe : ShadowEvent.Safe S (.fill f m t)) :
    Audited (S.onFill f m t) (K.update m (LedgerEntry.take f.volume.toInt)) := by
  cases hso : S.orders m with
  | none =>
      rw [Ledger.update_absent (h.orders_eq_none hso)]
      exact h.congr (ShadowLOB.sameBook_onFill_none t hso)
  | some so =>
      refine Audited.congr ?_ (ShadowLOB.sameBook_onFill t hso)
      obtain ⟨o, ho, rfl, hlive, hbid, hprice, hrem, hcancelled, hfilled⟩ := h.orders_eq_some hso
      obtain ⟨pre, post, hK, hupdate⟩ := Ledger.split_at h.ids ho hlive
      have hpos := h.positive o ho hlive
      have hv' : 0 < f.volume.toInt := by simpa using Int64.lt_iff_toInt_lt.mp hv
      have hbounds := fits_toInt so.remainingVolume
      have hbounds' := fits_toInt f.volume
      unfold Fits at hbounds hbounds'
      have hsub : (so.remainingVolume - f.volume).toInt = o.remaining - f.volume.toInt := by
        rw [toInt_sub_of_fits ⟨by omega, by omega⟩, hrem]
      rw [hupdate]
      by_cases hdone : so.remainingVolume - f.volume ≤ 0
      · have hdone' : o.remaining - f.volume.toInt ≤ 0 := by
          rw [← hsub]
          simpa using Int64.le_iff_toInt_le.mp hdone
        rw [ShadowLOB.applyFill, if_pos hdone]
        refine h.close hK hlive rfl ?_ hbid hprice ?_ ?_
        · simp [LedgerEntry.take, LedgerEntry.isLive, hdone']
        · show (so.remainingVolume - f.volume).toInt ≤ o.remaining
          omega
        · intro level' hfind'
          rw [← hbid, ← hprice] at hfind'
          have := hsafe so hso level' hfind' (Int64.le_iff_toInt_le.mpr (by omega))
          show Fits (level'.totalVolume.toInt - (so.remainingVolume - f.volume).toInt)
          rw [hsub, ← hrem]
          exact this
      · have hleft : 0 < o.remaining - f.volume.toInt := by
          rw [← hsub]
          simpa using Int64.lt_iff_toInt_lt.mp (Int64.not_le.mp hdone)
        have htake : LedgerEntry.take f.volume.toInt o =
            { o with remaining := o.remaining - f.volume.toInt } := by
          have hstatus : o.status = .live := by simpa [LedgerEntry.isLive] using hlive
          rw [LedgerEntry.take, if_neg (by omega), ← hstatus]
        rw [ShadowLOB.applyFill, if_neg hdone, htake]
        exact h.reduce hK hlive hso hleft (by omega)
          ⟨hbid, hprice, hsub, hcancelled, hfilled⟩ rfl

theorem cancel (h : Audited S K) (id : UInt64) (liveSucceeded : Bool) (t : Int64) :
    Audited (S.onCancel id liveSucceeded t)
      (K.update id fun o => { o with status := .cancelled }) := by
  unfold ShadowLOB.onCancel
  cases hso : S.orders id with
  | none =>
      rw [Ledger.update_absent (h.orders_eq_none hso)]
      simp only
      split
      · exact h.congr (ShadowLOB.sameBook_report _ _)
      · exact h
  | some so =>
      obtain ⟨o, ho, rfl, hlive, hbid, hprice, hrem, hcancelled, hfilled⟩ := h.orders_eq_some hso
      obtain ⟨pre, post, hK, hupdate⟩ := Ledger.split_at h.ids ho hlive
      rw [hupdate]
      simp only
      rw [if_neg (by simp [hcancelled, hfilled])]
      refine h.close hK hlive rfl rfl hbid hprice hrem.le fun level hfind => ?_
      -- the level holds at least what the order has left
      obtain ⟨level', hfind', hholds⟩ := h.find_level ho hlive
      rw [hfind] at hfind'
      obtain rfl := Option.some.inj hfind'
      have hmem : o ∈ K.queue o.isBid o.priceFp := Ledger.mem_queue.mpr ⟨ho, hlive, rfl, rfl⟩
      obtain ⟨q, q', hq⟩ := List.append_of_mem hmem
      have hpos : ∀ y ∈ (K.queue o.isBid o.priceFp).map LedgerEntry.share, 0 < y.2 := by
        intro y hy
        obtain ⟨o₁, ho₁, rfl⟩ := List.mem_map.mp hy
        exact h.positive o₁ (Ledger.mem_queue.mp ho₁).1 (Ledger.mem_queue.mp ho₁).2.1
      rw [hq, List.map_append, List.map_cons] at hholds hpos
      refine hholds.fits_sub hpos ?_ hrem.le
      show 0 ≤ so.remainingVolume.toInt
      rw [hrem]
      exact (h.positive o ho hlive).le

theorem step (h : Audited S K) {e : ShadowEvent} (hlegal : e.Legal K) (hsafe : e.Safe S) :
    Audited (S.replay e) (K.record e) := by
  cases e with
  | limitAdd b p v id t => exact h.add hlegal.1 hlegal.2 hsafe.1 hsafe.2
  | fill f m t => exact h.fill hlegal hsafe
  | cancel id liveSucceeded t => exact h.cancel id liveSucceeded t

end Audited

end VidhiArena.GameMaster
