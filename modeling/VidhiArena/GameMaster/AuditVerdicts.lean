import VidhiArena.GameMaster.ShadowAudit

/-!
# The verdicts of the shadow audit

What `on_fill` logs, told from the ledger alone: a FIFO breach exactly when an
older order rests at the same price, a double fill exactly when the fill is one
too many. Summed over a run: an order with more fills than volume is reported.
-/

namespace VidhiArena.GameMaster

open VidhiArena.Foundation

/-! ## One call -/

namespace ShadowLOB

variable {S : ShadowLOB} {f : MatchedFill} {m : UInt64} {t : Int64}

theorem priceLog_type {v : Violation} (hv : v ∈ S.priceLog f m t) :
    v.type = .fillPriceInvalid := by
  unfold priceLog at hv
  split at hv
  · rw [List.mem_singleton.mp hv]
  · cases hv

theorem volumeLog_type {so : ShadowOrder} {v : Violation} (hv : v ∈ volumeLog so f m t) :
    v.type = .doubleFill ∧ v.orderId = m := by
  unfold volumeLog at hv
  split at hv
  · rw [List.mem_singleton.mp hv]
    exact ⟨rfl, rfl⟩
  · split at hv
    · rw [List.mem_singleton.mp hv]
      exact ⟨rfl, rfl⟩
    · cases hv

theorem fifoLog_type {so : ShadowOrder} {v : Violation} (hv : v ∈ S.fifoLog so m t) :
    v.type = .fifoPriorityBreach := by
  unfold fifoLog at hv
  split at hv
  · cases hv
  · rw [List.mem_singleton.mp hv]

theorem volumeLog_ne_nil {so : ShadowOrder} :
    volumeLog so f m t ≠ [] ↔ so.isCancelled = true ∨ so.remainingVolume < f.volume := by
  unfold volumeLog
  split
  · rename_i h
    simp [h]
  · rename_i h
    split
    · rename_i h'
      simp [h']
    · rename_i h'
      simp [h, h']

theorem fifoLog_ne_nil {so : ShadowOrder} :
    S.fifoLog so m t ≠ [] ↔ ∃ front, S.olderFront so m = some front := by
  unfold fifoLog
  cases S.olderFront so m with
  | none => simp
  | some front => simp

theorem fillLog_fifo : (∃ v ∈ S.fillLog f m t, v.type = .fifoPriorityBreach) ↔
    ∃ so, S.orders m = some so ∧ ∃ front, S.olderFront so m = some front := by
  constructor
  · rintro ⟨v, hv, htype⟩
    rcases List.mem_append.mp hv with hv | hv
    · rw [priceLog_type hv] at htype
      cases htype
    · unfold makerLog at hv
      cases hso : S.orders m with
      | none =>
          simp only [hso] at hv
          rw [List.mem_singleton.mp hv] at htype
          cases htype
      | some so =>
          simp only [hso] at hv
          rcases List.mem_append.mp hv with hv | hv
          · rw [(volumeLog_type hv).1] at htype
            cases htype
          · exact ⟨so, rfl, fifoLog_ne_nil.mp (List.ne_nil_of_mem hv)⟩
  · rintro ⟨so, hso, hfront⟩
    obtain ⟨v, hv⟩ := List.exists_mem_of_ne_nil _ ((fifoLog_ne_nil (t := t)).mpr hfront)
    refine ⟨v, List.mem_append_right _ ?_, fifoLog_type hv⟩
    simp only [makerLog, hso]
    exact List.mem_append_right _ hv

theorem fillLog_double : (∃ v ∈ S.fillLog f m t, v.type = .doubleFill ∧ v.orderId = m) ↔
    S.orders m = none ∨ ∃ so, S.orders m = some so ∧
      (so.isCancelled = true ∨ so.remainingVolume < f.volume) := by
  constructor
  · rintro ⟨v, hv, htype, -⟩
    rcases List.mem_append.mp hv with hv | hv
    · rw [priceLog_type hv] at htype
      cases htype
    · unfold makerLog at hv
      cases hso : S.orders m with
      | none => exact Or.inl rfl
      | some so =>
          simp only [hso] at hv
          rcases List.mem_append.mp hv with hv | hv
          · exact Or.inr ⟨so, rfl, (volumeLog_ne_nil (t := t)).mp (List.ne_nil_of_mem hv)⟩
          · rw [fifoLog_type hv] at htype
            cases htype
  · rintro (hso | ⟨so, hso, hbad⟩)
    · refine ⟨⟨.doubleFill, t, m, .unknownFill⟩, List.mem_append_right _ ?_, rfl, rfl⟩
      simp only [makerLog, hso]
      exact List.mem_singleton_self _
    · obtain ⟨v, hv⟩ := List.exists_mem_of_ne_nil _ ((volumeLog_ne_nil (m := m) (t := t)).mpr hbad)
      refine ⟨v, List.mem_append_right _ ?_, volumeLog_type hv⟩
      simp only [makerLog, hso]
      exact List.mem_append_left _ hv

theorem fillLog_double_maker {v : Violation} (hv : v ∈ S.fillLog f m t)
    (htype : v.type = .doubleFill) : v.orderId = m := by
  rcases List.mem_append.mp hv with hv | hv
  · rw [priceLog_type hv] at htype
    cases htype
  · unfold makerLog at hv
    cases hso : S.orders m with
    | none =>
        simp only [hso] at hv
        rw [List.mem_singleton.mp hv]
    | some so =>
        simp only [hso] at hv
        rcases List.mem_append.mp hv with hv | hv
        · exact (volumeLog_type hv).2
        · rw [fifoLog_type hv] at htype
          cases htype

/-- The call that took `S` to `S'` logged a violation of this type. -/
def Records (S S' : ShadowLOB) (type : ViolationType) : Prop :=
  ∃ v ∈ S'.violations.drop S.violations.length, v.type = type

theorem records_onFill {type : ViolationType}
    (hroom : ShadowEvent.HasRoom S (.fill f m t)) :
    Records S (S.onFill f m t) type ↔ ∃ v ∈ S.fillLog f m t, v.type = type := by
  rw [Records, onFill_violations hroom, List.drop_left]

end ShadowLOB

/-! ## The call seen from the ledger -/

namespace Audited

variable {S : ShadowLOB} {K : Ledger} {m : UInt64}

theorem frontId_eq (h : Audited S K) {o : LedgerEntry} {so : ShadowOrder} (ho : o ∈ K)
    (hlive : o.isLive = true) (hkeeps : so.Keeps o) :
    S.frontId so = (K.queue o.isBid o.priceFp).head?.map LedgerEntry.orderId := by
  obtain ⟨level, hfind, hids, -⟩ := h.find_level ho hlive
  rw [ShadowLOB.frontId, hkeeps.1, hkeeps.2.1, hfind, Option.bind_some, hids, List.map_map,
    List.head?_map]
  rfl

/-- An older order rests at the price of `o`: another order is in front. -/
theorem hasOlder_iff (h : Audited S K) {o : LedgerEntry} (ho : o ∈ K) (hlive : o.isLive = true) :
    K.HasOlder o.orderId ↔
      ∃ o', (K.queue o.isBid o.priceFp).head? = some o' ∧ o'.orderId ≠ o.orderId := by
  constructor
  · rintro ⟨pre, o₁, post, rfl, hid, hlive₁, o', ho', hrests⟩
    obtain rfl : o₁ = o := Ledger.eq_of_orderId h.ids (by simp) ho hid
    have hne := Ledger.ne_of_middle h.ids
    cases hq : Ledger.queue pre o₁.isBid o₁.priceFp with
    | nil =>
        have := List.mem_filter.mpr ⟨ho', hrests⟩
        rw [Ledger.queue] at hq
        rw [hq] at this
        cases this
    | cons o₂ q =>
        refine ⟨o₂, by rw [Ledger.queue_append, hq]; rfl, hne o₂ (List.mem_append_left _ ?_)⟩
        have : o₂ ∈ Ledger.queue pre o₁.isBid o₁.priceFp := hq ▸ List.mem_cons_self
        exact (Ledger.mem_queue.mp this).1
  · rintro ⟨o', hhead, hne⟩
    obtain ⟨pre, post, rfl⟩ := List.append_of_mem ho
    have hrests : o.restsAt o.isBid o.priceFp = true := by simp [LedgerEntry.restsAt, hlive]
    rw [Ledger.queue_append, Ledger.queue_cons_of_pos hrests] at hhead
    cases hq : Ledger.queue pre o.isBid o.priceFp with
    | nil =>
        rw [hq, List.nil_append, List.head?_cons] at hhead
        obtain rfl := Option.some.inj hhead
        exact absurd rfl hne
    | cons o₂ q =>
        have hmem : o₂ ∈ Ledger.queue pre o.isBid o.priceFp := hq ▸ List.mem_cons_self
        exact ⟨pre, o, post, rfl, rfl, hlive, o₂, (List.mem_filter.mp hmem).1,
          (List.mem_filter.mp hmem).2⟩

theorem front_older (h : Audited S K) {o o' : LedgerEntry} (ho : o ∈ K) (hlive : o.isLive = true)
    (hhead : (K.queue o.isBid o.priceFp).head? = some o') (hne : o'.orderId ≠ o.orderId) :
    S.seqOf o'.orderId < S.seqOf o.orderId := by
  have hmem : o ∈ K.queue o.isBid o.priceFp := Ledger.mem_queue.mpr ⟨ho, hlive, rfl, rfl⟩
  have hsub : (K.queue o.isBid o.priceFp).Sublist (K.filter LedgerEntry.isLive) := by
    refine List.monotone_filter_right K fun o₁ hrests => ?_
    simp only [LedgerEntry.restsAt, Bool.and_eq_true] at hrests
    exact hrests.1.1
  have hseqs := h.seqs.sublist hsub
  cases hq : K.queue o.isBid o.priceFp with
  | nil =>
      rw [hq] at hmem
      cases hmem
  | cons o₂ q =>
      rw [hq] at hmem hhead hseqs
      obtain rfl := Option.some.inj hhead
      rcases List.mem_cons.mp hmem with rfl | hmem
      · exact absurd rfl hne
      · exact (List.pairwise_cons.mp hseqs).1 o hmem

theorem fifo_iff (h : Audited S K) :
    (∃ so, S.orders m = some so ∧ ∃ front, S.olderFront so m = some front) ↔ K.HasOlder m := by
  constructor
  · rintro ⟨so, hso, front, hfront⟩
    obtain ⟨o, ho, rfl, hlive, hkeeps⟩ := h.orders_eq_some hso
    rw [h.hasOlder_iff ho hlive]
    rw [ShadowLOB.olderFront, h.frontId_eq ho hlive hkeeps] at hfront
    cases hhead : (K.queue o.isBid o.priceFp).head? with
    | none =>
        rw [hhead] at hfront
        cases hfront
    | some o' =>
        refine ⟨o', rfl, fun heq => ?_⟩
        rw [hhead, Option.map_some] at hfront
        simp only [if_pos heq] at hfront
        cases hfront
  · intro hold
    obtain ⟨pre, o, post, hK, rfl, hlive, -⟩ := id hold
    have ho : o ∈ K := hK ▸ by simp
    obtain ⟨so, hso, hkeeps⟩ := h.known o ho hlive
    obtain ⟨o', hhead, hne⟩ := (h.hasOlder_iff ho hlive).mp hold
    have hmem : o' ∈ K.queue o.isBid o.priceFp := List.mem_of_mem_head? hhead
    obtain ⟨ho', hlive', -⟩ := Ledger.mem_queue.mp hmem
    obtain ⟨so', hso', hkeeps'⟩ := h.known o' ho' hlive'
    have hseq := h.front_older ho hlive hhead hne
    rw [ShadowLOB.seqOf, ShadowLOB.seqOf, hso, hso'] at hseq
    refine ⟨so, hso, o'.orderId, ?_⟩
    rw [ShadowLOB.olderFront, h.frontId_eq ho hlive hkeeps, hhead]
    simp only [Option.map_some, if_neg hne, hso']
    rw [if_pos ⟨UInt64.lt_iff_toNat_lt.mpr hseq, hkeeps'.2.2.2.1⟩]

theorem overfill_iff (h : Audited S K) {v : Int64} :
    (S.orders m = none ∨ ∃ so, S.orders m = some so ∧
      (so.isCancelled = true ∨ so.remainingVolume < v)) ↔ K.Overfills m v.toInt := by
  constructor
  · rintro (hso | ⟨so, hso, hbad⟩)
    · by_cases hmem : m ∈ K.map LedgerEntry.orderId
      · obtain ⟨o, ho, rfl⟩ := List.mem_map.mp hmem
        have hdead := h.orders_eq_none hso o ho rfl
        refine Or.inr (Or.inl ⟨o, ho, rfl, ?_⟩)
        cases hst : o.status with
        | live => simp [LedgerEntry.isLive, hst] at hdead
        | filled => exact Or.inl rfl
        | cancelled => exact Or.inr rfl
      · exact Or.inl hmem
    · obtain ⟨o, ho, rfl, hlive, -, -, hrem, hcancelled, -⟩ := h.orders_eq_some hso
      rw [hcancelled] at hbad
      have hlt : so.remainingVolume < v := by simpa using hbad
      refine Or.inr (Or.inr ⟨o, ho, rfl, hlive, ?_⟩)
      rw [← hrem]
      exact Int64.lt_iff_toInt_lt.mp hlt
  · rintro (hmem | ⟨o, ho, rfl, hclosed⟩ | ⟨o, ho, rfl, hlive, hlt⟩)
    · refine Or.inl (h.closed m fun o ho hid => ?_)
      exact absurd (hid ▸ List.mem_map_of_mem ho) hmem
    · refine Or.inl (h.closed _ fun o' ho' hid => ?_)
      obtain rfl := Ledger.eq_of_orderId h.ids ho' ho hid
      rcases hclosed with hst | hst
      · simp [LedgerEntry.isLive, hst]
      · simp [LedgerEntry.isLive, hst]
    · obtain ⟨so, hso, -, -, hrem, -⟩ := h.known o ho hlive
      refine Or.inr ⟨so, hso, Or.inr (Int64.lt_iff_toInt_lt.mpr ?_)⟩
      rwa [hrem]

end Audited

/-! ## Runs -/

/-- What was reported as filled on order `m`. -/
def ShadowEvent.filledOn (m : UInt64) : ShadowEvent → Int
  | .fill f makerId _ => if makerId = m then f.volume.toInt else 0
  | _ => 0

def filledVolume (events : List ShadowEvent) (m : UInt64) : Int :=
  (events.map (ShadowEvent.filledOn m)).sum

namespace Audit

theorem foldl_step (events : List ShadowEvent) : ∀ S K,
    events.foldl step (S, K) =
      (events.foldl ShadowLOB.replay S, events.foldl Ledger.record K) := by
  induction events with
  | nil => exact fun _ _ => rfl
  | cons e events ih =>
      intro S K
      exact ih _ _

theorem run_eq (events : List ShadowEvent) :
    events.foldl step (ShadowLOB.init, []) = (ShadowLOB.run events, Ledger.run events) :=
  foldl_step events _ _

/-- Every admitted run keeps the shadow and the ledger together. -/
theorem audited_run {events : List ShadowEvent}
    (hadm : Along step Admits (ShadowLOB.init, []) events) :
    Audited (ShadowLOB.run events) (Ledger.run events) := by
  have hinv := foldl_inv (fun a : Audit => Audited a.1 a.2)
    (fun _ _ ha hadm => ha.step hadm.1 hadm.2.1) events _ audited_init hadm
  rwa [run_eq] at hinv

variable {events : List ShadowEvent} {m : UInt64}

/-- While no double fill of `m` is logged, the fills on `m` are what it has lost. -/
def Balanced (m : UInt64) (events : List ShadowEvent) : Prop :=
  (m ∉ (Ledger.run events).map LedgerEntry.orderId → filledVolume events m = 0) ∧
    ∀ o ∈ Ledger.run events, o.orderId = m →
      filledVolume events m + o.remaining = o.original ∧ 0 ≤ o.remaining

theorem filledVolume_snoc (events : List ShadowEvent) (e : ShadowEvent) (m : UInt64) :
    filledVolume (events ++ [e]) m = filledVolume events m + e.filledOn m := by
  simp [filledVolume]

theorem ledger_run_snoc (events : List ShadowEvent) (e : ShadowEvent) :
    Ledger.run (events ++ [e]) = (Ledger.run events).record e := by
  simp [Ledger.run]

theorem shadow_run_snoc (events : List ShadowEvent) (e : ShadowEvent) :
    ShadowLOB.run (events ++ [e]) = (ShadowLOB.run events).replay e := by
  simp [ShadowLOB.run]

theorem Balanced.record {e : ShadowEvent} (h : Balanced m events)
    (habsent : m ∉ (Ledger.run events).map LedgerEntry.orderId → e.filledOn m = 0)
    (hentry : ∀ o' ∈ (Ledger.run events).record e, o'.orderId = m →
      (∃ o ∈ Ledger.run events, o.orderId = m ∧ o'.original = o.original ∧
        o'.remaining = o.remaining - e.filledOn m ∧ e.filledOn m ≤ o.remaining) ∨
      (m ∉ (Ledger.run events).map LedgerEntry.orderId ∧ o'.remaining = o'.original ∧
        0 ≤ o'.remaining))
    (hids : ∀ o ∈ Ledger.run events, ∃ o' ∈ (Ledger.run events).record e,
      o'.orderId = o.orderId) :
    Balanced m (events ++ [e]) := by
  rw [Balanced, ledger_run_snoc, filledVolume_snoc]
  refine ⟨fun hmem => ?_, fun o' ho' hm => ?_⟩
  · have hmem' : m ∉ (Ledger.run events).map LedgerEntry.orderId := by
      rintro hin
      obtain ⟨o, ho, rfl⟩ := List.mem_map.mp hin
      obtain ⟨o', ho', heq⟩ := hids o ho
      exact hmem (heq ▸ List.mem_map_of_mem ho')
    rw [h.1 hmem', habsent hmem', zero_add]
  · rcases hentry o' ho' hm with ⟨o, ho, hom, horiginal, hrem, hle⟩ | ⟨hmem, hrem, hnonneg⟩
    · have := h.2 o ho hom
      omega
    · rw [h.1 hmem, habsent hmem]
      omega

theorem mem_update {K : Ledger} {id : UInt64} {g : LedgerEntry → LedgerEntry} {o' : LedgerEntry}
    (ho' : o' ∈ K.update id g) :
    o' ∈ K ∨ ∃ o ∈ K, o.orderId = id ∧ o.isLive = true ∧ o' = g o := by
  obtain ⟨o, ho, rfl⟩ := List.mem_map.mp ho'
  split
  · rename_i h
    exact Or.inr ⟨o, ho, h.1, h.2, rfl⟩
  · exact Or.inl ho

theorem exists_mem_update {K : Ledger} {id : UInt64} {g : LedgerEntry → LedgerEntry}
    (hg : ∀ o, (g o).orderId = o.orderId) :
    ∀ o ∈ K, ∃ o' ∈ K.update id g, o'.orderId = o.orderId := by
  intro o ho
  have : o.orderId ∈ (K.update id g).map LedgerEntry.orderId := by
    rw [Ledger.map_update_orderId hg]
    exact List.mem_map_of_mem ho
  exact List.mem_map.mp this

/-- A fill that is not one too many is on a live order with as much left. -/
theorem live_of_not_overfills {K : Ledger} {v : Int} (h : ¬ K.Overfills m v) :
    m ∈ K.map LedgerEntry.orderId ∧
      ∀ o ∈ K, o.orderId = m → o.isLive = true ∧ v ≤ o.remaining := by
  simp only [Ledger.Overfills, not_or, not_not] at h
  obtain ⟨hmem, hclosed, hover⟩ := h
  refine ⟨hmem, fun o ho hm => ?_⟩
  have hlive : o.isLive = true := by
    cases hst : o.status with
    | live => simp [LedgerEntry.isLive, hst]
    | filled => exact absurd ⟨o, ho, hm, Or.inl hst⟩ hclosed
    | cancelled => exact absurd ⟨o, ho, hm, Or.inr hst⟩ hclosed
  exact ⟨hlive, not_lt.mp fun hlt => hover ⟨o, ho, hm, hlive, hlt⟩⟩

theorem violations_grow {S : ShadowLOB} {e : ShadowEvent} (hroom : e.HasRoom S) :
    S.violations <+: (S.replay e).violations := by
  cases e with
  | limitAdd b p v id t => rw [ShadowLOB.replay, ShadowLOB.onLimitAdd_violations]
  | fill f m t =>
      rw [ShadowLOB.replay, ShadowLOB.onFill_violations hroom]
      exact List.prefix_append _ _
  | cancel id ok t => exact ShadowLOB.onCancel_violations_grow _ _ _ _

/-- More fills than volume are reported: until a double fill of `m` is logged,
the fills on `m` add up to what it has lost. -/
theorem balanced_run (m : UInt64) (events : List ShadowEvent)
    (hadm : Along step Admits (ShadowLOB.init, []) events)
    (hquiet : ∀ v ∈ (ShadowLOB.run events).violations, v.type = .doubleFill → v.orderId ≠ m) :
    Balanced m events := by
  induction events using List.reverseRecOn with
  | nil => exact ⟨fun _ => rfl, fun _ ho => absurd ho List.not_mem_nil⟩
  | append_singleton events e ih =>
      obtain ⟨hpre, hstep⟩ := along_append.mp hadm
      rw [run_eq] at hstep
      obtain ⟨⟨hlegal, -, hroom⟩, -⟩ := hstep
      have haudit := audited_run hpre
      rw [shadow_run_snoc] at hquiet
      have hbal := ih hpre fun v hv =>
        hquiet v ((violations_grow hroom).subset hv)
      cases e with
      | limitAdd b p v id t =>
          refine hbal.record (fun _ => rfl) (fun o' ho' hm => ?_) fun o ho =>
            ⟨o, List.mem_append_left _ ho, rfl⟩
          rcases List.mem_append.mp ho' with ho' | ho'
          · refine Or.inl ⟨o', ho', hm, rfl, (sub_zero _).symm, ?_⟩
            exact (hbal.2 o' ho' hm).2
          · obtain rfl := List.mem_singleton.mp ho'
            have hv : 0 < v.toInt := by simpa using Int64.lt_iff_toInt_lt.mp hlegal.1
            exact Or.inr ⟨hm ▸ hlegal.2, rfl, hv.le⟩
      | fill f maker t =>
          have hids : ∀ o : LedgerEntry, (o.take f.volume.toInt).orderId = o.orderId :=
            fun _ => rfl
          by_cases hmaker : maker = m
          · subst hmaker
            -- the call logs no double fill, so the fill is within what is left
            have hok : ¬ (Ledger.run events).Overfills maker f.volume.toInt := by
              rw [← haudit.overfill_iff, ← ShadowLOB.fillLog_double (t := t)]
              rintro ⟨v, hv, htype, hm⟩
              refine hquiet v ?_ htype hm
              rw [ShadowLOB.replay, ShadowLOB.onFill_violations hroom]
              exact List.mem_append_right _ hv
            obtain ⟨hmem, hlive⟩ := live_of_not_overfills hok
            refine hbal.record (fun habs => absurd hmem habs) (fun o' ho' hm => ?_)
              (exists_mem_update hids)
            obtain ⟨o, ho, rfl⟩ := List.mem_map.mp ho'
            by_cases hhit : o.orderId = maker
            · rw [if_pos ⟨hhit, (hlive o ho hhit).1⟩]
              refine Or.inl ⟨o, ho, hhit, rfl, ?_, ?_⟩
              · simp [ShadowEvent.filledOn, LedgerEntry.take]
              · simpa [ShadowEvent.filledOn] using (hlive o ho hhit).2
            · rw [if_neg fun h => hhit h.1] at hm
              exact absurd hm hhit
          · have hzero : ShadowEvent.filledOn m (.fill f maker t) = 0 := if_neg hmaker
            refine hbal.record (fun _ => hzero) (fun o' ho' hm => Or.inl ?_)
              (exists_mem_update hids)
            rw [hzero]
            rcases mem_update ho' with ho' | ⟨o, ho, hid, -, rfl⟩
            · exact ⟨o', ho', hm, rfl, (sub_zero _).symm, (hbal.2 o' ho' hm).2⟩
            · exact absurd (hid.symm.trans hm) hmaker
      | cancel id ok t =>
          refine hbal.record (fun _ => rfl) (fun o' ho' hm => Or.inl ?_)
            (exists_mem_update fun _ => rfl)
          rcases mem_update ho' with ho' | ⟨o, ho, hid, -, rfl⟩
          · exact ⟨o', ho', hm, rfl, (sub_zero _).symm, (hbal.2 o' ho' hm).2⟩
          · exact ⟨o, ho, hm, rfl, (sub_zero _).symm, (hbal.2 o ho hm).2⟩

end Audit

/-! ## The audit is exact -/

/-- The shadow audit is exact. In every stream of legal events along which no
64-bit counter of the shadow wraps, while the log has room: a fill records a FIFO
breach iff its maker is live and an older order is live at its side and price, a
double fill iff it is one too many; and an order on which more was filled than it
ever had has a double fill in the log. -/
theorem shadow_audit_exact (events : List ShadowEvent)
    (hadm : Along Audit.step Audit.Admits (ShadowLOB.init, []) events) :
    (∀ pre f m t post, events = pre ++ ShadowEvent.fill f m t :: post →
      ((ShadowLOB.run pre).Records ((ShadowLOB.run pre).onFill f m t) .fifoPriorityBreach ↔
        (Ledger.run pre).HasOlder m) ∧
      ((ShadowLOB.run pre).Records ((ShadowLOB.run pre).onFill f m t) .doubleFill ↔
        (Ledger.run pre).Overfills m f.volume.toInt)) ∧
    ∀ o ∈ Ledger.run events, o.original < filledVolume events o.orderId →
      ∃ v ∈ (ShadowLOB.run events).violations, v.type = .doubleFill ∧ v.orderId = o.orderId := by
  refine ⟨?_, ?_⟩
  · rintro pre f m t post rfl
    obtain ⟨hpre, hstep⟩ := along_append.mp hadm
    rw [Audit.run_eq] at hstep
    have hroom := hstep.1.2.2
    have haudit := Audit.audited_run hpre
    refine ⟨?_, ?_⟩
    · rw [ShadowLOB.records_onFill hroom, ShadowLOB.fillLog_fifo, haudit.fifo_iff]
    · rw [ShadowLOB.records_onFill hroom, ← haudit.overfill_iff,
        ← ShadowLOB.fillLog_double (t := t)]
      constructor
      · rintro ⟨v, hv, htype⟩
        exact ⟨v, hv, htype, ShadowLOB.fillLog_double_maker hv htype⟩
      · rintro ⟨v, hv, htype, -⟩
        exact ⟨v, hv, htype⟩
  · intro o ho hover
    by_contra hnone
    have hbal := Audit.balanced_run o.orderId events hadm fun v hv htype hid =>
      hnone ⟨v, hv, htype, hid⟩
    have := hbal.2 o ho rfl
    omega

/-- A sale to the bid of `maker`, both by bots. -/
def saleTo (maker : UInt64) (volume : Int64) : MatchedFill :=
  ⟨100, volume, 2, 1, maker, false, false, false⟩

/-- Two orders at one price; the second is filled first, then the first is overfilled. -/
def queueJump : List ShadowEvent :=
  [.limitAdd true 100 10 1 0, .limitAdd true 100 10 2 0,
    .fill (saleTo 2 4) 2 1, .fill (saleTo 1 11) 1 1]

theorem shadow_audit_exact_queue_jump :
    Along Audit.step Audit.Admits (ShadowLOB.init, []) queueJump ∧
      ((ShadowLOB.run (queueJump.take 2)).Records
        ((ShadowLOB.run (queueJump.take 2)).onFill (saleTo 2 4) 2 1) .fifoPriorityBreach ↔
          (Ledger.run (queueJump.take 2)).HasOlder 2) ∧
      ∃ v ∈ (ShadowLOB.run queueJump).violations, v.type = .doubleFill ∧ v.orderId = 1 := by
  have hadm : Along Audit.step Audit.Admits (ShadowLOB.init, []) queueJump := by decide +kernel
  obtain ⟨hfills, hover⟩ := shadow_audit_exact queueJump hadm
  refine ⟨hadm, (hfills (queueJump.take 2) _ _ _ _ rfl).1, ?_⟩
  exact hover ⟨1, true, 100, 10, -1, .filled⟩ (by decide +kernel) (by decide +kernel)

/-- Two orders of `2^62` wrap the total of their level: when the first has been
filled, the level is erased with the second order still live. -/
def wrappedLevel : List ShadowEvent :=
  [.limitAdd true 100 (2 ^ 62) 1 0, .limitAdd true 100 (2 ^ 62) 2 0,
    .fill (saleTo 1 (2 ^ 62)) 1 1, .limitAdd true 100 10 3 2]

/-- The audit misses a breach: order 3 is filled before the older order 2, and
nothing is recorded. -/
theorem shadow_audit_misses_breach :
    Along Audit.step (fun a e => e.Legal a.2 ∧ e.HasRoom a.1) (ShadowLOB.init, [])
        (wrappedLevel ++ [.fill (saleTo 3 5) 3 3]) ∧
      (Ledger.run wrappedLevel).HasOlder 3 ∧
      ¬ (ShadowLOB.run wrappedLevel).Records
        ((ShadowLOB.run wrappedLevel).onFill (saleTo 3 5) 3 3) .fifoPriorityBreach := by
  refine ⟨by decide +kernel, ?_, by unfold ShadowLOB.Records; decide +kernel⟩
  refine ⟨[⟨1, true, 100, 2 ^ 62, 0, .filled⟩, ⟨2, true, 100, 2 ^ 62, 2 ^ 62, .live⟩],
    ⟨3, true, 100, 10, 10, .live⟩, [], by decide +kernel, rfl, rfl,
    ⟨2, true, 100, 2 ^ 62, 2 ^ 62, .live⟩, by simp, rfl⟩

end VidhiArena.GameMaster
