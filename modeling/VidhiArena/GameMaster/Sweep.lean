import VidhiArena.GameMaster.Arrivals
import VidhiArena.GameMaster.PositiveVolumes

/-!
# What a market order consumes

`market_order` over positive volumes, as a whole: the orders of the other side in the
order of price and then of arrival lose a prefix (`Consumed`), long enough to reach the
volume that is asked for and no longer (`Swept`). The proof is one induction over the
rounds of the naive book; `Traced` carries it to the memory after any run.
-/

namespace VidhiArena.GameMaster

open VidhiArena.Foundation

namespace Book

/-- The orders of one side in the order in which a market order meets them, with their prices. -/
def offers (ls : List BookLevel) : List (Int64 × RestingOrder) :=
  ls.flatMap fun lv => lv.queue.map fun o => (lv.priceFp, o)

/-- The fill that takes all of an order. -/
def wholeFill (isBuy : Bool) (taker : ParticipantID) (x : Int64 × RestingOrder) : MatchedFill :=
  fillOf isBuy taker x.1 x.2.volume x.2

/-- The fills take a prefix of the orders: every order of it whole, or every one but the last,
which keeps its place with the rest of its volume. -/
inductive Consumed (isBuy : Bool) (taker : ParticipantID) :
    List (Int64 × RestingOrder) → List MatchedFill → List (Int64 × RestingOrder) → Prop
  | whole (taken rest : List (Int64 × RestingOrder)) :
      Consumed isBuy taker (taken ++ rest) (taken.map (wholeFill isBuy taker)) rest
  | part (taken rest : List (Int64 × RestingOrder)) (p : Int64) (o : RestingOrder) (w : Int64) :
      0 < w → w < o.volume →
      Consumed isBuy taker (taken ++ (p, o) :: rest)
        (taken.map (wholeFill isBuy taker) ++ [fillOf isBuy taker p w o])
        ((p, { o with volume := o.volume - w }) :: rest)

/-- A market order of volume `v`, to the unit: what book `B` yields and what it becomes. -/
structure Swept (isBuy : Bool) (taker : ParticipantID) (v : Int64) (B : Book)
    (fs : List MatchedFill) (B' : Book) : Prop where
  consumed : Consumed isBuy taker (offers (B.side !isBuy)) fs (offers (B'.side !isBuy))
  total : exactFilled fs = min v.toInt (exactVolume (priority (B.side !isBuy)))
  needed : ∀ pre, pre <+: fs → pre ≠ fs → exactFilled pre < v.toInt
  prices : (B'.side !isBuy).map BookLevel.priceFp <:+ (B.side !isBuy).map BookLevel.priceFp
  emptied : ∀ lv ∈ B'.side !isBuy, lv.queue = [] → lv ∈ B.side !isBuy
  other : B'.side isBuy = B.side isBuy

/-! ## One order more -/

section Rounds

variable {isBuy : Bool} {taker : ParticipantID} {os rest : List (Int64 × RestingOrder)}
  {fs : List MatchedFill}

theorem Consumed.cons (h : Consumed isBuy taker os fs rest) (x : Int64 × RestingOrder) :
    Consumed isBuy taker (x :: os) (wholeFill isBuy taker x :: fs) rest := by
  cases h with
  | whole taken rest => exact Consumed.whole (x :: taken) rest
  | part taken rest p o w hw hlt => exact Consumed.part (x :: taken) rest p o w hw hlt

theorem Consumed.nil (h : Consumed isBuy taker os [] rest) : rest = os := by
  generalize hfs : ([] : List MatchedFill) = fs at h
  cases h with
  | whole taken rest =>
      rw [List.map_eq_nil_iff.mp hfs.symm, List.nil_append]
  | part taken rest p o w hw hlt =>
      exact absurd hfs.symm (by simp)

theorem offers_cons (p : Int64) (q : List RestingOrder) (ls : List BookLevel) :
    offers (⟨p, q⟩ :: ls) = q.map (fun o => (p, o)) ++ offers ls := rfl

theorem offers_keepLevel (p : Int64) (q : List RestingOrder) (ls : List BookLevel) :
    offers (keepLevel p q ++ ls) = q.map (fun o => (p, o)) ++ offers ls := by
  unfold keepLevel
  split
  · rename_i h
    rw [h]
    rfl
  · rfl

theorem keepLevel_prices_suffix (p : Int64) (q q' : List RestingOrder) (ls : List BookLevel) :
    (keepLevel p q ++ ls).map BookLevel.priceFp <:+
      ((⟨p, q'⟩ : BookLevel) :: ls).map BookLevel.priceFp := by
  unfold keepLevel
  split
  · exact List.suffix_cons _ _
  · exact List.suffix_refl _

theorem mem_of_keepLevel {p : Int64} {q : List RestingOrder} {ls : List BookLevel} {lv : BookLevel}
    (h : lv ∈ keepLevel p q ++ ls) (hempty : lv.queue = []) : lv ∈ ls := by
  rcases List.mem_append.mp h with h | h
  · exact absurd hempty (keepLevel_queue h)
  · exact h

end Rounds

/-! ## The rounds -/

section Sweep

variable {isBuy : Bool} {taker : ParticipantID} {B B' : Book} {r p : Int64} {o : RestingOrder}
  {q : List RestingOrder} {ls : List BookLevel} {fs : List MatchedFill}

theorem exactFilled_cons (x : MatchedFill) (fs : List MatchedFill) :
    exactFilled (x :: fs) = x.volume.toInt + exactFilled fs := by
  rw [exactFilled, List.map_cons, List.sum_cons]
  rfl

theorem setSide_other (B : Book) (b : Bool) (ls : List BookLevel) :
    (B.setSide (!b) ls).side b = B.side b := by cases b <;> rfl

theorem fillHead_other (B : Book) (isBuy : Bool) (p : Int64) (o : RestingOrder)
    (q : List RestingOrder) (ls : List BookLevel) (fillVol : Int64) :
    (B.fillHead isBuy p o q ls fillVol).side isBuy = B.side isBuy := by cases isBuy <;> rfl

theorem Swept.done (hpos : ∀ o ∈ priority (B.side !isBuy), 0 < o.volume) (hr : 0 ≤ r)
    (h : ¬ 0 < r ∨ B.side (!isBuy) = []) : Swept isBuy taker r B [] B := by
  have hzero : min r.toInt (exactVolume (priority (B.side !isBuy))) = 0 := by
    rw [Int64.le_iff_toInt_le, Int64.toInt_zero] at hr
    rcases h with h | h
    · rw [toInt_pos, not_lt] at h
      rw [le_antisymm h hr]
      exact min_eq_left (exactVolume_nonneg hpos)
    · rw [h]
      exact min_eq_right hr
  exact {
    consumed := Consumed.whole [] _
    total := hzero.symm
    needed := fun pre hpre hne => absurd (List.prefix_nil.mp hpre) hne
    prices := List.suffix_refl _
    emptied := fun lv hlv _ => hlv
    other := rfl }

theorem Swept.empty (hside : B.side (!isBuy) = ⟨p, []⟩ :: ls)
    (h : Swept isBuy taker r (B.setSide (!isBuy) ls) fs B') : Swept isBuy taker r B fs B' := by
  obtain ⟨hconsumed, htotal, hneeded, hprices, hemptied, hother⟩ := h
  rw [side_setSide] at hconsumed htotal hprices hemptied
  refine ⟨?_, ?_, hneeded, ?_, ?_, ?_⟩
  · rw [hside, offers_cons]
    exact hconsumed
  · rw [hside, priority_cons]
    exact htotal
  · rw [hside]
    exact hprices.trans (List.suffix_cons _ _)
  · intro lv hlv hq
    rw [hside]
    exact List.mem_cons_of_mem _ (hemptied lv hlv hq)
  · rw [hother, setSide_other]

theorem exactVolume_afterFill (hr : 0 < r) (ho : 0 < o.volume) :
    exactVolume (afterFill o q (min r o.volume)) =
      o.volume.toInt - (min r o.volume).toInt + exactVolume q := by
  obtain ⟨hmin, -, hle⟩ := min_between hr ho
  have hleft := toInt_sub_between hmin hle
  unfold afterFill
  split
  · rename_i hfull
    rw [hfull, Int64.toInt_zero] at hleft
    omega
  · rw [exactVolume_cons]
    exact congrArg (· + exactVolume q) hleft

/-- The maker is taken whole and matching goes on, or it is taken in part and matching is over. -/
theorem Consumed.round {rest : List (Int64 × RestingOrder)} (hr : 0 < r)
    (hmore : fs ≠ [] → 0 < r - min r o.volume)
    (h : Consumed isBuy taker (offers (keepLevel p (afterFill o q (min r o.volume)) ++ ls)) fs rest) :
    Consumed isBuy taker (offers (⟨p, o :: q⟩ :: ls))
      (fillOf isBuy taker p (min r o.volume) o :: fs) rest := by
  rw [offers_keepLevel] at h
  rw [offers_cons, List.map_cons, List.cons_append]
  by_cases hfull : o.volume - min r o.volume = 0
  · have hall : min r o.volume = o.volume := by grind
    rw [afterFill, if_pos hfull] at h
    rw [hall]
    exact h.cons (p, o)
  · obtain ⟨hmin, hlt⟩ := min_of_survivor hfull
    have hover : fs = [] := by
      by_contra hne
      have hleft := hmore hne
      rw [remaining_of_survivor hfull] at hleft
      exact absurd hleft (by decide)
    rw [hover] at h ⊢
    rw [h.nil, afterFill, if_neg hfull, hmin]
    exact Consumed.part [] _ p o r hr hlt

/-- A fill against the head of the best level, and the rest of the order after it. -/
theorem Swept.round (hside : B.side (!isBuy) = ⟨p, o :: q⟩ :: ls) (hr : 0 < r)
    (ho : 0 < o.volume)
    (h : Swept isBuy taker (r - min r o.volume) (B.fillHead isBuy p o q ls (min r o.volume)) fs B') :
    Swept isBuy taker r B (fillOf isBuy taker p (min r o.volume) o :: fs) B' := by
  obtain ⟨hconsumed, htotal, hneeded, hprices, hemptied, hother⟩ := h
  obtain ⟨hmin, hle, -⟩ := min_between hr ho
  have hleft := toInt_sub_between hmin hle
  rw [fillHead_side] at hconsumed htotal hprices hemptied
  rw [priority_keepLevel, exactVolume_append, exactVolume_afterFill hr ho] at htotal
  rw [hleft] at htotal hneeded
  refine ⟨?_, ?_, ?_, ?_, ?_, ?_⟩
  · rw [hside]
    refine hconsumed.round hr fun hne => ?_
    have hpos := hneeded [] List.nil_prefix (Ne.symm hne)
    rw [toInt_pos, hleft]
    exact hpos
  · rw [hside, priority_cons, exactVolume_append, exactVolume_cons, exactFilled_cons, htotal]
    change (min r o.volume).toInt + _ = _
    omega
  · intro pre hpre hne
    cases pre with
    | nil => exact toInt_pos.mp hr
    | cons x pre =>
        obtain ⟨rfl, hrest⟩ := List.cons_prefix_cons.mp hpre
        have hlt := hneeded pre hrest fun heq => hne (congrArg _ heq)
        rw [exactFilled_cons]
        change (min r o.volume).toInt + _ < _
        omega
  · rw [hside]
    exact hprices.trans (keepLevel_prices_suffix p _ _ ls)
  · intro lv hlv hq
    rw [hside]
    exact List.mem_cons_of_mem _ (mem_of_keepLevel (hemptied lv hlv hq) hq)
  · rw [hother, fillHead_other]

theorem marketOrder_swept (isBuy : Bool) (taker : ParticipantID) (B : Book) (r : Int64)
    (hpos : ∀ o ∈ priority (B.side !isBuy), 0 < o.volume) (hr : 0 ≤ r) :
    Swept isBuy taker r B (B.marketOrder isBuy r taker).1 (B.marketOrder isBuy r taker).2 := by
  revert hpos hr
  refine market_rounds isBuy taker (fun B r fs B' =>
    (∀ o ∈ priority (B.side !isBuy), 0 < o.volume) → 0 ≤ r → Swept isBuy taker r B fs B')
    ?_ ?_ ?_ B r
  · exact fun B r hdone hpos hr => Swept.done hpos hr hdone
  · intro B r p ls fs B' _ hside ih hpos hr
    refine Swept.empty hside (ih ?_ hr)
    rw [hside, priority_cons, List.nil_append] at hpos
    rw [side_setSide]
    exact hpos
  · intro B r p o q ls fs B' hr hside ih hpos _
    rw [hside, priority_cons] at hpos
    have ho : 0 < o.volume := hpos o (List.mem_append_left _ List.mem_cons_self)
    have hq : ∀ x ∈ q, 0 < x.volume :=
      fun x hx => hpos x (List.mem_append_left _ (List.mem_cons_of_mem _ hx))
    obtain ⟨hmin, hle, -⟩ := min_between hr ho
    have hrest := toInt_sub_between hmin hle
    have hswept := ih (fun x hx => by
      rw [fillHead_side, priority_keepLevel] at hx
      rcases List.mem_append.mp hx with hx | hx
      · exact afterFill_positive hr hq x hx
      · exact hpos x (List.mem_append_right _ hx)) (by
      rw [Int64.le_iff_toInt_le, hrest, Int64.toInt_zero]
      omega)
    exact Swept.round hside hr ho hswept

end Sweep

end Book

/-! ## After any run -/

/-- What a market order meets is what the slots hold, in their order. -/
theorem PersistentLOB.offers_view (lob : PersistentLOB) (b : Bool) :
    Book.offers (lob.view.side b) =
      (lob.offers b).map fun x => (x.1, (lob.pool.nodes x.2).resting) := by
  have hside : lob.view.side b = (lob.side b).levels.map lob.viewLevel := by cases b <;> rfl
  rw [hside, Book.offers, offers, List.flatMap_map, List.map_flatMap]
  refine List.flatMap_congr fun lv _ => ?_
  simp only [viewLevel, List.map_map]
  rfl

/-- `market_order` in every reachable book: it ends, with any volume and whatever volumes
rest; and if those of the other side are positive and `v` is not negative, its fills take
exactly the orders that `v` needs, by price and then by arrival. -/
theorem marketOrder_exact {ops : List BookOp} {rs : List Reply} {lob : PersistentLOB}
    (hrun : PersistentLOB.run ops = .ok (rs, lob)) (isBuy : Bool) (v : Int64)
    (taker : ParticipantID) :
    ∃ fs lob', lob.marketOrder isBuy v taker = .ok (fs, lob') ∧
      ((∀ o ∈ Book.priority (lob.view.side !isBuy), 0 < o.volume) → 0 ≤ v →
        (lob.offers !isBuy).Pairwise (InTurn (!isBuy) (arrivals ops)) ∧
          Book.offers (lob.view.side !isBuy) =
            (lob.offers !isBuy).map (fun x => (x.1, (lob.pool.nodes x.2).resting)) ∧
          Book.Swept isBuy taker v lob.view fs lob'.view) := by
  have htraced := traced_of_run hrun
  obtain ⟨lob', hcall, hview⟩ := htraced.marketOrder isBuy v taker
  refine ⟨_, lob', hcall, fun hpos hv => ?_⟩
  refine ⟨htraced.inTurn !isBuy, lob.offers_view !isBuy, ?_⟩
  rw [hview]
  exact Book.marketOrder_swept isBuy taker lob.view v hpos hv

/-- Three bids at two prices, and a sale of 25 that ends in the third. -/
theorem marketOrder_exact_two_levels :
    let ops := [BookOp.addLimit true 100 10 contestant, .addLimit true 99 10 botMM,
      .addLimit true 100 10 botMM]
    ∃ rs lob fs lob', PersistentLOB.run ops = .ok (rs, lob) ∧
      lob.marketOrder false 25 botSNIPER = .ok (fs, lob') ∧
      (lob.offers true).Pairwise (InTurn true (arrivals ops)) ∧
      Book.Swept false botSNIPER 25 lob.view fs lob'.view := by
  intro ops
  obtain ⟨lob, hrun, href⟩ := run_defined ops (by decide) (by decide)
  obtain ⟨fs, lob', hcall, hswept⟩ := marketOrder_exact hrun false 25 botSNIPER
  have hpos : ∀ o ∈ Book.priority (lob.view.side true), 0 < o.volume := by
    rw [href.view_eq]
    decide +kernel
  obtain ⟨hturn, -, hexact⟩ := hswept hpos (by decide)
  exact ⟨_, lob, fs, lob', hrun, hcall, hturn, hexact⟩

end VidhiArena.GameMaster
