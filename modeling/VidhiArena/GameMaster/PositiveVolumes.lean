import VidhiArena.GameMaster.Fills
import VidhiArena.GameMaster.TickLoop
import VidhiArena.GameMaster.WellFormed

/-!
# Positive volumes

`add_limit` takes any volume, and step 6 hands it the contestant's word as it is.
The matching loop relies on positive ones: `min(remaining, maker.volume)` is the
volume of a fill only then. `Book.Positive` is what the loop relies on,
`BookOp.Sane` what a call must respect to keep it, and the results are about
every run of the tick loop whose calls are sane.
-/

namespace VidhiArena.GameMaster

open VidhiArena.Foundation

theorem toInt_pos {x : Int64} : 0 < x ↔ 0 < x.toInt := by
  rw [Int64.lt_iff_toInt_lt, Int64.toInt_zero]

theorem min_between {r v : Int64} (hr : 0 < r) (hv : 0 < v) :
    0 < (min r v).toInt ∧ (min r v).toInt ≤ r.toInt ∧ (min r v).toInt ≤ v.toInt := by
  rw [toInt_pos] at hr hv
  rw [Book.min_ite]
  split
  · rename_i h
    rw [Int64.le_iff_toInt_le] at h
    exact ⟨hr, le_refl _, h⟩
  · rename_i h
    rw [Int64.le_iff_toInt_le, not_le] at h
    exact ⟨hv, le_of_lt h, le_refl _⟩

theorem toInt_sub_between {a b : Int64} (hb : 0 < b.toInt) (hab : b.toInt ≤ a.toInt) :
    (a - b).toInt = a.toInt - b.toInt := by
  have ha := fits_toInt a
  unfold Fits at ha
  exact toInt_sub_of_fits ⟨by omega, by omega⟩

namespace Book

/-- Every resting volume is positive, and no level holds more than `int64_t` can. -/
structure Positive (B : Book) : Prop where
  orders : ∀ b, ∀ lv ∈ B.side b, ∀ o ∈ lv.queue, 0 < o.volume
  levels : B.SumsFit

def exactFilled (fs : List MatchedFill) : Int := (fs.map fun f => f.volume.toInt).sum

/-! ## Queues of positive volumes -/

theorem exactVolume_nonneg {q : List RestingOrder} (h : ∀ o ∈ q, 0 < o.volume) :
    0 ≤ exactVolume q := by
  induction q with
  | nil => exact le_refl _
  | cons o q ih =>
      obtain ⟨ho, hq⟩ := List.forall_mem_cons.mp h
      rw [exactVolume_cons]
      have := ih hq
      have := toInt_pos.mp ho
      omega

theorem exactVolume_sublist {q q' : List RestingOrder} (h : ∀ o ∈ q, 0 < o.volume)
    (hsub : q'.Sublist q) : exactVolume q' ≤ exactVolume q := by
  induction hsub with
  | slnil => exact le_refl _
  | cons o _ ih =>
      obtain ⟨ho, hq⟩ := List.forall_mem_cons.mp h
      rw [exactVolume_cons]
      have := ih hq
      have := toInt_pos.mp ho
      omega
  | cons_cons o _ ih =>
      rw [exactVolume_cons, exactVolume_cons]
      have := ih (List.forall_mem_cons.mp h).2
      omega

theorem fits_of_sublist {q q' : List RestingOrder} (h : ∀ o ∈ q, 0 < o.volume)
    (hfit : Fits (exactVolume q)) (hsub : q'.Sublist q) : Fits (exactVolume q') := by
  have hle := exactVolume_sublist h hsub
  have hnonneg := exactVolume_nonneg fun o ho => h o (hsub.subset ho)
  unfold Fits at *
  omega

theorem Reduced.positive {q q' : List RestingOrder} (hred : Reduced q' q)
    (h : ∀ o ∈ q, 0 < o.volume) : ∀ o ∈ q', 0 < o.volume := by
  rcases hred with hsuf | ⟨o, r, v, hsuf, rfl, hv, -⟩
  · exact fun o ho => h o (hsuf.subset ho)
  · exact List.forall_mem_cons.mpr
      ⟨hv, fun o' ho' => h o' (hsuf.subset (List.mem_cons_of_mem _ ho'))⟩

end Book

/-! ## Sane calls -/

/-- What a call must respect: orders of positive volume that their level can
still hold, and no market order of negative volume. -/
def BookOp.Sane (B : Book) : BookOp → Prop
  | .addLimit isBid priceFp volume _ =>
      0 < volume ∧ ∀ lv ∈ B.side isBid, lv.priceFp = priceFp →
        Fits (Book.exactVolume lv.queue + volume.toInt)
  | .cancel _ => True
  | .marketOrder _ volume _ => 0 ≤ volume

instance : ∀ (B : Book) (op : BookOp), Decidable (op.Sane B)
  | _, .addLimit .. => inferInstanceAs (Decidable (_ ∧ _))
  | _, .cancel _ => inferInstanceAs (Decidable True)
  | _, .marketOrder .. => inferInstanceAs (Decidable (_ ≤ _))

theorem BookOp.Sane.volumesFit {B : Book} {op : BookOp} (h : op.Sane B) (hpos : B.Positive) :
    op.VolumesFit B := by
  cases op with
  | addLimit isBid p v who => exact h.2
  | cancel id =>
      intro b lv hlv
      exact Book.fits_of_sublist (hpos.orders b lv hlv) (hpos.levels b lv hlv)
        List.filter_sublist
  | marketOrder isBuy v taker =>
      intro lv hlv q hq
      exact Book.fits_of_sublist (hpos.orders _ lv hlv) (hpos.levels _ lv hlv) hq.sublist

theorem Book.Positive.apply {B : Book} {op : BookOp} (hpos : B.Positive) (hop : op.Sane B) :
    (B.applyBounded op).2.Positive := by
  refine ⟨?_, hpos.levels.apply (hop.volumesFit hpos)⟩
  intro b lv' hlv'
  cases op with
  | addLimit isBid p v who =>
      rcases Book.mem_side_addLimitBounded hlv' with hold | ⟨rfl, -, q, hq, hqueue⟩
      · exact hpos.orders b lv' hold
      · have hbase : ∀ o ∈ q, 0 < o.volume := by
          rcases hq with rfl | hmem
          · exact fun o ho => absurd ho List.not_mem_nil
          · exact hpos.orders b ⟨p, q⟩ hmem
        rcases hqueue with hqueue | hqueue
        · rw [hqueue]
          exact hbase
        · rw [hqueue]
          intro o ho
          rcases List.mem_append.mp ho with ho | ho
          · exact hbase o ho
          · rw [List.mem_singleton.mp ho]
            exact hop.1
  | cancel id =>
      obtain ⟨lv, hlv, -, hqueue | hqueue⟩ := Book.mem_side_cancel hlv'
      · rw [hqueue]
        exact hpos.orders b lv hlv
      · rw [hqueue]
        exact fun o ho => hpos.orders b lv hlv o (List.mem_of_mem_filter ho)
  | marketOrder isBuy v taker =>
      rcases Book.mem_side_marketOrder hlv' with hold | ⟨rfl, lv, hlv, -, hred⟩
      · exact hpos.orders b lv' hold
      · exact hred.positive (hpos.orders _ lv hlv)

/-! ## The fills of a market order -/

namespace Book

theorem afterFill_positive {o : RestingOrder} {q : List RestingOrder} {r : Int64} (hr : 0 < r)
    (hq : ∀ x ∈ q, 0 < x.volume) :
    ∀ x ∈ afterFill o q (min r o.volume), 0 < x.volume := by
  unfold afterFill
  split
  · exact hq
  · rename_i hfull
    refine List.forall_mem_cons.mpr ⟨?_, hq⟩
    obtain ⟨hmin, hlt⟩ := min_of_survivor hfull
    show 0 < o.volume - min r o.volume
    rw [hmin]
    exact (sub_between hr hlt).1

/-- Fills of positive volume, which add up to no more than was asked for. -/
theorem marketOrder_volumes (isBuy : Bool) (taker : ParticipantID) (B : Book) (r : Int64)
    (hpos : ∀ o ∈ priority (B.side !isBuy), 0 < o.volume) :
    (∀ f ∈ (B.marketOrder isBuy r taker).1, 0 < f.volume) ∧
      (0 ≤ r → exactFilled (B.marketOrder isBuy r taker).1 ≤ r.toInt) := by
  revert hpos
  refine market_rounds isBuy taker (fun B r fs _ =>
    (∀ o ∈ priority (B.side !isBuy), 0 < o.volume) →
      (∀ f ∈ fs, 0 < f.volume) ∧ (0 ≤ r → exactFilled fs ≤ r.toInt)) ?_ ?_ ?_ B r
  · intro B r _ _
    refine ⟨fun f hf => absurd hf List.not_mem_nil, fun hr => ?_⟩
    rwa [Int64.le_iff_toInt_le] at hr
  · intro B r p ls fs B' _ hside ih hpos
    rw [side_setSide] at ih
    rw [hside, priority_cons, List.nil_append] at hpos
    exact ih hpos
  · intro B r p o q ls fs B' hr hside ih hpos
    rw [fillHead_side, priority_keepLevel] at ih
    rw [hside, priority_cons] at hpos
    have ho : 0 < o.volume := hpos o (List.mem_append_left _ List.mem_cons_self)
    have hq : ∀ x ∈ q, 0 < x.volume :=
      fun x hx => hpos x (List.mem_append_left _ (List.mem_cons_of_mem _ hx))
    obtain ⟨hmin, hle, -⟩ := min_between hr ho
    obtain ⟨hfills, hsum⟩ := ih fun x hx => by
      rcases List.mem_append.mp hx with hx | hx
      · exact afterFill_positive hr hq x hx
      · exact hpos x (List.mem_append_right _ hx)
    have hrest := toInt_sub_between hmin hle
    refine ⟨List.forall_mem_cons.mpr ⟨toInt_pos.mpr hmin, hfills⟩, fun _ => ?_⟩
    have hleft : 0 ≤ r - min r o.volume := by
      rw [Int64.le_iff_toInt_le, hrest, Int64.toInt_zero]
      omega
    have hsum := hsum hleft
    rw [hrest] at hsum
    show exactFilled (fillOf isBuy taker p (min r o.volume) o :: fs) ≤ r.toInt
    rw [exactFilled, List.map_cons, List.sum_cons]
    show (min r o.volume).toInt + exactFilled fs ≤ r.toInt
    omega

end Book

/-! ## Runs -/

/-- What one call owes: fills of positive volume, no more of it than was asked for. -/
def VolumesRight (op : BookOp) (r : Reply) : Prop :=
  (∀ f ∈ r.matched, 0 < f.volume) ∧
    ∀ isBuy v taker, op = .marketOrder isBuy v taker → Book.exactFilled r.matched ≤ v.toInt

namespace PersistentLOB

def TotalsNonneg (lob : PersistentLOB) : Prop :=
  ∀ b, ∀ lv ∈ (lob.side b).levels, 0 ≤ lv.totalVolume

/-- The memory holds a book of positive volumes. -/
def Positive (lob : PersistentLOB) : Prop := ∃ B, Refines lob B ∧ B.Positive

theorem Positive.init : PersistentLOB.init.Positive := by
  refine ⟨Book.empty, init_refines, ?_, ?_⟩
  · intro b lv hlv
    cases b <;> exact absurd hlv List.not_mem_nil
  · intro b lv hlv
    cases b <;> exact absurd hlv List.not_mem_nil

theorem Positive.totals {lob : PersistentLOB} (h : lob.Positive) : lob.TotalsNonneg := by
  obtain ⟨B, href, hpos⟩ := h
  intro b lv hlv
  have htotal := ((href.wellFormed hpos.levels).levels b lv hlv).total
  have hview : lob.viewLevel lv ∈ B.side b := by
    rw [← href.view_eq]
    cases b <;> exact List.mem_map_of_mem hlv
  have hexact : Book.exactVolume (lob.viewLevel lv).queue =
      ((lob.queue lv).map fun i => (lob.pool.nodes i).volume.toInt).sum := by
    simp only [Book.exactVolume, viewLevel, List.map_map]
    rfl
  rw [Int64.le_iff_toInt_le, Int64.toInt_zero, htotal, ← hexact]
  exact Book.exactVolume_nonneg (hpos.orders b _ hview)

/-- A call comes back and is sane in the book that the memory holds. -/
def Sane (lob : PersistentLOB) (op : BookOp) : Prop := lob.Survives op ∧ op.Sane lob.view

instance (lob : PersistentLOB) (op : BookOp) : Decidable (lob.Sane op) :=
  inferInstanceAs (Decidable (_ ∧ _))

theorem Positive.apply {lob : PersistentLOB} {op : BookOp} (h : lob.Positive) (hop : lob.Sane op) :
    ∃ r lob', lob.apply op = .ok (r, lob') ∧ lob'.Positive ∧ VolumesRight op r := by
  obtain ⟨B, href, hpos⟩ := h
  obtain ⟨hsurvives, hop⟩ := hop
  rw [href.view_eq] at hop
  obtain ⟨lob', hcall, href'⟩ := href.survives hsurvives
  refine ⟨_, lob', hcall, ⟨_, href', hpos.apply hop⟩, ?_⟩
  cases op with
  | addLimit isBid p v who => exact ⟨(fun f hf => nomatch hf), (fun _ _ _ heq => nomatch heq)⟩
  | cancel id => exact ⟨(fun f hf => nomatch hf), (fun _ _ _ heq => nomatch heq)⟩
  | marketOrder isBuy v taker =>
      have horders : ∀ o ∈ Book.priority (B.side !isBuy), 0 < o.volume := by
        intro o ho
        obtain ⟨lv, hlv, ho⟩ := List.mem_flatMap.mp ho
        exact hpos.orders _ lv hlv o ho
      obtain ⟨hfills, hsum⟩ := Book.marketOrder_volumes isBuy taker B v horders
      refine ⟨hfills, ?_⟩
      rintro _ _ _ heq
      cases heq
      exact hsum hop

end PersistentLOB

/-- Every run of the tick loop whose calls are sane is defined; each fill has a
positive volume, the fills of a market order add up to no more than its volume,
and after every call every level has a total that is not negative. -/
theorem simulation_volumes {cfg : SimConfig} {inputs : List TickInput}
    (hsane : RunAdmitted cfg PersistentLOB.Sane inputs) :
    ∃ hs s, runSimulation cfg inputs = .ok (hs, s) ∧
      (∀ c ∈ hs.flatten, VolumesRight c.1 c.2) ∧
      ∀ pre, pre <+: hs.flatten.map Prod.fst →
        ∃ rs lob, PersistentLOB.run pre = .ok (rs, lob) ∧ lob.TotalsNonneg := by
  have hdefined : ∀ lob op, PersistentLOB.Positive lob → lob.Sane op →
      ∃ r lob', lob.apply op = .ok (r, lob') ∧ lob'.Positive := by
    intro lob op hpos hop
    obtain ⟨r, lob', hcall, hpos', -⟩ := hpos.apply hop
    exact ⟨r, lob', hcall, hpos'⟩
  obtain ⟨hs, s, hrun, -⟩ :=
    hsane.defined PersistentLOB.Positive PersistentLOB.Positive.init hdefined
  obtain ⟨hreplay, hadm⟩ := hsane.replay hrun
  refine ⟨hs, s, hrun, fun c hc => ?_, ?_⟩
  · obtain ⟨-, hsteps⟩ := runFrom_steps PersistentLOB.Positive VolumesRight (fun lob op r lob' hpos hop hcall => by
      obtain ⟨r', lob₁, hcall', hpos', hright⟩ := hpos.apply hop
      rw [hcall] at hcall'
      cases hcall'
      exact ⟨hpos', hright⟩) _ _ PersistentLOB.Positive.init hadm hreplay
    rw [List.forall₂_map_left_iff, List.forall₂_map_right_iff, List.forall₂_same] at hsteps
    exact hsteps c hc
  · rintro pre ⟨post, heq⟩
    rw [← heq] at hadm
    obtain ⟨rs, lob, hpre, hpos⟩ := runFrom_defined PersistentLOB.Positive hdefined pre _
      PersistentLOB.Positive.init hadm.of_append
    exact ⟨rs, lob, hpre, hpos.totals⟩

/-- One tick with every bot at work, in which the contestant buys ten. -/
theorem simulation_volumes_market_buy :
    ∃ hs s, runSimulation ⟨BotConfig.default, 1000, fun _ _ => 0⟩
        [⟨.gbm 100050000 450000 false, .answer 1 fun _ => ⟨3, 0, 10, 0⟩⟩] = .ok (hs, s) ∧
      (∀ c ∈ hs.flatten, VolumesRight c.1 c.2) ∧
      ∀ pre, pre <+: hs.flatten.map Prod.fst →
        ∃ rs lob, PersistentLOB.run pre = .ok (rs, lob) ∧ lob.TotalsNonneg :=
  simulation_volumes (by decide +kernel)

/-- A bid of minus five is sold: the contestant's LIMIT_BUY leaves a level with a
negative total, and its MARKET_SELL of three then fills it with minus five. -/
theorem negative_volume_trades :
    (∃ hs s, runSimulation ⟨BotConfig.default, 1000, fun _ _ => 0⟩
        [⟨.gbm 100050000 450000 false, .answer 1 fun _ => ⟨1, 100090000, -5, 0⟩⟩] = .ok (hs, s) ∧
      ¬ s.1.TotalsNonneg) ∧
    ∃ hs s, runSimulation ⟨BotConfig.default, 1000, fun _ _ => 0⟩
        [⟨.gbm 100050000 450000 false, .answer 2 fun i =>
          if i.val = 0 then ⟨1, 100090000, -5, 0⟩ else ⟨4, 0, 3, 0⟩⟩] = .ok (hs, s) ∧
      ¬ ∀ c ∈ hs.flatten, VolumesRight c.1 c.2 := by
  constructor
  · have htotals : (runSimulation ⟨BotConfig.default, 1000, fun _ _ => 0⟩
        [⟨.gbm 100050000 450000 false, .answer 1 fun _ => ⟨1, 100090000, -5, 0⟩⟩]).map
          (fun r => (r.2.1.bids.levels.head?.map PriceLevel.totalVolume)) = .ok (some (-5)) := by
      decide +kernel
    obtain ⟨⟨hs, s⟩, hrun, hhead⟩ := map_eq_ok htotals
    refine ⟨hs, s, hrun, fun htotal => ?_⟩
    obtain ⟨lv, hlv, heq⟩ := Option.map_eq_some_iff.mp hhead
    have := htotal true lv (List.mem_of_mem_head? hlv)
    rw [heq] at this
    exact absurd this (by decide)
  · have hfills : (runSimulation ⟨BotConfig.default, 1000, fun _ _ => 0⟩
        [⟨.gbm 100050000 450000 false, .answer 2 fun i =>
          if i.val = 0 then ⟨1, 100090000, -5, 0⟩ else ⟨4, 0, 3, 0⟩⟩]).map
          (fun r => r.1.flatten.any fun c => c.2.matched.any fun f => f.volume = -5) = .ok true := by
      decide +kernel
    obtain ⟨⟨hs, s⟩, hrun, hany⟩ := map_eq_ok hfills
    refine ⟨hs, s, hrun, fun hright => ?_⟩
    obtain ⟨c, hc, hany⟩ := List.any_eq_true.mp hany
    obtain ⟨f, hf, hvol⟩ := List.any_eq_true.mp hany
    have := (hright c hc).1 f hf
    rw [of_decide_eq_true hvol] at this
    exact absurd this (by decide)

end VidhiArena.GameMaster
