import VidhiArena.GameMaster.ContestantAccount

/-!
# Fill notifications

`write_fills_to_shm` tells the contestant of its fills, four at most, and step 7
books them on its account. The first decides the side by comparing two flags, the
second by the role in which the contestant stands; that both agree is shown here
for any list of fills, with the loop of the source taken one fill at a time.

The flags of a fill are set by `market_order`, and step 7 looks at the
participants. `Flagged` relates the two, and holds of every fill of a run.
-/

namespace VidhiArena.GameMaster

open VidhiArena.Foundation BookProg

namespace MatchedFill

def ofContestant (f : MatchedFill) : Bool := f.contestantIsTaker || f.contestantIsMaker

/-- The four words of a notification. -/
def notice (f : MatchedFill) : FillWord where
  orderId := if f.contestantIsTaker then 0 else f.makerOrderId.toInt64
  priceFp := f.priceFp
  volume := f.volume
  side := if f.contestantIsTaker = f.takerIsBuy then 0 else 1

/-- The flags say who takes part. -/
structure Flagged (f : MatchedFill) : Prop where
  taker : f.contestantIsTaker = decide (f.takerParticipant = contestant)
  maker : f.contestantIsMaker = decide (f.makerParticipant = contestant)

end MatchedFill

/-- The volume of a notification: bought or sold. -/
def FillWord.signedVolume (w : FillWord) : Int64 := if w.side = 0 then w.volume else -w.volume

namespace SharedMem

/-! ## The loop -/

def putFill (sm : SharedMem) (slot : Nat) (w : FillWord) : SharedMem :=
  { sm with fills := fun i => if i.val = slot then w else sm.fills i }

/-- The loop of `write_fills_to_shm` with `cnt` slots written. -/
def writeFillsLoop : SharedMem → Nat → List MatchedFill → SharedMem
  | sm, cnt, [] => { sm with fillCount := Int64.ofNat cnt }
  | sm, cnt, f :: fs =>
      if f.contestantIsTaker = false ∧ f.contestantIsMaker = false then sm.writeFillsLoop cnt fs
      else if orderSlots ≤ cnt then { sm with fillCount := Int64.ofNat cnt }
      else (sm.putFill cnt f.notice).writeFillsLoop (cnt + 1) fs

/-- The contestant's fills, as they are written. -/
def notices (fs : List MatchedFill) : List FillWord :=
  (fs.filter MatchedFill.ofContestant).map MatchedFill.notice

theorem notices_cons (f : MatchedFill) (fs : List MatchedFill) :
    notices (f :: fs) = if f.ofContestant then f.notice :: notices fs else notices fs := by
  unfold notices
  rw [List.filter_cons]
  split <;> rfl

theorem writeFillsLoop_eq : ∀ (fs : List MatchedFill) (sm : SharedMem) (cnt : Nat),
    cnt ≤ orderSlots → sm.writeFillsLoop cnt fs =
      { sm with
        fills := fun i => if i.val < cnt then sm.fills i
          else (notices fs).getD (i.val - cnt) (sm.fills i)
        fillCount := Int64.ofNat (min orderSlots (cnt + (notices fs).length)) }
  | [], sm, cnt, hcnt => by
      rw [writeFillsLoop, show notices [] = [] from rfl, List.length_nil, Nat.add_zero,
        Nat.min_eq_right hcnt]
      congr 1
      exact funext fun i => (ite_self _).symm
  | f :: fs, sm, cnt, hcnt => by
      rw [writeFillsLoop, notices_cons]
      by_cases hskip : f.contestantIsTaker = false ∧ f.contestantIsMaker = false
      · have hnot : f.ofContestant = false := by
          rw [MatchedFill.ofContestant, hskip.1, hskip.2]
          rfl
        rw [if_pos hskip, writeFillsLoop_eq fs sm cnt hcnt, hnot]
        rfl
      · have hyes : f.ofContestant = true := by
          rw [← Bool.not_eq_false]
          exact mt (Bool.or_eq_false_iff.mp ·) hskip
        rw [if_neg hskip, hyes, if_pos rfl, List.length_cons]
        by_cases hfull : orderSlots ≤ cnt
        · -- the break: all slots are written
          have hall : ∀ i : Fin orderSlots, i.val < cnt := fun i => by omega
          rw [if_pos hfull, Nat.min_eq_left (by omega), show cnt = orderSlots by omega]
          congr 1
          exact funext fun i => (if_pos i.isLt).symm
        · rw [if_neg hfull, writeFillsLoop_eq fs _ (cnt + 1) (by omega),
            Nat.add_right_comm cnt 1, Nat.add_assoc cnt]
          unfold putFill
          congr 1
          funext i
          change (if i.val < cnt + 1 then if i.val = cnt then f.notice else sm.fills i
            else (notices fs).getD (i.val - (cnt + 1))
              (if i.val = cnt then f.notice else sm.fills i)) =
              if i.val < cnt then sm.fills i
              else (f.notice :: notices fs).getD (i.val - cnt) (sm.fills i)
          rcases Nat.lt_trichotomy i.val cnt with hlt | heq | hgt
          · rw [if_pos (by omega), if_neg (by omega), if_pos hlt]
          · rw [if_pos (by omega), if_pos heq, if_neg (by omega), heq, Nat.sub_self]
            rfl
          · rw [if_neg (by omega), if_neg (by omega), if_neg (by omega),
              show i.val - cnt = (i.val - (cnt + 1)) + 1 by omega]
            rfl

theorem writeFills_eq_loop (sm : SharedMem) (fs : List MatchedFill) :
    sm.writeFills fs = sm.writeFillsLoop 0 fs := by
  rw [writeFillsLoop_eq fs sm 0 (Nat.zero_le _)]
  show { sm with
    fills := fun i : Fin orderSlots => ((notices fs).take orderSlots).getD i.val (sm.fills i)
    fillCount := Int64.ofNat ((notices fs).take orderSlots).length } = _
  rw [List.length_take, Nat.zero_add]
  congr 1
  funext i
  rw [if_neg (Nat.not_lt_zero _), Nat.sub_zero, List.getD_eq_getElem?_getD,
    List.getD_eq_getElem?_getD, List.getElem?_take_of_lt i.isLt]

/-! ## What the contestant is told -/

/-- The notifications of a tick: the first fills of the contestant in their order,
bought exactly where the account adds the volume. -/
structure Notified (sm : SharedMem) (fs : List MatchedFill) (sm' : SharedMem) : Prop where
  count : sm'.fillCount.toInt = min 4 (fs.filter MatchedFill.ofContestant).length
  written : ∀ (i : Fin orderSlots) (f : MatchedFill),
    (fs.filter MatchedFill.ofContestant)[i.val]? = some f →
      (sm'.fills i).priceFp = f.priceFp ∧ (sm'.fills i).volume = f.volume ∧
      ((sm'.fills i).side = 0 ↔ PnLTracker.fillSign f f.contestantIsTaker = 1) ∧
      ∀ t : PnLTracker, (t.applyFill f f.contestantIsTaker).position =
        t.position + (sm'.fills i).signedVolume
  kept : ∀ i : Fin orderSlots, (fs.filter MatchedFill.ofContestant).length ≤ i.val →
    sm'.fills i = sm.fills i
  elsewhere : { sm' with fills := sm.fills, fillCount := sm.fillCount } = sm
  settled : (∀ f ∈ fs, f.Flagged) → (fs.filter MatchedFill.ofContestant).length ≤ orderSlots →
    ∀ t : PnLTracker, (Master.applyFills t fs).position = t.position +
      (((List.finRange orderSlots).take sm'.fillCount.toInt.toNat).map
        fun i => (sm'.fills i).signedVolume).sum

end SharedMem

/-! ## The two sides agree -/

theorem PnLTracker.applyFill_position (t : PnLTracker) (f : MatchedFill) (isTaker : Bool) :
    (t.applyFill f isTaker).position = t.position + fillSign f isTaker * f.volume := by
  unfold applyFill
  simp only
  split <;> rfl

/-- Equal flags are a purchase: the taker buys, or the maker is sold to. -/
theorem MatchedFill.notice_side (f : MatchedFill) :
    f.notice.side = 0 ∧ PnLTracker.fillSign f f.contestantIsTaker = 1 ∨
      f.notice.side = 1 ∧ PnLTracker.fillSign f f.contestantIsTaker = -1 := by
  have hall : ∀ isTaker isBuy : Bool,
      (if isTaker = isBuy then (0 : Int64) else 1) = 0 ∧
          (if (if isTaker then isBuy else !isBuy) then (1 : Int64) else -1) = 1 ∨
        (if isTaker = isBuy then (0 : Int64) else 1) = 1 ∧
          (if (if isTaker then isBuy else !isBuy) then (1 : Int64) else -1) = -1 := by decide
  exact hall f.contestantIsTaker f.takerIsBuy

theorem MatchedFill.notice_signedVolume (f : MatchedFill) :
    f.notice.signedVolume = PnLTracker.fillSign f f.contestantIsTaker * f.volume := by
  unfold FillWord.signedVolume
  rcases f.notice_side with ⟨hside, hsign⟩ | ⟨hside, hsign⟩
  · rw [if_pos hside, hsign, Int64.one_mul]
    rfl
  · rw [if_neg (by rw [hside]; decide), hsign, Int64.neg_mul, Int64.one_mul]
    rfl

/-- Step 7 books what is notified, if the flags say who takes part. -/
theorem Master.applyFills_position : ∀ {fs : List MatchedFill} (t : PnLTracker),
    (∀ f ∈ fs, f.Flagged) → (applyFills t fs).position =
      t.position + ((SharedMem.notices fs).map FillWord.signedVolume).sum
  | [], t, _ => by
      show t.position = t.position + 0
      rw [Int64.add_zero]
  | f :: fs, t, h => by
      obtain ⟨⟨htaker, hmaker⟩, hfs⟩ := List.forall_mem_cons.mp h
      have hfold : applyFills t (f :: fs) = applyFills (if f.ofContestant then
          t.applyFill f f.contestantIsTaker else t) fs := by
        unfold applyFills MatchedFill.ofContestant
        rw [List.foldl_cons, htaker, hmaker]
      rw [hfold, applyFills_position _ hfs, SharedMem.notices_cons]
      split
      · rw [PnLTracker.applyFill_position, List.map_cons, List.sum_cons, f.notice_signedVolume,
          Int64.add_assoc]
      · rfl

namespace SharedMem

theorem written_slots {ws : List FillWord} (hws : ws.length ≤ orderSlots)
    (old : Fin orderSlots → FillWord) :
    ((List.finRange orderSlots).take ws.length).map (fun i => ws.getD i.val (old i)) = ws := by
  refine List.ext_getElem ?_ fun i hi hi' => ?_
  · rw [List.length_map, List.length_take, List.length_finRange, Nat.min_eq_left hws]
  · rw [List.getElem_map, List.getElem_take, List.getElem_finRange]
    exact List.getD_eq_getElem _ _ hi'

/-- Every call notifies, whatever fills it is given. -/
theorem writeFills_notifies (sm : SharedMem) (fs : List MatchedFill) :
    Notified sm fs (sm.writeFills fs) := by
  have hlen : (notices fs).length = (fs.filter MatchedFill.ofContestant).length :=
    List.length_map _
  have hslot : ∀ i, (sm.writeFills fs).fills i = (notices fs).getD i.val (sm.fills i) := by
    intro i
    rw [writeFills_eq_loop, writeFillsLoop_eq fs sm 0 (Nat.zero_le _)]
    rfl
  have hcount : (sm.writeFills fs).fillCount.toInt = min 4 (notices fs).length := by
    rw [writeFills_eq_loop, writeFillsLoop_eq fs sm 0 (Nat.zero_le _)]
    show (Int64.ofNat (min 4 (0 + (notices fs).length))).toInt = _
    rw [Nat.zero_add, Int64.toInt_ofNat_of_lt (by omega)]
  refine ⟨?_, fun i f hf => ?_, fun i hi => ?_, rfl, fun hflagged hfit t => ?_⟩
  · rw [hcount, hlen]
  · have hword : (sm.writeFills fs).fills i = f.notice := by
      rw [hslot, List.getD_eq_getElem?_getD, notices, List.getElem?_map, hf]
      rfl
    rw [hword]
    refine ⟨rfl, rfl, ?_, fun t => ?_⟩
    · rcases f.notice_side with ⟨hside, hsign⟩ | ⟨hside, hsign⟩
      · exact iff_of_true hside hsign
      · rw [hside, hsign]
        decide
    · rw [PnLTracker.applyFill_position, f.notice_signedVolume]
  · rw [hslot]
    exact List.getD_eq_default _ _ (by omega)
  · rw [← hlen] at hfit
    have hall : (sm.writeFills fs).fillCount.toInt.toNat = (notices fs).length := by
      rw [hcount]
      unfold orderSlots at hfit
      omega
    rw [Master.applyFills_position t hflagged, hall]
    conv_lhs => rw [← written_slots hfit sm.fills, List.map_map]
    simp only [hslot]
    rfl

end SharedMem

/-! ## The fills of a run -/

theorem PersistentLOB.matchHead_flagged {lob lob' : PersistentLOB} {isBuy : Bool}
    {taker : ParticipantID} {remaining left : Int64} {lv : PriceLevel} {f : MatchedFill}
    (h : lob.matchHead isBuy taker remaining lv = .ok (f, left, lob')) : f.Flagged := by
  obtain ⟨maker, -, h⟩ := bind_eq_ok.mp h
  obtain ⟨pool, -, h⟩ := bind_eq_ok.mp h
  split at h
  · obtain ⟨pool', -, h⟩ := bind_eq_ok.mp h
    cases h
    exact ⟨rfl, rfl⟩
  · cases h
    exact ⟨rfl, rfl⟩

theorem PersistentLOB.matchLoop_flagged {isBuy : Bool} {taker : ParticipantID} :
    ∀ {fuel : Nat} {lob lob' : PersistentLOB} {remaining : Int64} {fs : List MatchedFill},
      matchLoop isBuy taker fuel lob remaining = .ok (fs, lob') → ∀ f ∈ fs, f.Flagged
  | 0, _, _, _, _, h => nomatch h
  | fuel + 1, lob, lob', remaining, fs, h => by
      unfold matchLoop at h
      split at h
      · split at h
        · cases h
          exact fun f hf => nomatch hf
        · split at h
          · exact matchLoop_flagged h
          · obtain ⟨⟨f, left, lob₁⟩, hhead, h⟩ := bind_eq_ok.mp h
            obtain ⟨⟨fs', lob₂⟩, hrest, h⟩ := bind_eq_ok.mp h
            cases h
            exact List.forall_mem_cons.mpr ⟨matchHead_flagged hhead, matchLoop_flagged hrest⟩
      · cases h
        exact fun f hf => nomatch hf

theorem PersistentLOB.apply_flagged {lob lob' : PersistentLOB} {op : BookOp} {r : Reply}
    (h : lob.apply op = .ok (r, lob')) : ∀ f ∈ r.matched, f.Flagged := by
  rcases apply_matched h with ⟨isBuy, volume, taker, rfl⟩ | hnone
  · obtain ⟨⟨fs, lob₁⟩, hmarket, h⟩ := bind_eq_ok.mp h
    cases h
    exact matchLoop_flagged hmarket
  · rw [hnone]
    exact fun f hf => nomatch hf

/-- The fills of a tick say who takes part, and they are what step 7 books and what
is written. -/
theorem Master.tick_flagged {cfg : SimConfig} {gm gm' : Master} {input : TickInput}
    {lob lob' : PersistentLOB} {h : BookHistory}
    (hrun : (gm.tick cfg input).run PersistentLOB.apply lob = .ok (gm', h, lob')) :
    ∃ (allFills : List MatchedFill) (sm : SharedMem),
      (∀ f ∈ allFills, f.Flagged) ∧ gm'.shm = sm.writeFills allFills ∧
      gm'.pnl = applyFills gm.pnl.resetTickState allFills := by
  obtain ⟨bots, h₁, lob₁, h₂, allFills, shm, -, -, hwords, -, rfl⟩ := tick_run hrun
  refine ⟨allFills, shm, ?_, rfl, rfl⟩
  obtain ⟨-, hcalls⟩ := runFrom_steps (fun _ => True)
    (fun (_ : BookOp) (r : Reply) => ∀ f ∈ r.matched, f.Flagged)
    (fun _ _ _ _ _ _ hcall => ⟨trivial, PersistentLOB.apply_flagged hcall⟩)
    _ _ trivial (admittedFrom_true _) (Prog.run_replay hwords)
  rw [List.forall₂_map_left_iff, List.forall₂_map_right_iff, List.forall₂_same] at hcalls
  intro f hf
  rw [processOrders_fills hwords] at hf
  obtain ⟨c, hc, hf⟩ := List.mem_flatMap.mp hf
  exact hcalls c hc f hf

end VidhiArena.GameMaster
