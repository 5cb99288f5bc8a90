import Mathlib.Algebra.Group.Nat.Defs
import Mathlib.Algebra.Ring.Int.Defs
import Mathlib.Data.List.Nodup
import Mathlib.Data.List.Perm.Basic
import VidhiArena.Backend.RunTable
import VidhiArena.Foundation.Pages

/-!
# Listing runs in pages

`handleListRuns` of `backend/main.go` without a database: the runs of a user, the latest
first, a page of them. `range` over the cache and `sort.Slice` leave open in which order
runs come that were started at the same time, and each request has its own order. Slicing
outside of a list is a panic.
-/

namespace VidhiArena.Backend

open Foundation Pages

variable {F : Type}

structure RunSummary (F : Type) where
  runID : String
  status : RunStatus
  pnlPct : F
  p99NS : F
  totalFills : Int
  tleCount : Int
  startedAt : Int
  completedAt : Int

def RunResult.summary (run : RunResult F) : RunSummary F where
  runID := run.runID
  status := run.status
  pnlPct := run.pnlPct
  p99NS := run.p99NS
  totalFills := run.totalFills
  tleCount := run.tleCount
  startedAt := run.startedAt
  completedAt := run.completedAt

/-- The values of `runCache`, a map from run ids. There is memory for less than `2 ^ 62`. -/
structure RunCache (F : Type) where
  runs : List (RunResult F)
  distinct : (runs.map RunResult.runID).Nodup
  fits : runs.length < 2 ^ 62

/-- The runs of the user, as they are shown. -/
def RunCache.ofUser (cache : RunCache F) (userID : String) : List (RunSummary F) :=
  (cache.runs.filter fun run => run.userID = userID).map RunResult.summary

/-- An order that `sort.Slice` may leave. -/
structure Listing (cache : RunCache F) (userID : String) (l : List (RunSummary F)) : Prop where
  perm : l.Perm (cache.ofUser userID)
  descending : Descending RunSummary.startedAt l

/-! ## A request -/

/-- What `Sscanf` reads of the parameters, if it reads something. -/
structure ListRequest where
  page : Option Int64
  limit : Option Int64

namespace ListRequest

def limitOf (r : ListRequest) : Int64 :=
  let limit := r.limit.getD 20
  if limit > 100 then 100 else limit

def pageOf (r : ListRequest) : Int64 :=
  let page := r.page.getD 1
  if page < 1 then 1 else page

def offset (r : ListRequest) : Int64 := (r.pageOf - 1) * r.limitOf

end ListRequest

/-- `runs[lo:hi]`, up to the end of the list at most. -/
def slice {α : Type} (runs : List α) (lo hi : Int) : Option (List α) :=
  if 0 ≤ lo ∧ lo ≤ hi ∧ hi ≤ runs.length then some ((runs.drop lo.toNat).take (hi - lo).toNat)
  else none

def paginate {α : Type} (r : ListRequest) (runs : List α) : Option (List α) :=
  if (runs.length : Int) ≤ r.offset.toInt then some []
  else
    let stop := (r.offset + r.limitOf).toInt
    slice runs r.offset.toInt (if (runs.length : Int) < stop then runs.length else stop)

/-- The answer may be this page (`none` is a panic), with the total. -/
def Answers (cache : RunCache F) (userID : String) (r : ListRequest)
    (answer : Option (List (RunSummary F)) × Nat) : Prop :=
  ∃ l, Listing cache userID l ∧ answer = (paginate r l, l.length)

/-- Whatever order the runs come in, the answer is no panic. -/
def NeverPanics (cache : RunCache F) (userID : String) (r : ListRequest) : Prop :=
  ∀ answer, Answers cache userID r answer → answer.1.isSome = true

/-- Page `k`, counted from 0. -/
def pageRequest (limit k : Nat) : ListRequest where
  page := some (Int64.ofNat (k + 1))
  limit := some (Int64.ofNat limit)

/-- `ceil(total / limit)` -/
def pageCount (total limit : Nat) : Nat := (total + limit - 1) / limit

/-- Whatever the answers to the requests for all pages are, they have every run once. -/
def CompletePages (cache : RunCache F) (userID : String) (limit : Nat) : Prop :=
  ∀ answers : Nat → Option (List (RunSummary F)) × Nat,
    (∀ k < pageCount (cache.ofUser userID).length limit,
      Answers cache userID (pageRequest limit k) (answers k)) →
    ((List.range (pageCount (cache.ofUser userID).length limit)).flatMap fun k =>
      (answers k).1.getD []).Perm (cache.ofUser userID)

/-! ## The numbers of a request -/

namespace ListRequest

variable (r : ListRequest)

/-- The limit and the offset as the numbers of the request give them; the product may wrap
around. -/
def limitValue : Int := min 100 (r.limit.getD 20).toInt

def offsetValue : Int :=
  ((max 1 (r.page.getD 1).toInt - 1) * r.limitValue).bmod (2 ^ 64)

theorem toInt_limitOf : r.limitOf.toInt = r.limitValue := by
  unfold limitOf limitValue
  dsimp only
  split
  · rename_i h
    exact (min_eq_left (Int64.lt_iff_toInt_lt.mp h).le).symm
  · rename_i h
    exact (min_eq_right (Int64.le_iff_toInt_le.mp (Int64.not_lt.mp h))).symm

theorem toInt_pageOf : r.pageOf.toInt = max 1 (r.page.getD 1).toInt := by
  unfold pageOf
  dsimp only
  split
  · rename_i h
    exact (max_eq_left (Int64.lt_iff_toInt_lt.mp h).le).symm
  · rename_i h
    exact (max_eq_right (Int64.le_iff_toInt_le.mp (Int64.not_lt.mp h))).symm

theorem toInt_offset : r.offset.toInt = r.offsetValue := by
  have hprevious : (r.pageOf - 1).toInt = max 1 (r.page.getD 1).toInt - 1 := by
    have hpage := r.toInt_pageOf
    have hhigh := Int64.toInt_lt r.pageOf
    have hone : Int64.toInt 1 = 1 := rfl
    rw [Int64.toInt_sub, hone, ← hpage]
    have hlow : 1 ≤ r.pageOf.toInt := hpage ▸ le_max_left _ _
    exact Int.bmod_eq_of_le (by omega) (by omega)
  rw [offset, Int64.toInt_mul, hprevious, toInt_limitOf]
  rfl

/-- A page that begins behind the end, or in the list and does not end before it begins. -/
def InRange (total : Nat) : Prop :=
  (total : Int) ≤ r.offsetValue ∨ 0 ≤ r.offsetValue ∧ 0 ≤ r.limitValue

end ListRequest

instance (r : ListRequest) (total : Nat) : Decidable (r.InRange total) :=
  inferInstanceAs (Decidable (_ ∨ _))

section Paginate

variable {α : Type} {l : List α} {r : ListRequest}

theorem isSome_slice {lo hi : Int} :
    (slice l lo hi).isSome = true ↔ 0 ≤ lo ∧ lo ≤ hi ∧ hi ≤ l.length := by
  unfold slice
  split
  · exact iff_of_true rfl (by assumption)
  · exact iff_of_false nofun (by assumption)

theorem slice_eq {lo n : Nat} (hlo : lo ≤ l.length) :
    slice l lo (if (l.length : Int) < lo + n then l.length else lo + n) =
      some ((l.drop lo).take n) := by
  unfold slice
  split
  · rename_i hend
    rw [if_pos ⟨Int.natCast_nonneg lo, Int.ofNat_le.mpr hlo, le_rfl⟩, Int.toNat_natCast]
    have hshort : (l.drop lo).length = ((l.length : Int) - lo).toNat := by
      rw [List.length_drop]
      omega
    rw [← hshort, List.take_length, List.take_of_length_le]
    rw [List.length_drop]
    omega
  · rename_i hend
    have hcount : (lo : Int) + n - lo = n := by omega
    rw [if_pos ⟨Int.natCast_nonneg lo, by omega, by omega⟩, Int.toNat_natCast, hcount,
      Int.toNat_natCast]

theorem toInt_stop (hlength : l.length < 2 ^ 62) (hinside : r.offset.toInt < l.length)
    (hlow : 0 ≤ r.offset.toInt) :
    (r.offset + r.limitOf).toInt = r.offset.toInt + r.limitOf.toInt := by
  have hlimit := Int64.le_toInt r.limitOf
  have hhundred : r.limitOf.toInt ≤ 100 := r.toInt_limitOf ▸ min_le_left _ _
  rw [Int64.toInt_add]
  exact Int.bmod_eq_of_le (by omega) (by omega)

theorem isSome_paginate (hlength : l.length < 2 ^ 62) :
    (paginate r l).isSome = true ↔ r.InRange l.length := by
  unfold ListRequest.InRange
  rw [← r.toInt_offset, ← r.toInt_limitOf]
  unfold paginate
  by_cases hbehind : (l.length : Int) ≤ r.offset.toInt
  · rw [if_pos hbehind]
    exact iff_of_true rfl (.inl hbehind)
  · have hinside := not_le.mp hbehind
    rw [if_neg hbehind, or_iff_right hbehind, isSome_slice]
    by_cases hlow : 0 ≤ r.offset.toInt
    · rw [toInt_stop hlength hinside hlow]
      constructor
      · rintro ⟨-, hends, -⟩
        refine ⟨hlow, ?_⟩
        split at hends <;> omega
      · rintro ⟨-, hlimit⟩
        refine ⟨hlow, ?_⟩
        split <;> omega
    · exact iff_of_false (fun h => hlow h.1) fun h => hlow h.1

theorem paginate_pageRequest {limit k : Nat} (hlength : l.length < 2 ^ 62) (hlimit : 0 < limit)
    (hhundred : limit ≤ 100) (hk : k * limit < l.length) :
    paginate (pageRequest limit k) l = some ((l.drop (k * limit)).take limit) := by
  have hpage : (Int64.ofNat (k + 1)).toInt = ((k + 1 : Nat) : Int) := by
    have hle : k ≤ k * limit := Nat.le_mul_of_pos_right k hlimit
    exact Int64.toInt_ofNat_of_lt (by omega)
  have hsize : (Int64.ofNat limit).toInt = (limit : Int) := Int64.toInt_ofNat_of_lt (by omega)
  have hlimitOf : (pageRequest limit k).limitOf.toInt = (limit : Int) := by
    rw [ListRequest.toInt_limitOf, ListRequest.limitValue]
    exact (congrArg (min 100) hsize).trans (min_eq_right (by omega))
  have hoffset : (pageRequest limit k).offset.toInt = ((k * limit : Nat) : Int) := by
    have hvalue : (max 1 ((pageRequest limit k).page.getD 1).toInt - 1) *
        (pageRequest limit k).limitValue = ((k * limit : Nat) : Int) := by
      rw [← ListRequest.toInt_limitOf, hlimitOf]
      have hmax : max 1 ((pageRequest limit k).page.getD 1).toInt = ((k + 1 : Nat) : Int) :=
        (congrArg (max 1) hpage).trans (max_eq_right (by omega))
      rw [hmax, Int.natCast_add, Int.natCast_one, Int.add_sub_cancel, Int.natCast_mul]
    rw [ListRequest.toInt_offset, ListRequest.offsetValue, hvalue]
    exact Int.bmod_eq_of_le (by omega) (by omega)
  have hstop := toInt_stop hlength (hoffset ▸ Int.ofNat_lt.mpr hk) (hoffset ▸ Int.natCast_nonneg _)
  rw [paginate, hoffset, if_neg (not_le.mpr (Int.ofNat_lt.mpr hk)), hstop, hoffset, hlimitOf]
  exact slice_eq hk.le

end Paginate

/-! ## The listing -/

variable {cache : RunCache F} {userID : String}

theorem RunCache.length_ofUser (cache : RunCache F) (userID : String) :
    (cache.ofUser userID).length < 2 ^ 62 := by
  rw [ofUser, List.length_map]
  exact (List.length_filter_le _ _).trans_lt cache.fits

theorem RunCache.nodup_ofUser (cache : RunCache F) (userID : String) :
    (cache.ofUser userID).Nodup := by
  have hids : ((cache.ofUser userID).map RunSummary.runID).Nodup := by
    have hmap : (cache.ofUser userID).map RunSummary.runID =
        (cache.runs.filter fun run => run.userID = userID).map RunResult.runID := by
      rw [ofUser, List.map_map]
      rfl
    rw [hmap]
    exact cache.distinct.sublist (List.filter_sublist.map _)
  exact hids.of_map

theorem exists_listing (cache : RunCache F) (userID : String) : ∃ l, Listing cache userID l := by
  obtain ⟨l, hperm, hdescending⟩ := exists_descending RunSummary.startedAt (cache.ofUser userID)
  exact ⟨l, hperm, hdescending⟩

theorem Listing.length_lt {l : List (RunSummary F)} (h : Listing cache userID l) :
    l.length < 2 ^ 62 :=
  h.perm.length_eq ▸ cache.length_ofUser userID

theorem neverPanics_iff (cache : RunCache F) (userID : String) (r : ListRequest) :
    NeverPanics cache userID r ↔ r.InRange (cache.ofUser userID).length := by
  constructor
  · intro h
    obtain ⟨l, hl⟩ := exists_listing cache userID
    have hsome : (paginate r l).isSome = true := h _ ⟨l, hl, rfl⟩
    rwa [isSome_paginate hl.length_lt, hl.perm.length_eq] at hsome
  · rintro h _ ⟨l, hl, rfl⟩
    rwa [isSome_paginate hl.length_lt, hl.perm.length_eq]

/-! ## All pages -/

/-- No page boundary separates runs that were started at the same time. -/
def CleanCuts (cache : RunCache F) (userID : String) (limit : Nat) : Prop :=
  ∀ k, ¬ Straddled RunSummary.startedAt (cache.ofUser userID) (k * limit)

theorem lt_pageCount {total limit k : Nat} (hlimit : 0 < limit) :
    k < pageCount total limit ↔ k * limit < total := by
  rw [pageCount, ← Nat.succ_le_iff, Nat.le_div_iff_mul_le hlimit, Nat.succ_mul]
  omega

theorem page_perm {limit k : Nat} {l : List (RunSummary F)} (h : Listing cache userID l)
    (hcuts : CleanCuts cache userID limit) : ((l.drop (k * limit)).take limit).Perm
      ((cache.ofUser userID).filter fun a =>
        decide (k * limit ≤ above RunSummary.startedAt (cache.ofUser userID) a ∧
          above RunSummary.startedAt (cache.ofUser userID) a < (k + 1) * limit)) := by
  have hcut : ∀ k, ¬ Straddled RunSummary.startedAt l (k * limit) := fun k =>
    mt (straddled_perm h.perm).mp (hcuts k)
  have hpage := page_eq_filter h.descending (hcut k) (hcut (k + 1))
    (Nat.mul_le_mul_right limit (Nat.le_succ k))
  rw [Nat.succ_mul, Nat.add_sub_cancel_left, ← Nat.succ_mul] at hpage
  rw [hpage]
  simp only [above_perm h.perm]
  exact h.perm.filter _

theorem complete_of_cleanCuts {limit : Nat} (hlimit : 0 < limit) (hhundred : limit ≤ 100)
    (hcuts : CleanCuts cache userID limit) : CompletePages cache userID limit := by
  intro answers hanswers
  have hall : (cache.ofUser userID).filter (fun a => decide (above RunSummary.startedAt
      (cache.ofUser userID) a < pageCount (cache.ofUser userID).length limit * limit)) =
        cache.ofUser userID := by
    refine List.filter_eq_self.mpr fun a ha => decide_eq_true ((above_lt_length ha).trans_le ?_)
    exact not_lt.mp fun hlt => lt_irrefl _ ((lt_pageCount hlimit).mpr hlt)
  have hpages := pages_perm RunSummary.startedAt (cache.ofUser userID) limit
    (pageCount (cache.ofUser userID).length limit)
  rw [hall] at hpages
  refine (List.Perm.flatMap_left _ fun k hk => ?_).trans hpages
  have hcount := List.mem_range.mp hk
  obtain ⟨l, hl, heq⟩ := hanswers k hcount
  rw [heq, paginate_pageRequest hl.length_lt hlimit hhundred
    (hl.perm.length_eq ▸ (lt_pageCount hlimit).mp hcount)]
  exact page_perm hl hcuts

theorem cleanCuts_of_complete {limit : Nat} (hlimit : 0 < limit) (hhundred : limit ≤ 100)
    (h : CompletePages cache userID limit) : CleanCuts cache userID limit := by
  intro j hstraddled
  obtain ⟨pre, x, y, post, hcut, hperm, hdescending, hswapped⟩ := exists_swapped hstraddled
  have hperm' : (pre ++ y :: x :: post).Perm (cache.ofUser userID) :=
    ((List.Perm.swap x y post).append_left pre).trans hperm
  obtain ⟨i, rfl⟩ : ∃ i, j = i + 1 := by
    refine Nat.exists_eq_add_one.mpr (Nat.pos_of_ne_zero fun hzero => ?_)
    rw [hzero, Nat.zero_mul] at hcut
    exact Nat.succ_ne_zero _ hcut
  rw [Nat.succ_mul] at hcut
  have htotal : (i + 1) * limit < (cache.ofUser userID).length := by
    rw [← hperm.length_eq, List.length_append, List.length_cons, List.length_cons, Nat.succ_mul]
    omega
  have hbefore : i * limit < (cache.ofUser userID).length :=
    (Nat.mul_le_mul_right limit (Nat.le_succ i)).trans_lt htotal
  -- the pages in front of the cut come from one listing, those behind it from the other
  have hlistings : ∀ k, ∃ l, Listing cache userID l ∧
      l = if k ≤ i then pre ++ x :: y :: post else pre ++ y :: x :: post := by
    intro k
    refine ⟨_, ?_, rfl⟩
    split
    · exact ⟨hperm, hdescending⟩
    · exact ⟨hperm', hswapped⟩
  choose listing hlisting hchoice using hlistings
  have hpages := h (fun k => (paginate (pageRequest limit k) (listing k), (listing k).length))
    fun k _ => ⟨listing k, hlisting k, rfl⟩
  have hpage : ∀ k, k * limit < (cache.ofUser userID).length →
      paginate (pageRequest limit k) (listing k) =
        some (((listing k).drop (k * limit)).take limit) := fun k hk =>
    paginate_pageRequest (hlisting k).length_lt hlimit hhundred
      ((hlisting k).perm.length_eq ▸ hk)
  have hfront : x ∈ (paginate (pageRequest limit i) (listing i)).getD [] := by
    rw [hpage i hbefore, Option.getD_some, hchoice i, if_pos le_rfl]
    exact mem_page (by omega) (by omega)
  have hbehind : x ∈ (paginate (pageRequest limit (i + 1)) (listing (i + 1))).getD [] := by
    rw [hpage (i + 1) htotal, Option.getD_some, hchoice (i + 1), if_neg (Nat.not_succ_le_self i),
      ← List.singleton_append, ← List.append_assoc]
    have hplace : (pre ++ [y]).length = (i + 1) * limit := by
      rw [List.length_append, List.length_singleton, Nat.succ_mul, hcut]
    exact mem_page hplace.ge (hplace ▸ Nat.lt_add_of_pos_right hlimit)
  have hdisjoint := (List.nodup_flatMap.mp
    (hpages.nodup_iff.mpr (cache.nodup_ofUser userID))).2
  have hpair := List.pairwise_iff_getElem.mp hdisjoint i (i + 1)
    (by rw [List.length_range]; exact (lt_pageCount hlimit).mpr hbefore)
    (by rw [List.length_range]; exact (lt_pageCount hlimit).mpr htotal) (Nat.lt_succ_self i)
  rw [List.getElem_range, List.getElem_range] at hpair
  exact hpair hfront hbehind

/-- The pages of a user: no request goes out of range, and all pages have every run once. -/
theorem listing_iff (cache : RunCache F) (userID : String) :
    (∀ r, NeverPanics cache userID r ↔ r.InRange (cache.ofUser userID).length) ∧
      ∀ limit, 1 ≤ limit → limit ≤ 100 →
        (CompletePages cache userID limit ↔ CleanCuts cache userID limit) :=
  ⟨neverPanics_iff cache userID, fun _ hlimit hhundred =>
    ⟨cleanCuts_of_complete hlimit hhundred, complete_of_cleanCuts hlimit hhundred⟩⟩

/-! Two runs that were started at the same time. -/

def plainRun (runID : String) : RunResult Int where
  toMeasured := .zero
  runID := runID
  userID := "user"
  roundID := ""
  isPractice := true
  status := .queued
  startedAt := 1700000000000
  completedAt := 0

def twoRuns : RunCache Int := ⟨[plainRun "a", plainRun "b"], by decide, by decide⟩

/-- A limit below zero cuts out of range, and pages of one run may show one of two runs twice. -/
theorem not_neverPanics_not_complete :
    ¬ NeverPanics twoRuns "user" ⟨none, some (-1)⟩ ∧ ¬ CompletePages twoRuns "user" 1 := by
  refine ⟨fun h => ?_, fun h => ?_⟩
  · exact absurd ((neverPanics_iff twoRuns "user" ⟨none, some (-1)⟩).mp h) (by decide)
  · have hmem : (plainRun "a").summary ∈ twoRuns.ofUser "user" :=
      List.mem_map_of_mem (List.mem_filter.mpr ⟨List.mem_cons_self, by decide⟩)
    exact cleanCuts_of_complete (by decide) (by decide) h 1 ⟨_, hmem, by decide, by decide⟩

end VidhiArena.Backend
