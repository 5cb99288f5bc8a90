import Mathlib.Data.List.DropRight
import Mathlib.Tactic.Common

/-!
# Path names

Names of files on Unix as lists of characters, with `Base`, `Clean` and `Join` of the Go
package `filepath`, and the search for the first file among several places. A file system is a
partial function from names to whatever a file is.
-/

namespace VidhiArena.Foundation

abbrev Path := List Char

namespace Path

/-- A name that a directory can list. -/
def IsName (name : Path) : Prop :=
  name ≠ [] ∧ '/' ∉ name ∧ name ≠ ['.'] ∧ name ≠ ['.', '.']

instance (name : Path) : Decidable (IsName name) := by
  unfold IsName
  infer_instance

/-! ## The last element -/

/-- `filepath.Base`. -/
def base (path : Path) : Path :=
  if path = [] then ['.']
  else
    match (path.rdropWhile (· == '/')).rtakeWhile (· != '/') with
    | [] => ['/']
    | name => name

theorem base_nil : base [] = ['.'] := rfl

/-- A path that is not made of separators alone, without those at its end. -/
theorem base_eq {path : Path} (h : path.rdropWhile (· == '/') ≠ []) :
    base path = (path.rdropWhile (· == '/')).rtakeWhile (· != '/') := by
  have hpath : path ≠ [] := by
    rintro rfl
    exact h rfl
  have hlast := List.rdropWhile_last_not _ _ h
  rw [base, if_neg hpath]
  split
  · next hnil =>
      have hsep := List.rtakeWhile_eq_nil_iff.mp hnil h
      exact absurd (by simpa using hsep) hlast
  · rfl

theorem base_eq_sep {path : Path} (hpath : path ≠ [])
    (h : path.rdropWhile (· == '/') = []) : base path = ['/'] := by
  rw [base, if_neg hpath, h]
  rfl

theorem rdropWhile_ne_nil {path : Path} (h : IsName (base path)) :
    path.rdropWhile (· == '/') ≠ [] := by
  intro hnil
  by_cases hpath : path = []
  · rw [hpath, base_nil] at h
    exact h.2.2.1 rfl
  · rw [base_eq_sep hpath hnil] at h
    exact h.2.1 (List.mem_singleton_self _)

theorem rtakeWhile_append_sep (dir path : Path) :
    (dir ++ '/' :: path).rtakeWhile (· != '/') = path.rtakeWhile (· != '/') := by
  induction path using List.reverseRecOn with
  | nil => exact List.rtakeWhile_concat_neg _ _ _ (by decide)
  | append_singleton path c ih =>
      rw [← List.cons_append, ← List.append_assoc, List.rtakeWhile_concat,
        List.rtakeWhile_concat, ih]

theorem base_append_sep {path : Path} (dir : Path) (h : path.rdropWhile (· == '/') ≠ []) :
    base (dir ++ '/' :: path) = base path := by
  have hdrop : (dir ++ '/' :: path).rdropWhile (· == '/') =
      dir ++ '/' :: path.rdropWhile (· == '/') := by
    have hne : path.reverse.dropWhile (· == '/') ≠ [] := fun hnil =>
      h (congrArg List.reverse hnil)
    rw [List.rdropWhile, List.reverse_append, List.dropWhile_append, List.reverse_cons,
      List.dropWhile_append, List.rdropWhile]
    simp [hne]
  rw [base_eq h, base_eq (by rw [hdrop]; exact List.append_ne_nil_of_right_ne_nil _ nofun), hdrop,
    rtakeWhile_append_sep]

theorem base_of_not_mem {name : Path} (hne : name ≠ []) (hsep : '/' ∉ name) :
    base name = name := by
  have hdrop : name.rdropWhile (· == '/') = name := by
    refine List.rdropWhile_eq_self_iff.mpr fun hl hlast => hsep ?_
    rw [← eq_of_beq hlast]
    exact List.getLast_mem hl
  rw [base_eq (hdrop.symm ▸ hne), hdrop]
  exact List.rtakeWhile_eq_self_iff.mpr fun c hc => by
    simpa using fun heq : c = '/' => hsep (heq ▸ hc)

/-- A path that does not end in a separator ends in its last element. -/
theorem eq_append_base {path : Path} (h : path.rdropWhile (· == '/') = path) (hne : path ≠ []) :
    path = base path ∨ ∃ dir, path = dir ++ '/' :: base path := by
  have hbase : base path = path.rtakeWhile (· != '/') := by
    rw [base_eq (h.symm ▸ hne), h]
  have hsplit : path.rdropWhile (· != '/') ++ path.rtakeWhile (· != '/') = path :=
    List.rdropWhile_append_rtakeWhile
  rw [← hbase] at hsplit
  rcases List.eq_nil_or_concat' (path.rdropWhile (· != '/')) with hdir | ⟨dir, c, hdir⟩
  · rw [hdir] at hsplit
    exact Or.inl hsplit.symm
  · have hc := List.rdropWhile_last_not (· != '/') path (by rw [hdir]; simp)
    simp only [hdir, List.getLast_append_singleton, bne_iff_ne, not_not] at hc
    rw [hdir, hc, List.append_assoc] at hsplit
    exact Or.inr ⟨dir, hsplit.symm⟩

/-! ## Joining -/

/-- One element in `filepath.Clean`: `out` has the elements that are kept, the last first. -/
def cleanStep (rooted : Bool) (out : List Path) (elem : Path) : List Path :=
  if elem = [] ∨ elem = ['.'] then out
  else if elem = ['.', '.'] then
    match out with
    | [] => if rooted then [] else [elem]
    | last :: rest => if last = ['.', '.'] then elem :: out else rest
  else elem :: out

/-- `filepath.Clean`. -/
def clean (path : Path) : Path :=
  let rooted := path.head? == some '/'
  let elems := ((path.splitOn '/').foldl (cleanStep rooted) []).reverse
  if rooted then '/' :: ['/'].intercalate elems
  else if elems = [] then ['.']
  else ['/'].intercalate elems

/-- `filepath.Join`. -/
def join (elems : List Path) : Path :=
  match elems.dropWhile (· == []) with
  | [] => []
  | elems => clean (['/'].intercalate elems)

section Join

variable {names : List Path} {name : Path}

theorem intercalate_cons (name : Path) (names : List Path) (h : names ≠ []) :
    ['/'].intercalate (name :: names) = name ++ '/' :: ['/'].intercalate names := by
  cases names with
  | nil => exact absurd rfl h
  | cons => rfl

theorem intercalate_concat (name : Path) : ∀ {dirs : List Path}, dirs ≠ [] →
    ['/'].intercalate (dirs ++ [name]) = ['/'].intercalate dirs ++ '/' :: name
  | [dir], _ => by
      rw [List.singleton_append, intercalate_cons dir [name] (List.cons_ne_nil _ _)]
      simp
  | dir :: dir' :: dirs, _ => by
      have ih := intercalate_concat name (List.cons_ne_nil dir' dirs)
      rw [List.cons_append, intercalate_cons dir (dir' :: dirs ++ [name]) (List.cons_ne_nil _ _),
        ih, intercalate_cons dir (dir' :: dirs) (List.cons_ne_nil _ _), List.append_assoc]
      rfl

theorem foldl_cleanStep (rooted : Bool) (h : ∀ name ∈ names, IsName name) (out : List Path) :
    names.foldl (cleanStep rooted) out = names.reverse ++ out := by
  induction names generalizing out with
  | nil => rfl
  | cons name names ih =>
      obtain ⟨⟨hne, -, hdot, hdots⟩, hnames⟩ := List.forall_mem_cons.mp h
      have hstep : cleanStep rooted out name = name :: out := by
        rw [cleanStep.eq_def, if_neg (not_or.mpr ⟨hne, hdot⟩), if_neg hdots]
      rw [List.foldl_cons, hstep, ih hnames, List.reverse_cons, List.append_assoc]
      rfl

theorem splitOn_cons_intercalate {elem : Path} (helem : '/' ∉ elem)
    (h : ∀ name ∈ names, IsName name) :
    (['/'].intercalate (elem :: names)).splitOn '/' = elem :: names := by
  refine List.splitOn_intercalate '/' ?_ (List.cons_ne_nil _ _)
  exact List.forall_mem_cons.mpr ⟨helem, fun name hin => (h name hin).2.1⟩

theorem cleanStep_ne_nil {rooted : Bool} {out : List Path} (h : [] ∉ out) (elem : Path) :
    [] ∉ cleanStep rooted out elem := by
  rw [cleanStep.eq_def]
  split
  · exact h
  · next hkept =>
      have hcons : [] ∉ elem :: out := List.not_mem_cons_of_ne_of_not_mem
        (fun heq => hkept (Or.inl heq.symm)) h
      split
      · split
        · split
          · exact h
          · exact hcons
        · split
          · exact hcons
          · exact fun hin => h (List.mem_cons_of_mem _ hin)
      · exact hcons

theorem clean_ne_nil (path : Path) : clean path ≠ [] := by
  have hkept : ∀ elems : List Path, ∀ out : List Path, [] ∉ out →
      [] ∉ elems.foldl (cleanStep (path.head? == some '/')) out := by
    intro elems
    induction elems with
    | nil => exact fun _ h => h
    | cons elem elems ih => exact fun out h => ih _ (cleanStep_ne_nil h elem)
  rw [clean]
  split
  · exact List.cons_ne_nil _ _
  · split
    · exact List.cons_ne_nil _ _
    · next hne =>
        obtain ⟨elem, elems, heq⟩ := List.exists_cons_of_ne_nil hne
        have helem : elem ≠ [] := by
          rintro rfl
          refine hkept (path.splitOn '/') [] List.not_mem_nil ?_
          rw [← List.mem_reverse, heq]
          exact List.mem_cons_self
        rw [heq]
        cases elems with
        | nil => simpa using helem
        | cons => exact List.append_ne_nil_of_left_ne_nil helem _

theorem join_ne_nil (h : name ≠ []) : join (name :: names) ≠ [] := by
  rw [join, List.dropWhile_cons_of_neg (by simpa using h)]
  exact clean_ne_nil _

theorem clean_eq {path : Path} (rooted : Bool) (hrooted : (path.head? == some '/') = rooted)
    (hne : names ≠ []) (hfold : (path.splitOn '/').foldl (cleanStep rooted) [] = names.reverse) :
    clean path = if rooted then '/' :: ['/'].intercalate names else ['/'].intercalate names := by
  simp only [clean, hrooted, hfold, List.reverse_reverse, if_neg hne]

section Directory

variable {dirs : List Path} (hdirs : ∀ dir ∈ dirs, IsName dir) (h : IsName name)

include hdirs h

theorem forall_isName_concat : ∀ dir ∈ dirs ++ [name], IsName dir := by
  intro dir hin
  rcases List.mem_append.mp hin with hin | hin
  · exact hdirs dir hin
  · exact List.mem_singleton.mp hin ▸ h

theorem join_names (hne : dirs ≠ []) :
    join (dirs ++ [name]) = ['/'].intercalate dirs ++ '/' :: name := by
  obtain ⟨dir, dirs, rfl⟩ := List.exists_cons_of_ne_nil hne
  obtain ⟨hdir, hrest⟩ := List.forall_mem_cons.mp hdirs
  obtain ⟨hdir_ne, hsep, -, -⟩ := id hdir
  obtain ⟨c, cs, rfl⟩ := List.exists_cons_of_ne_nil hdir_ne
  have hpath : join ((c :: cs) :: dirs ++ [name]) =
      clean (['/'].intercalate ((c :: cs) :: (dirs ++ [name]))) := rfl
  have hrooted : ((['/'].intercalate ((c :: cs) :: (dirs ++ [name]))).head? == some '/') =
      false := by
    rw [intercalate_cons _ _ (List.append_ne_nil_of_right_ne_nil _ (List.cons_ne_nil _ _))]
    exact beq_eq_false_iff_ne.mpr fun heq => hsep (Option.some.inj heq ▸ List.mem_cons_self)
  rw [← intercalate_concat name (List.cons_ne_nil _ _), hpath]
  refine clean_eq false hrooted (List.cons_ne_nil _ _) ?_
  rw [splitOn_cons_intercalate hsep (forall_isName_concat hrest h),
    ← List.cons_append, foldl_cleanStep false (forall_isName_concat hdirs h), List.append_nil]

/-- `filepath.Join` of a name below a directory of the working directory. -/
theorem join_dot (hne : dirs ≠ []) :
    join (['.'] :: (dirs ++ [name])) = ['/'].intercalate dirs ++ '/' :: name := by
  have hnames := forall_isName_concat hdirs h
  have hconcat : dirs ++ [name] ≠ [] := List.append_ne_nil_of_left_ne_nil hne _
  rw [← intercalate_concat name hne]
  change clean (['/'].intercalate (['.'] :: (dirs ++ [name]))) = _
  refine clean_eq false ?_ hconcat ?_
  · rw [intercalate_cons _ _ hconcat]
    rfl
  · rw [splitOn_cons_intercalate (by decide) hnames]
    exact (foldl_cleanStep false hnames []).trans (List.append_nil _)

theorem join_rooted {dir : Path} (hdir : IsName dir) :
    join (('/' :: dir) :: (dirs ++ [name])) =
      '/' :: ['/'].intercalate (dir :: dirs) ++ '/' :: name := by
  have hnames := forall_isName_concat (List.forall_mem_cons.mpr ⟨hdir, hdirs⟩) h
  have hconcat : dirs ++ [name] ≠ [] := List.append_ne_nil_of_right_ne_nil _ (List.cons_ne_nil _ _)
  have hpath : ['/'].intercalate (('/' :: dir) :: (dirs ++ [name])) =
      ['/'].intercalate ([] :: (dir :: dirs ++ [name])) := by
    rw [intercalate_cons _ _ hconcat,
      intercalate_cons [] (dir :: dirs ++ [name]) (List.cons_ne_nil _ _), List.cons_append,
      List.cons_append, intercalate_cons _ _ hconcat]
    rfl
  rw [List.cons_append, ← intercalate_concat name (List.cons_ne_nil _ _)]
  change clean (['/'].intercalate (('/' :: dir) :: (dirs ++ [name]))) = _
  rw [hpath]
  refine clean_eq true ?_ (List.cons_ne_nil _ _) ?_
  · rw [intercalate_cons [] (dir :: dirs ++ [name]) (List.cons_ne_nil _ _)]
    rfl
  · rw [splitOn_cons_intercalate List.not_mem_nil hnames]
    exact (foldl_cleanStep true hnames []).trans (List.append_nil _)

end Directory

end Join

/-! ## Looking for a file -/

section FileSystem

variable {β : Type*} {fs : Path → Option β} {places : List Path} {fallback : Path}

/-- The first place where a file exists, else `fallback`. -/
def firstExisting (fs : Path → Option β) (places : List Path) (fallback : Path) : Path :=
  (places.find? fun path => path != [] && (fs path).isSome).getD fallback

/-- What is found is one of the places where a file exists, or the fallback. -/
theorem firstExisting_cases (fs : Path → Option β) (places : List Path) (fallback : Path) :
    (firstExisting fs places fallback ∈ places ∧
      (fs (firstExisting fs places fallback)).isSome = true) ∨
    firstExisting fs places fallback = fallback := by
  rw [firstExisting]
  cases hfind : places.find? fun path => path != [] && (fs path).isSome with
  | some path =>
      have hexists := List.find?_some hfind
      exact Or.inl ⟨List.mem_of_find?_eq_some hfind, (Bool.and_eq_true_iff.mp hexists).2⟩
  | none => exact Or.inr rfl

theorem firstExisting_cons (path : Path) (places : List Path) (hne : path ≠ []) :
    firstExisting fs (path :: places) fallback =
      if (fs path).isSome then path else firstExisting fs places fallback := by
  rw [firstExisting, List.find?_cons, bne_iff_ne.mpr hne, Bool.true_and]
  cases fs path <;> rfl

theorem file_firstExisting (h : fallback ∈ places) (hne : [] ∉ places) :
    fs (firstExisting fs places fallback) = places.findSome? fs := by
  suffices hfile : fs (firstExisting fs places fallback) = (places.findSome? fs).or (fs fallback) by
    rw [hfile]
    cases hfound : places.findSome? fs with
    | some => rfl
    | none => exact List.findSome?_eq_none_iff.mp hfound fallback h
  clear h
  induction places with
  | nil => rfl
  | cons path places ih =>
      have hpath : path ≠ [] := (List.ne_of_not_mem_cons hne).symm
      rw [firstExisting_cons path places hpath, List.findSome?_cons]
      cases hfile : fs path with
      | some file => exact hfile
      | none => exact ih (List.not_mem_of_not_mem_cons hne)

/-- A file is found if those that the places before it may hold are the same one. -/
theorem file_firstExisting_of_only {file : β} {place : Path} {before after : List Path}
    (honly : ∀ path ∈ before, ∀ file', fs path = some file' → file' = file)
    (hne : [] ∉ before) (hplace : fs place = some file) (hplace_ne : place ≠ []) :
    fs (firstExisting fs (before ++ place :: after) fallback) = some file := by
  induction before with
  | nil =>
      rw [List.nil_append, firstExisting_cons place after hplace_ne, hplace]
      exact hplace
  | cons path before ih =>
      have hpath : path ≠ [] := (List.ne_of_not_mem_cons hne).symm
      obtain ⟨hsame, honly⟩ := List.forall_mem_cons.mp honly
      rw [List.cons_append, firstExisting_cons path _ hpath]
      cases hfile : fs path with
      | some file' => exact hfile.trans (congrArg some (hsame file' hfile))
      | none => exact ih honly (List.not_mem_of_not_mem_cons hne)

end FileSystem

end Path

end VidhiArena.Foundation
