import VidhiArena.Foundation.Paths

/-!
# Where a dataset is found

The two copies of `resolveDatasetPath`: that of `backend/main.go`, which serves downloads and
runs that are dispatched directly, and that of `backend/worker/job_worker.go`, which serves runs
from the job queue. Both try a list of places and return the first one where a file exists.

Names are those of Unix. A file system gives each name its file; two names with one file are
two spellings or links of it.
-/

namespace VidhiArena

open VidhiArena.Foundation
open VidhiArena.Foundation.Path (base join firstExisting IsName)

/-- `unicode.IsSpace`. -/
def isSpace (c : Char) : Bool :=
  let n := c.toNat
  (9 ≤ n && n ≤ 13) || n == 0x20 || n == 0x85 || n == 0xA0 || n == 0x1680 ||
    (0x2000 ≤ n && n ≤ 0x200A) || n == 0x2028 || n == 0x2029 || n == 0x202F || n == 0x205F ||
    n == 0x3000

/-- `strings.TrimSpace`. -/
def trimSpace (s : String) : Path := (s.toList.dropWhile isSpace).rdropWhile isSpace

/-- `defaultName`. -/
def defaultName (ticks : Int) (preferFinal : Bool) : Path :=
  if preferFinal || 100000 < ticks then "eval_1m.bin".toList else "public_99k.bin".toList

variable {β : Type*}

namespace Backend

/-- `candidates`, of a name that has been trimmed. -/
def candidates (fileName defaultName : Path) : List Path :=
  (if fileName ≠ [] then
    (if fileName.head? = some '/' then [fileName] else []) ++
    [ fileName,
      join [".".toList, "data".toList, "ticks".toList, base fileName],
      join ["backend".toList, "data".toList, "ticks".toList, base fileName],
      join ["/app".toList, "data".toList, "ticks".toList, base fileName] ]
  else []) ++
  [ join [".".toList, "datasets".toList, base fileName],
    join ["/app".toList, "datasets".toList, base fileName],
    join [".".toList, "data".toList, "ticks".toList, defaultName],
    join ["backend".toList, "data".toList, "ticks".toList, defaultName],
    join ["/app".toList, "data".toList, "ticks".toList, defaultName],
    join [".".toList, "datasets".toList, defaultName],
    join ["/app".toList, "datasets".toList, defaultName],
    defaultName ]

def resolveDatasetPath (fs : Path → Option β) (stored : String) (ticks : Int)
    (preferFinal : Bool) : Path :=
  let fileName := trimSpace stored
  let defaultName := defaultName ticks preferFinal
  firstExisting fs (candidates fileName defaultName)
    (join [".".toList, "data".toList, "ticks".toList, defaultName])

end Backend

namespace Worker

def filepathBase (path : Path) : Path :=
  let path := path.map fun c => if c = '\\' then '/' else c
  (path.splitOn '/').getLast (List.splitOn_ne_nil _ _)

def candidates (fileName defaultName : Path) : List Path :=
  (if fileName ≠ [] then
    (if fileName.head? = some '/' then [fileName] else []) ++
    [ fileName,
      "/app/data/ticks/".toList ++ fileName,
      "/app/data/ticks/".toList ++ filepathBase fileName ]
  else []) ++
  [ "/app/data/ticks/".toList ++ defaultName,
    defaultName ]

def resolveDatasetPath (fs : Path → Option β) (stored : String) (ticks : Int)
    (preferFinal : Bool) : Path :=
  let fileName := trimSpace stored
  let defaultName := defaultName ticks preferFinal
  firstExisting fs (candidates fileName defaultName) ("/app/data/ticks/".toList ++ defaultName)

end Worker

theorem isName_defaultName (ticks : Int) (preferFinal : Bool) :
    IsName (defaultName ticks preferFinal) := by
  rw [defaultName]
  split <;> decide

/-! ## The directories -/

namespace Backend

/-- The directories of datasets that `resolveDatasetPath` looks in. -/
def datasetDirs : List Path :=
  [ "data/ticks".toList, "backend/data/ticks".toList, "/app/data/ticks".toList,
    "datasets".toList, "/app/datasets".toList ]

variable {name : Path}

/-- What `filepath.Join` makes of a name in the five directories. -/
theorem join_datasetDirs (h : IsName name) :
    [ join [".".toList, "data".toList, "ticks".toList, name],
      join ["backend".toList, "data".toList, "ticks".toList, name],
      join ["/app".toList, "data".toList, "ticks".toList, name],
      join [".".toList, "datasets".toList, name],
      join ["/app".toList, "datasets".toList, name] ] =
    datasetDirs.map (· ++ '/' :: name) := by
  have hdot : ".".toList = ['.'] := by decide
  have happ : "/app".toList = '/' :: "app".toList := by decide
  rw [hdot, happ]
  have hticks : ∀ dir ∈ ["data".toList, "ticks".toList], IsName dir := by decide
  have hdata : ∀ dir ∈ ["datasets".toList], IsName dir := by decide
  have hdirs : datasetDirs =
      [ ['/'].intercalate ["data".toList, "ticks".toList],
        ['/'].intercalate ["backend".toList, "data".toList, "ticks".toList],
        '/' :: ['/'].intercalate ["app".toList, "data".toList, "ticks".toList],
        ['/'].intercalate ["datasets".toList],
        '/' :: ['/'].intercalate ["app".toList, "datasets".toList] ] := by decide
  have hbackend : ∀ dir ∈ ["backend".toList, "data".toList, "ticks".toList], Path.IsName dir := by
    decide
  rw [hdirs]
  exact congrArg₂ _ (Path.join_dot hticks h (List.cons_ne_nil _ _))
    (congrArg₂ _ (Path.join_names hbackend h (List.cons_ne_nil _ _))
    (congrArg₂ _ (Path.join_rooted hticks h (by decide))
    (congrArg₂ _ (Path.join_dot hdata h (List.cons_ne_nil _ _))
    (congrArg (· :: []) (Path.join_rooted hdata h (by decide))))))

variable {file default : Path}

theorem ne_nil_of_isName_base (hfile : IsName (base file)) : file ≠ [] := by
  rintro rfl
  exact hfile.2.2.1 rfl

theorem candidates_eq (hfile : IsName (base file)) (hdefault : IsName default) :
    candidates file default =
      ((if file.head? = some '/' then [file] else []) ++
        [file, "data/ticks".toList ++ '/' :: base file,
          "backend/data/ticks".toList ++ '/' :: base file]) ++
      ("/app/data/ticks".toList ++ '/' :: base file) ::
      (["datasets".toList ++ '/' :: base file, "/app/datasets".toList ++ '/' :: base file] ++
        datasetDirs.map (· ++ '/' :: default) ++ [default]) := by
  have hb := join_datasetDirs hfile
  have hd := join_datasetDirs hdefault
  simp only [datasetDirs, List.map_cons, List.map_nil, List.cons.injEq, and_true] at hb hd ⊢
  obtain ⟨hb₁, hb₂, hb₃, hb₄, hb₅⟩ := hb
  obtain ⟨hd₁, hd₂, hd₃, hd₄, hd₅⟩ := hd
  rw [candidates, if_pos (ne_nil_of_isName_base hfile), hb₁, hb₂, hb₃, hb₄, hb₅, hd₁, hd₂, hd₃,
    hd₄, hd₅]
  simp only [List.append_assoc, List.cons_append, List.nil_append]

/-- The stored name as it is, a name in one of the directories, or the bare default. -/
theorem mem_candidates (hfile : IsName (base file)) (hdefault : IsName default) {path : Path}
    (h : path ∈ candidates file default) :
    path = file ∨ (∃ dir ∈ datasetDirs, path = dir ++ '/' :: base file ∨
      path = dir ++ '/' :: default) ∨ path = default := by
  rw [candidates_eq hfile hdefault] at h
  have hplace : ∀ dir ∈ datasetDirs, path = dir ++ '/' :: base file →
      path = file ∨ (∃ dir ∈ datasetDirs, path = dir ++ '/' :: base file ∨
        path = dir ++ '/' :: default) ∨ path = default :=
    fun dir hdir heq => Or.inr (Or.inl ⟨dir, hdir, Or.inl heq⟩)
  simp only [List.mem_append, List.mem_cons, List.not_mem_nil, or_false, List.mem_map] at h
  rcases h with ((habs | hname | hdata | hbackend)) | happ | ((hdata | happ) | hdir) | hbare
  · split at habs
    · exact Or.inl (List.mem_singleton.mp habs)
    · exact absurd habs List.not_mem_nil
  · exact Or.inl hname
  · exact hplace _ (by decide) hdata
  · exact hplace _ (by decide) hbackend
  · exact hplace _ (by decide) happ
  · exact hplace _ (by decide) hdata
  · exact hplace _ (by decide) happ
  · obtain ⟨dir, hin, heq⟩ := hdir
    exact Or.inr (Or.inl ⟨dir, hin, Or.inr heq.symm⟩)
  · exact Or.inr (Or.inr hbare)

end Backend

/-! ## The same file -/

section SameFile

variable {fs : Path → Option β} {path default fallback : Path} {file : β}

theorem base_below (dir : Path) (h : IsName (base path)) : base (dir ++ '/' :: path) = base path :=
  Path.base_append_sep dir (Path.rdropWhile_ne_nil h)

theorem base_name (h : IsName path) : base path = path := Path.base_of_not_mem h.1 h.2.1

theorem base_dir_name (dir : Path) (h : IsName path) : base (dir ++ '/' :: path) = path := by
  have hbase := base_name h
  rw [base_below dir (hbase.symm ▸ h), hbase]

theorem forall_mem_abs {P : Path → Prop} {places : List Path} (hpath : P path)
    (h : ∀ place ∈ places, P place) :
    ∀ place ∈ (if path.head? = some '/' then [path] else []) ++ path :: places, P place := by
  intro place hin
  rcases List.mem_append.mp hin with habs | hin
  · split at habs
    · exact List.mem_singleton.mp habs ▸ hpath
    · exact absurd habs List.not_mem_nil
  · exact List.forall_mem_cons.mpr ⟨hpath, h⟩ place hin

theorem Worker.filepathBase_eq (h : IsName (base path)) (hend : path.getLast? ≠ some '/')
    (hname : '\\' ∉ base path) : filepathBase path = base path := by
  have hdrop : path.rdropWhile (· == '/') = path := by
    refine List.rdropWhile_eq_self_iff.mpr fun hl hlast => hend ?_
    rw [List.getLast?_eq_some_getLast hl, eq_of_beq hlast]
  have hslash : (base path).map (fun c => if c = '\\' then '/' else c) = base path := by
    refine (List.map_congr_left fun c hc => ?_).trans (List.map_id _)
    exact if_neg fun heq : c = '\\' => hname (heq ▸ hc)
  have hsplit : (base path).splitOn '/' = [base path] := List.splitOn_eq_singleton h.2.1
  have hlast : ((path.map fun c => if c = '\\' then '/' else c).splitOn '/').getLast? =
      some (base path) := by
    rcases Path.eq_append_base hdrop (Backend.ne_nil_of_isName_base h) with heq | ⟨dir, heq⟩
    · rw [heq, base_name h, hslash, hsplit]
      rfl
    · generalize base path = name at *
      rw [heq, List.map_append, List.map_cons, hslash, if_neg (by decide),
        List.splitOn_append_cons_self, hsplit, List.getLast?_concat]
  exact Option.some.inj ((List.getLast?_eq_some_getLast _).symm.trans hlast)

theorem ticks_append (name : Path) :
    "/app/data/ticks/".toList ++ name = "/app/data/ticks".toList ++ '/' :: name := by
  have hsep : "/app/data/ticks/".toList = "/app/data/ticks".toList ++ ['/'] := by decide +kernel
  rw [hsep, List.append_assoc]
  rfl

/-- A file is found if the places before it end in the same name, and nothing else does. -/
theorem file_of_places {place : Path} {before after : List Path}
    (hbefore : ∀ place ∈ before, base place = base path ∧ place ≠ []) (hne : place ≠ [])
    (hfile : fs place = some file)
    (honly : ∀ path' file', base path' = base path → fs path' = some file' → file' = file) :
    fs (firstExisting fs (before ++ place :: after) fallback) = some file := by
  refine Path.file_firstExisting_of_only ?_ (fun hin => (hbefore [] hin).2 rfl) hfile hne
  exact fun place hin file' => honly place file' (hbefore place hin).1

/-- The copy of the backend finds a file that no other place holds another one of. -/
theorem Backend.file_resolve (h : IsName (base path)) (hdefault : IsName default)
    (hfile : fs ("/app/data/ticks/".toList ++ base path) = some file)
    (honly : ∀ path' file', base path' = base path → fs path' = some file' → file' = file) :
    fs (firstExisting fs (candidates path default) fallback) = some file := by
  have hdir : ∀ dir, base (dir ++ '/' :: base path) = base path ∧ dir ++ '/' :: base path ≠ [] :=
    fun dir => ⟨base_dir_name dir h, List.append_ne_nil_of_right_ne_nil _ (List.cons_ne_nil _ _)⟩
  have hbefore := forall_mem_abs (P := fun place => base place = base path ∧ place ≠ [])
    ⟨rfl, ne_nil_of_isName_base h⟩ (List.forall_mem_cons.mpr ⟨hdir "data/ticks".toList,
      List.forall_mem_cons.mpr ⟨hdir "backend/data/ticks".toList, List.forall_mem_nil _⟩⟩)
  rw [ticks_append] at hfile
  rw [candidates_eq h hdefault]
  exact file_of_places hbefore (hdir "/app/data/ticks".toList).2 hfile honly

/-- And so does the copy of the worker, unless it takes the end of the name for another one. -/
theorem Worker.file_resolve (h : IsName (base path)) (hend : path.getLast? ≠ some '/')
    (hname : '\\' ∈ base path → '/' ∉ path)
    (hfile : fs ("/app/data/ticks/".toList ++ base path) = some file)
    (honly : ∀ path' file', base path' = base path → fs path' = some file' → file' = file) :
    fs (firstExisting fs (candidates path default) fallback) = some file := by
  have hne := Backend.ne_nil_of_isName_base h
  have hself : base path = base path ∧ path ≠ [] := ⟨rfl, hne⟩
  have hbelow : base ("/app/data/ticks/".toList ++ path) = base path ∧
      "/app/data/ticks/".toList ++ path ≠ [] := by
    rw [ticks_append]
    exact ⟨base_below _ h, List.append_ne_nil_of_right_ne_nil _ (List.cons_ne_nil _ _)⟩
  have hplace : "/app/data/ticks/".toList ++ base path ≠ [] :=
    List.append_ne_nil_of_right_ne_nil _ h.1
  by_cases hslash : '\\' ∈ base path
  · -- the stored name has no directory
    have hpath : base path = path := Path.base_of_not_mem hne (hname hslash)
    have hlist : candidates path default =
        ((if path.head? = some '/' then [path] else []) ++ [path]) ++
          ("/app/data/ticks/".toList ++ base path) ::
          ["/app/data/ticks/".toList ++ filepathBase path,
            "/app/data/ticks/".toList ++ default, default] := by
      rw [candidates, if_pos hne, hpath]
      simp only [List.append_assoc, List.cons_append, List.nil_append]
    rw [hlist]
    exact file_of_places (forall_mem_abs hself (List.forall_mem_nil _)) hplace hfile honly
  · have hlist : candidates path default =
        ((if path.head? = some '/' then [path] else []) ++
          [path, "/app/data/ticks/".toList ++ path]) ++
          ("/app/data/ticks/".toList ++ base path) ::
          ["/app/data/ticks/".toList ++ default, default] := by
      rw [candidates, if_pos hne, filepathBase_eq h hend hslash]
      simp only [List.append_assoc, List.cons_append, List.nil_append]
    rw [hlist]
    exact file_of_places (forall_mem_abs hself
      (List.forall_mem_cons.mpr ⟨hbelow, List.forall_mem_nil _⟩)) hplace hfile honly

end SameFile

/-! ## Resolution -/

namespace Backend

/-- Where the backend's copy ends, and that the worker's copy follows it. A stored name
with a proper last element is resolved to itself, if a file exists there; to that element or the
default name in one of the directories of datasets; or to the bare default name, if a file exists
there. A file that is only in `/app/data/ticks` is found by both copies, whatever the tick counts
and flags. -/
theorem resolveDatasetPath_finds (fs : Path → Option β) (stored : String) (ticks : Int)
    (preferFinal : Bool) (hfile : IsName (base (trimSpace stored))) :
    let file := trimSpace stored
    let default := defaultName ticks preferFinal
    let path := resolveDatasetPath fs stored ticks preferFinal
    ((path = file ∧ (fs path).isSome = true) ∨
      (∃ dir ∈ datasetDirs, path = dir ++ '/' :: base file ∨ path = dir ++ '/' :: default) ∨
      (path = default ∧ (fs path).isSome = true)) ∧
    (file.getLast? ≠ some '/' → ('\\' ∈ base file → '/' ∉ file) →
      ∀ dataset, fs ("/app/data/ticks/".toList ++ base file) = some dataset →
        (∀ place other, base place = base file → fs place = some other → other = dataset) →
        fs path = some dataset ∧ ∀ ticks preferFinal,
          fs (Worker.resolveDatasetPath fs stored ticks preferFinal) = some dataset) := by
  intro file default path
  have hdefault : IsName default := isName_defaultName ticks preferFinal
  constructor
  · rcases Path.firstExisting_cases fs (candidates file default)
      (join [".".toList, "data".toList, "ticks".toList, default]) with ⟨hin, hexists⟩ | hfallback
    · rcases mem_candidates hfile hdefault hin with heq | hdir | heq
      · exact Or.inl ⟨heq, hexists⟩
      · exact Or.inr (Or.inl hdir)
      · exact Or.inr (Or.inr ⟨heq, hexists⟩)
    · refine Or.inr (Or.inl ⟨"data/ticks".toList, by decide, Or.inr (hfallback.trans ?_)⟩)
      exact (List.cons.inj (join_datasetDirs hdefault)).1
  · intro hend hname dataset hdataset honly
    exact ⟨file_resolve hfile hdefault hdataset honly,
      fun _ _ => Worker.file_resolve hfile hend hname hdataset honly⟩

theorem resolveDatasetPath_finds_upload :
    let fs : Path → Option Nat := fun path =>
      if path = "/app/data/ticks/round2.bin".toList then some 7 else none
    fs (resolveDatasetPath fs "round2.bin" 50000 false) = some 7 ∧
      fs (Worker.resolveDatasetPath fs "round2.bin" 1000000 true) = some 7 := by
  intro fs
  have h := (resolveDatasetPath_finds fs "round2.bin" 50000 false (by decide)).2 (by decide)
    (by decide) 7 (by decide) (fun place other _ hother => by
      simp only [fs] at hother
      split at hother
      · exact (Option.some.inj hother).symm
      · exact nomatch hother)
  exact ⟨h.1, h.2 1000000 true⟩

/-- A stored name that exists as it stands is not looked for in any directory; and the worker
takes what follows a separator at the end of the name for the name. -/
theorem stored_name_leaves_directories :
    (¬ ∀ (fs : Path → Option Unit) (stored : String) (ticks : Int) (preferFinal : Bool),
      ∃ dir name, resolveDatasetPath fs stored ticks preferFinal = dir ++ '/' :: name) ∧
    ¬ ∀ (fs : Path → Option Nat) (stored : String) (ticks : Int) (preferFinal : Bool)
        (dataset : Nat),
      fs ("/app/data/ticks/".toList ++ base (trimSpace stored)) = some dataset →
      (∀ place other, base place = base (trimSpace stored) → fs place = some other →
        other = dataset) →
      fs (Worker.resolveDatasetPath fs stored ticks preferFinal) = some dataset := by
  constructor
  · intro h
    obtain ⟨dir, name, heq⟩ := h (fun path => if path = "go.mod".toList then some () else none)
      "go.mod" 100000 false
    have hfound : resolveDatasetPath (fun path =>
        if path = "go.mod".toList then some () else none) "go.mod" 100000 false =
        "go.mod".toList := by decide +kernel
    have hsep : '/' ∈ "go.mod".toList := by
      rw [← hfound, heq]
      exact List.mem_append_right _ List.mem_cons_self
    exact absurd hsep (by decide)
  · intro h
    have hworker := h (fun path =>
      if path = "/app/data/ticks/a".toList then some 1
      else if path = "/app/data/ticks/".toList then some 0 else none) "a/" 100000 false 1
      (by decide +kernel) (fun place other hbase hother => by
        split at hother
        · exact (Option.some.inj hother).symm
        · split at hother
          · next hdir => exact absurd (hdir ▸ hbase) (by decide)
          · exact nomatch hother)
    exact absurd hworker (by decide +kernel)

end Backend

end VidhiArena
