import VidhiArena.Foundation.Faulting

/-!
# The validator of contestant binaries

`ValidateContestantBinary` of `validator/elf_validator.go`. A shared library has three tables
of symbols: the dynamic one and the static one that `debug/elf` finds through the section
headers, if they are there and well formed, and the one that the dynamic loader reads through
`PT_DYNAMIC`. Nothing makes them agree.
-/

namespace VidhiArena.Backend

open Foundation

structure ElfSymbol where
  name : String
  /-- the index of its section; 0 is `SHN_UNDEF` -/
  sectionIndex : Nat
  deriving DecidableEq

def ElfSymbol.Undefined (sym : ElfSymbol) : Prop := sym.sectionIndex = 0

instance (sym : ElfSymbol) : Decidable sym.Undefined := inferInstanceAs (Decidable (_ = _))

inductive ElfType where
  | ET_DYN
  | other (text : String)
  deriving DecidableEq

def ElfType.text : ElfType → String
  | ET_DYN => "ET_DYN"
  | other text => text

/-- What `elf.Open` gives, and the table of the loader. -/
structure ElfFile where
  type : ElfType
  /-- `DynamicSymbols()`; `none` is an error -/
  dynamicSymbols : Option (List ElfSymbol)
  /-- `Symbols()` -/
  symbols : Option (List ElfSymbol)
  /-- `.rodata`, and what `Data()` reads of it -/
  rodata : Option (Option (List UInt8))
  /-- one of the segments is `PT_INTERP` -/
  interp : Bool
  /-- the dynamic symbols that the loader reads through `PT_DYNAMIC` -/
  loaded : List ElfSymbol

/-- A file, as `os.Stat` and `elf.Open` see it. -/
structure Binary where
  stat : Except String Nat
  elf : Except String ElfFile

/-! ## The checks -/

def bannedImports : List (String × String) := [
  ("system", "arbitrary command execution"),
  ("execve", "process replacement"),
  ("execvp", "process replacement"),
  ("execvpe", "process replacement"),
  ("execl", "process replacement"),
  ("execle", "process replacement"),
  ("execlp", "process replacement"),
  ("fork", "process forking"),
  ("vfork", "process forking"),
  ("clone", "thread/process cloning"),
  ("unshare", "namespace manipulation"),
  ("socket", "network access"),
  ("connect", "network access"),
  ("bind", "network binding"),
  ("listen", "network binding"),
  ("accept", "network access"),
  ("sendmsg", "network access"),
  ("recvmsg", "network access"),
  ("ptrace", "process tracing (debugger bypass)"),
  ("process_vm_readv", "cross-process memory read"),
  ("process_vm_writev", "cross-process memory write"),
  ("mprotect", "memory permission change (RWX mapping)"),
  ("dlopen", "dynamic library loading"),
  ("dlmopen", "dynamic library loading"),
  ("popen", "shell pipe execution"),
  ("__libc_system", "arbitrary command execution"),
  ("__execve", "process replacement")]

def bannedStrings : List String := [
  "/bin/sh", "/bin/bash", "/bin/dash", "/bin/zsh",
  "cmd.exe", "powershell",
  "/proc/self/mem",
  "/proc/self/fd",
  "LD_PRELOAD",
  "LD_LIBRARY_PATH",
  "/dev/tcp"]

def onTick : String := "on_tick__cfunc"

/-- `strings.HasPrefix(name, "__libc_") && name != "__libc_start_main"` -/
def suspicious (name : String) : Bool :=
  "__libc_".toList.isPrefixOf name.toList && name != "__libc_start_main"

/-- The loop over the dynamic symbols, with `foundOnTick`. -/
def scanDynamic (foundOnTick : Bool) : List ElfSymbol → Except String Bool
  | [] => .ok foundOnTick
  | sym :: syms =>
      if sym.Undefined then
        match bannedImports.lookup sym.name with
        | some reason =>
            .error s!"security violation: banned import '{sym.name}' ({reason})"
        | none =>
            if suspicious sym.name then
              .error s!"security violation: suspicious libc internal import '{sym.name}'"
            else scanDynamic foundOnTick syms
      else scanDynamic (foundOnTick || sym.name == onTick) syms

/-- `bytes.Contains` -/
def containsBytes (data : List UInt8) (banned : String) : Bool :=
  data.tails.any (banned.toUTF8.toList.isPrefixOf ·)

/-- The first banned string in `.rodata`; a section that cannot be read has none. -/
def bannedLiteral (f : ElfFile) : Option String :=
  f.rodata.join.bind fun data => bannedStrings.find? (containsBytes data ·)

/-- `if !p { return err }` -/
def check (p : Prop) [Decidable p] (err : String) : Except String Unit :=
  if p then .ok () else .error err

def ValidateContestantBinary (b : Binary) : Except String Unit := do
  let size ← b.stat.mapError fun err => s!"stat: {err}"
  check (size ≤ 50 * 1024 * 1024) s!"binary too large ({size} bytes > 50MB limit)"
  let f ← b.elf.mapError fun err => s!"not a valid ELF binary: {err}"
  check (f.type = .ET_DYN) s!"binary type {f.type.text} is not ET_DYN (shared library)"
  -- an error from either table counts as an empty table
  let found ← scanDynamic false (f.dynamicSymbols.getD [])
  check ((found || (f.symbols.getD []).any (·.name == onTick)) = true)
    "missing required export: 'on_tick__cfunc' not found in symbol table"
  (bannedLiteral f).forM fun banned =>
    .error s!"security violation: banned string literal '{banned}' found in .rodata"
  check (f.interp = false) ("security violation: PT_INTERP segment found — " ++
    "binary appears to be an executable, not a shared library")

/-! ## What is accepted -/

/-- A name that must not be imported. -/
def Forbidden (name : String) : Prop :=
  (bannedImports.lookup name).isSome = true ∨ suspicious name = true

/-- A table that imports nothing it must not. -/
def Clean (syms : List ElfSymbol) : Prop := ∀ sym ∈ syms, sym.Undefined → ¬ Forbidden sym.name

/-- A table that defines `on_tick__cfunc`. -/
def Exports (syms : List ElfSymbol) : Prop := ∃ sym ∈ syms, ¬ sym.Undefined ∧ sym.name = onTick

namespace ElfFile

/-- One of the two tables of the section headers has `on_tick__cfunc`, as the code looks for it:
defined in the dynamic one, or anyhow in the static one. -/
def Named (f : ElfFile) : Prop :=
  Exports (f.dynamicSymbols.getD []) ∨ ∃ sym ∈ f.symbols.getD [], sym.name = onTick

end ElfFile

/-- The checks that do not look at symbols. -/
structure Binary.Ordinary (b : Binary) (f : ElfFile) : Prop where
  size : ∃ n, b.stat = .ok n ∧ n ≤ 50 * 1024 * 1024
  elf : b.elf = .ok f
  shared : f.type = .ET_DYN
  literal : bannedLiteral f = none
  interp : f.interp = false

variable {b : Binary} {f : ElfFile} {syms : List ElfSymbol}

theorem clean_cons {sym : ElfSymbol} :
    Clean (sym :: syms) ↔ (sym.Undefined → ¬ Forbidden sym.name) ∧ Clean syms :=
  List.forall_mem_cons

theorem exports_cons {sym : ElfSymbol} :
    Exports (sym :: syms) ↔ ¬ sym.Undefined ∧ sym.name = onTick ∨ Exports syms := by
  simp only [Exports, List.mem_cons, exists_eq_or_imp]

theorem scanDynamic_eq_ok {found found' : Bool} : scanDynamic found syms = .ok found' ↔
    Clean syms ∧ (found' = true ↔ found = true ∨ Exports syms) := by
  induction syms generalizing found with
  | nil =>
      rw [scanDynamic, Except.ok.injEq]
      constructor
      · rintro rfl
        exact ⟨nofun, (or_iff_left nofun).symm⟩
      · rintro ⟨-, h⟩
        exact Bool.eq_iff_iff.mpr (h.trans (or_iff_left nofun)).symm
  | cons sym syms ih =>
      rw [scanDynamic, clean_cons, exports_cons]
      by_cases hundef : sym.Undefined
      · rw [if_pos hundef]
        have hnot : ¬ (¬ sym.Undefined ∧ sym.name = onTick) := fun h => h.1 hundef
        rw [or_iff_right hnot, imp_iff_right hundef, Forbidden]
        split
        · rename_i reason hreason
          exact iff_of_false nofun fun h => h.1.1 (.inl (by rw [hreason]; rfl))
        · rename_i hnone
          rw [hnone, or_iff_right (by decide)]
          by_cases hsuspicious : suspicious sym.name = true
          · rw [if_pos hsuspicious]
            exact iff_of_false nofun fun h => h.1.1 hsuspicious
          · rw [if_neg hsuspicious, ih, and_iff_right hsuspicious]
      · rw [if_neg hundef, ih, Bool.or_eq_true, beq_iff_eq, or_assoc]
        have hdefined : ¬ sym.Undefined ∧ sym.name = onTick ↔ sym.name = onTick :=
          and_iff_right hundef
        rw [hdefined, and_iff_right (fun h => absurd h hundef)]

theorem found_iff : (∃ found, scanDynamic false (f.dynamicSymbols.getD []) = .ok found ∧
    (found || (f.symbols.getD []).any (·.name == onTick)) = true) ↔
      Clean (f.dynamicSymbols.getD []) ∧ f.Named := by
  have hnamed : (f.symbols.getD []).any (·.name == onTick) = true ↔
      ∃ sym ∈ f.symbols.getD [], sym.name = onTick := by
    simp only [List.any_eq_true, beq_iff_eq]
  simp only [scanDynamic_eq_ok, Bool.or_eq_true, hnamed, ElfFile.Named]
  constructor
  · rintro ⟨found, ⟨hclean, hfound⟩, h⟩
    exact ⟨hclean, h.imp_left fun h => (hfound.mp h).resolve_left nofun⟩
  · rintro ⟨hclean, h⟩
    by_cases hexports : Exports (f.dynamicSymbols.getD [])
    · exact ⟨true, ⟨hclean, iff_of_true rfl (.inr hexports)⟩, .inl rfl⟩
    · exact ⟨false, ⟨hclean, iff_of_false nofun (by rintro (h | h); cases h; exact hexports h)⟩,
        h.imp_left fun h => absurd h hexports⟩

theorem check_eq_ok {p : Prop} [Decidable p] {err : String} {u : Unit} :
    check p err = .ok u ↔ p := by
  unfold check
  split
  · exact iff_of_true rfl (by assumption)
  · exact iff_of_false nofun (by assumption)

theorem mapError_eq_ok {α : Type} {x : Except String α} {g : String → String} {a : α} :
    x.mapError g = .ok a ↔ x = .ok a := by
  cases x with
  | error err => exact iff_of_false nofun nofun
  | ok a' => exact Iff.rfl

theorem forM_error_eq_ok {x : Option String} {g : String → String} {u : Unit} :
    (x.forM fun s => (.error (g s) : Except String Unit)) = .ok u ↔ x = none := by
  cases x with
  | none => exact iff_of_true rfl rfl
  | some s => exact iff_of_false nofun nofun

theorem validate_eq_ok : ValidateContestantBinary b = .ok () ↔
    ∃ f, b.Ordinary f ∧ Clean (f.dynamicSymbols.getD []) ∧ f.Named := by
  simp only [ValidateContestantBinary, bind_eq_ok, check_eq_ok, mapError_eq_ok, forM_error_eq_ok]
  constructor
  · rintro ⟨n, hstat, -, hsize, f, helf, -, hshared, found, hscan, -, hfound, -, hliteral, hinterp⟩
    exact ⟨f, ⟨⟨n, hstat, hsize⟩, helf, hshared, hliteral, hinterp⟩,
      found_iff.mp ⟨found, hscan, hfound⟩⟩
  · rintro ⟨f, ⟨⟨n, hstat, hsize⟩, helf, hshared, hliteral, hinterp⟩, hsymbols⟩
    obtain ⟨found, hscan, hfound⟩ := found_iff.mpr hsymbols
    exact ⟨n, hstat, (), hsize, f, helf, (), hshared, found, hscan, (), hfound, (), hliteral,
      hinterp⟩

/-! ## Fail-closed -/

/-- What is accepted is safe to load, and has the function that is called. -/
def FailClosed (b : Binary) : Prop :=
  ValidateContestantBinary b = .ok () → ∀ f, b.elf = .ok f → Clean f.loaded ∧ Exports f.loaded

/-- The tables of the section headers tell of the loader's table what the checks need. -/
structure ElfFile.Consistent (f : ElfFile) : Prop where
  imports : ¬ Clean f.loaded → ¬ Clean (f.dynamicSymbols.getD [])
  export_ : Clean (f.dynamicSymbols.getD []) → Exports f.loaded

/-- When the validation is fail-closed. -/
theorem failClosed_iff (b : Binary) :
    FailClosed b ↔ ∀ f, b.Ordinary f → f.Named → f.Consistent := by
  unfold FailClosed
  rw [validate_eq_ok]
  constructor
  · intro h f hordinary hnamed
    by_cases hclean : Clean (f.dynamicSymbols.getD [])
    · obtain ⟨himports, hexports⟩ := h ⟨f, hordinary, hclean, hnamed⟩ f hordinary.elf
      exact ⟨fun hnot => absurd himports hnot, fun _ => hexports⟩
    · exact ⟨fun _ => hclean, fun h => absurd h hclean⟩
  · rintro h ⟨f, hordinary, hclean, hnamed⟩ f' helf
    obtain rfl := Except.ok.inj (hordinary.elf.symm.trans helf)
    obtain ⟨himports, hexports⟩ := h f hordinary hnamed
    exact ⟨not_not.mp (mt himports (not_not.mpr hclean)), hexports hclean⟩

/-- A library without section headers for its dynamic symbols, whose static table has a name
only. -/
def stripped : ElfFile where
  type := .ET_DYN
  dynamicSymbols := none
  symbols := some [⟨onTick, 0⟩]
  rodata := none
  interp := false
  loaded := [⟨"system", 0⟩]

theorem not_failClosed_stripped : ¬ FailClosed ⟨.ok 4096, .ok stripped⟩ := by
  intro h
  obtain ⟨hclean, -⟩ := h rfl _ rfl
  exact hclean _ List.mem_cons_self rfl (.inl rfl)

end VidhiArena.Backend
