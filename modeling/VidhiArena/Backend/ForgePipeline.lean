import Mathlib.Algebra.GroupWithZero.Nat
import VidhiArena.Backend.HashLocks
import VidhiArena.Foundation.Faulting

/-!
# The forge

`runForgePipeline` of `backend/main.go`, by any number of goroutines: the raw source, the
scanner, the transpiler, the compiler and its cache of shared libraries, the validator, the job
queue. A goroutine works on the files of its hash while it holds the hash's lock. A file that is
being written may hold anything until the writer is done; every tool may fail. The verdict of
the validator depends on the contents of the file; it fails where it cannot open or read it, and
the library is removed then as it is when it is refused.

A job is queued for a library that has been validated, and what a compiler reads has passed the
steps before. Nobody touches the library of a queued job, as long as the validator does not fail
on it when the same code is submitted once more (`forge_publishes`). No goroutine waits for ever
on another: every submission can finish (`forge_finishes`).
-/

namespace VidhiArena.Backend

open VidhiArena.Foundation

variable {Code Module Binary : Type}

/-! ## One submission -/

structure Tools (Code Module Binary : Type) where
  /-- `sha256.Sum256` -/
  hash : Code → String
  /-- `isCpp` -/
  isCpp : Code → Bool
  /-- `scanner.py`, if it runs -/
  scanner : Code → Bool
  /-- `transpiler.py`, if it runs -/
  transpiler : Code → Option Module
  /-- `validator.ValidateContestantBinary` -/
  valid : Binary → Bool

/-- The files of a hash. -/
structure Files (Code Module Binary : Type) where
  /-- `<hash>_raw.cpp` -/
  rawCpp : Option Code
  /-- `<hash>_raw.py` -/
  rawPy : Option Code
  /-- `<hash>_transformed.py` -/
  transformed : Option Module
  /-- `<hash>.so` -/
  so : Option Binary

/-- What a pipeline does next. -/
inductive ForgeStage where
  /-- `os.WriteFile` of the source -/
  | writeRaw
  | scan
  | transpile
  /-- `os.Stat(soPath)` -/
  | stat
  | compile
  | validate
  /-- `os.Remove(soPath)` -/
  | remove
  /-- `worker.Enqueue` -/
  | enqueue
  /-- `dispatchToGameMaster` -/
  | dispatch
  | finished
deriving DecidableEq

/-- What happens to a pipeline. -/
inductive Work (Code Module Binary : Type) where
  /-- the file that is being written has this content for now -/
  | raw (content : Option Code)
  | transformed (content : Option Module)
  | so (content : Option Binary)
  /-- the operation ends well -/
  | ok
  | err

def Files.setRaw (f : Files Code Module Binary) (isCpp : Bool) (content : Option Code) :
    Files Code Module Binary :=
  if isCpp then { f with rawCpp := content } else { f with rawPy := content }

/-- The files of the hash, the next stage, and whether a job is queued. -/
def Tools.work (tools : Tools Code Module Binary) (code : Code) (f : Files Code Module Binary) :
    ForgeStage → Work Code Module Binary → Files Code Module Binary × ForgeStage × Bool
  | .writeRaw, .raw content => (f.setRaw (tools.isCpp code) content, .writeRaw, false)
  | .writeRaw, .ok =>
      (f.setRaw (tools.isCpp code) (some code), if tools.isCpp code then .stat else .scan, false)
  | .writeRaw, .err => (f, .finished, false)
  | .scan, .ok => (f, if f.rawPy.any tools.scanner then .transpile else .finished, false)
  | .scan, .err => (f, .finished, false)
  | .transpile, .transformed content => ({ f with transformed := content }, .transpile, false)
  | .transpile, .ok =>
      match f.rawPy.bind tools.transpiler with
      | some m => ({ f with transformed := some m }, .stat, false)
      | none => (f, .finished, false)
  | .transpile, .err => (f, .finished, false)
  | .stat, .ok => (f, if f.so.isNone then .compile else .validate, false)
  -- any other error than that there is no file
  | .stat, .err => (f, .validate, false)
  | .compile, .so content => ({ f with so := content }, .compile, false)
  | .compile, .ok => (f, .validate, false)
  | .compile, .err => (f, .finished, false)
  | .validate, .ok => (f, if f.so.any tools.valid then .enqueue else .remove, false)
  -- `os.Stat` or `elf.Open` fails
  | .validate, .err => (f, .remove, false)
  | .remove, .ok => ({ f with so := none }, .finished, false)
  | .remove, .err => (f, .finished, false)
  | .enqueue, .ok => (f, .finished, true)
  | .enqueue, .err => (f, .dispatch, false)
  | .dispatch, .ok => (f, .finished, false)
  | stage, _ => (f, stage, false)

/-! ## All submissions -/

structure Pipeline (Code : Type) where
  runID : String
  code : Code
  stage : ForgeStage

structure ForgeJob where
  runID : String
  /-- `SoPath` -/
  hash : String
deriving DecidableEq

structure Forge (Code Module Binary : Type) where
  locks : LockState
  /-- the goroutines of `locks`, each with its submission -/
  pipelines : List (Pipeline Code)
  files : String → Files Code Module Binary
  queue : List ForgeJob

inductive ForgeMove (Code Module Binary : Type) where
  /-- `go runForgePipeline(…)` -/
  | submit (runID : String) (code : Code)
  /-- the next step of a goroutine: of the lock, or of the work behind it -/
  | advance (g : Nat) (work : Work Code Module Binary)

namespace Forge

variable (tools : Tools Code Module Binary)

/-- Nothing runs; the files may be those of an earlier process. -/
def init (files : String → Files Code Module Binary) : Forge Code Module Binary :=
  ⟨.init, [], files, []⟩

/-- A step of goroutine `g` in its critical section. -/
def work (s : Forge Code Module Binary) (g : Nat) (p : Pipeline Code)
    (w : Work Code Module Binary) : Forge Code Module Binary :=
  let hash := tools.hash p.code
  let (f, stage, queued) := tools.work p.code (s.files hash) p.stage w
  { s with
    pipelines := s.pipelines.set g { p with stage := stage }
    files := Function.update s.files hash f
    queue := if queued then s.queue ++ [⟨p.runID, hash⟩] else s.queue }

def step (s : Forge Code Module Binary) : ForgeMove Code Module Binary → Forge Code Module Binary
  | .submit runID code =>
      { s with
        locks := s.locks.step (.call (tools.hash code))
        pipelines := s.pipelines ++ [⟨runID, code, .writeRaw⟩] }
  | .advance g w =>
      match s.locks.goroutines[g]?, s.pipelines[g]? with
      | some (.critical _ _), some p =>
          if p.stage = .finished then { s with locks := s.locks.step (.advance g) }
          else s.work tools g p w
      | some _, _ => { s with locks := s.locks.step (.advance g) }
      | none, _ => s

def run (files : String → Files Code Module Binary) (moves : List (ForgeMove Code Module Binary)) :
    Forge Code Module Binary :=
  moves.foldl (step tools) (init files)

end Forge

/-! ## One step of the work -/

/-- What a compiler reads has passed the steps before. -/
def Files.Compilable (f : Files Code Module Binary) (tools : Tools Code Module Binary)
    (code : Code) : Prop :=
  if tools.isCpp code then f.rawCpp = some code
  else tools.scanner code = true ∧ f.transformed.isSome ∧ f.transformed = tools.transpiler code

/-- There is a library, and it is valid. -/
def Files.Published (f : Files Code Module Binary) (tools : Tools Code Module Binary) : Prop :=
  f.so.any tools.valid = true

/-- What a stage knows about the files of its hash; `queued` if a job has been queued for them. -/
def ForgeStage.Knows (tools : Tools Code Module Binary) (code : Code) (f : Files Code Module Binary)
    (queued : Prop) : ForgeStage → Prop
  | writeRaw | validate | finished => True
  | scan => tools.isCpp code = false ∧ f.rawPy = some code
  | transpile => tools.isCpp code = false ∧ f.rawPy = some code ∧ tools.scanner code = true
  | stat => f.Compilable tools code
  | compile => f.Compilable tools code ∧ ¬ queued
  | remove => ¬ queued
  | enqueue | dispatch => f.Published tools

theorem ForgeStage.Knows.anti {tools : Tools Code Module Binary} {code : Code}
    {f : Files Code Module Binary} {queued queued' : Prop} {stage : ForgeStage}
    (h : stage.Knows tools code f queued) (hle : queued' → queued) :
    stage.Knows tools code f queued' := by
  cases stage with
  | compile => exact ⟨h.1, h.2 ∘ hle⟩
  | remove => exact h ∘ hle
  | writeRaw | scan | transpile | stat | validate | enqueue | dispatch | finished => exact h

/-- What a step of the work keeps: the knowledge of the stage, a valid library for every job,
and the library of a job that was there. -/
structure WorkKeeps (tools : Tools Code Module Binary) (code : Code)
    (f : Files Code Module Binary) (queued : Prop)
    (r : Files Code Module Binary × ForgeStage × Bool) : Prop where
  knows : r.2.1.Knows tools code r.1 (queued ∨ r.2.2 = true)
  published : queued ∨ r.2.2 = true → r.1.Published tools
  same : queued → r.1.so = f.so

section

variable {tools : Tools Code Module Binary} {code : Code} {f f' : Files Code Module Binary}
  {stage : ForgeStage} {queued : Prop}

theorem WorkKeeps.of_so (hso : f'.so = f.so) (hpub : queued → f.Published tools)
    (hknows : stage.Knows tools code f' queued) :
    WorkKeeps tools code f queued (f', stage, false) := by
  have hiff : (queued ∨ false = true) ↔ queued := by simp
  refine ⟨?_, fun h => ?_, fun _ => hso⟩
  · rw [hiff.eq]
    exact hknows
  · rw [Files.Published, hso]
    exact hpub (hiff.mp h)

theorem WorkKeeps.of_unqueued (hnone : ¬ queued)
    (hknows : ∀ q : Prop, ¬ q → stage.Knows tools code f' q) :
    WorkKeeps tools code f queued (f', stage, false) := by
  have hno : ¬ (queued ∨ false = true) := by simpa using hnone
  exact ⟨hknows _ hno, fun h => absurd h hno, fun h => absurd h hnone⟩

theorem setRaw_so (f : Files Code Module Binary) (isCpp : Bool) (content : Option Code) :
    (f.setRaw isCpp content).so = f.so := by cases isCpp <;> rfl

theorem ForgeStage.Knows.work (hknows : stage.Knows tools code f queued)
    (hpub : queued → f.Published tools) (w : Work Code Module Binary)
    (hsteady : stage = .validate → w = .err → ¬ queued) :
    WorkKeeps tools code f queued (tools.work code f stage w) := by
  fun_cases Tools.work tools code f stage w with
  | case1 content => exact .of_so (setRaw_so _ _ _) hpub trivial
  | case2 =>
      refine .of_so (setRaw_so _ _ _) hpub ?_
      cases hcpp : tools.isCpp code with
      | true => exact (if_pos hcpp).mpr rfl
      | false => exact ⟨hcpp, rfl⟩
  | case4 =>
      refine .of_so rfl hpub ?_
      obtain ⟨hcpp, hraw⟩ := hknows
      rw [hraw, Option.any_some]
      cases hscan : tools.scanner code with
      | true => exact ⟨hcpp, hraw, hscan⟩
      | false => trivial
  | case6 content => exact .of_so rfl hpub hknows
  | case7 m hm =>
      obtain ⟨hcpp, hraw, hscan⟩ := hknows
      rw [hraw, Option.bind_some] at hm
      refine .of_so rfl hpub ?_
      exact (if_neg (by rw [hcpp]; decide)).mpr ⟨hscan, rfl, hm.symm⟩
  | case10 =>
      refine .of_so rfl hpub ?_
      cases hso : f.so with
      | none =>
          refine ⟨hknows, fun hq => ?_⟩
          have := hpub hq
          rw [Files.Published, hso] at this
          cases this
      | some b => trivial
  | case12 content =>
      -- the compiler writes the library, and no job waits for it
      obtain ⟨hcompilable, hnone⟩ := hknows
      exact .of_unqueued hnone fun q hq => ⟨hcompilable, hq⟩
  | case15 =>
      -- the library of a job has passed before, so it is not removed
      refine .of_so rfl hpub ?_
      by_cases hvalid : f.so.any tools.valid = true
      · rw [if_pos hvalid]
        exact hvalid
      · rw [if_neg hvalid]
        exact fun hq => hvalid (hpub hq)
  | case16 => exact .of_so rfl hpub (hsteady rfl rfl)
  | case17 => exact .of_unqueued hknows fun q hq => trivial
  | case19 => exact ⟨trivial, fun _ => hknows, fun _ => rfl⟩
  | case20 => exact .of_so rfl hpub hknows
  | case22 => exact .of_so rfl hpub hknows
  | case3 | case5 | case8 | case9 | case11 | case13 | case14 | case18 | case21 =>
      exact .of_so rfl hpub trivial

end

/-! ## The locks around it -/

def Goroutine.past : Goroutine → Bool
  | leaving _ _ | releasing _ _ | uncounted _ | returned => true
  | called _ | acquiring _ | counted _ _ | waiting _ _ | critical _ _ => false

/-- The hash that a goroutine was called with. -/
def Goroutine.hash? : Goroutine → Option String
  | called h | acquiring h | uncounted h => some h
  | counted h _ | waiting h _ | critical h _ | leaving h _ | releasing h _ => some h
  | returned => none

namespace Goroutine

variable {entry : Nat} {pc : Goroutine}

/-- Where a goroutine goes that need not wait; `entry` is the one of its hash. -/
def next (entry : Nat) : Goroutine → Goroutine
  | called h => acquiring h
  | acquiring h => counted h entry
  | counted h e => waiting h e
  | waiting h e => critical h e
  | critical h e => leaving h e
  | leaving h e => releasing h e
  | releasing h _ => uncounted h
  | uncounted _ | returned => returned

theorem hash_next {h : String} (hh : (pc.next entry).hash? = some h) : pc.hash? = some h := by
  cases pc with
  | called | acquiring | counted | waiting | critical | leaving | releasing => exact hh
  | uncounted | returned => cases hh

theorem past_next (hpast : (pc.next entry).past = true) :
    pc.past = true ∨ ∃ h e, pc = critical h e := by
  cases pc with
  | called | acquiring | counted | waiting => cases hpast
  | critical h e => exact .inr ⟨h, e, rfl⟩
  | leaving | releasing | uncounted | returned => exact .inl rfl

end Goroutine

namespace LockState

variable {s : LockState}

theorem set_self {g : Nat} {pc : Goroutine} (hg : s.goroutines[g]? = some pc) :
    s.goroutines.set g pc = s.goroutines := by
  obtain ⟨hlt, rfl⟩ := List.getElem?_eq_some_iff.mp hg
  exact List.set_getElem_self hlt

theorem findOrCreate_goroutines (s : LockState) (hash : String) :
    (s.findOrCreate hash).1.goroutines = s.goroutines := by
  rw [findOrCreate]
  split <;> rfl

theorem dropRef_goroutines (s : LockState) (hash : String) (e : Nat) :
    (s.dropRef hash e).goroutines = s.goroutines := by
  unfold dropRef
  dsimp only
  split <;> rfl

/-- The next step of the goroutine is not a wait. -/
def Free (s : LockState) : Goroutine → Prop
  | .called _ | .leaving _ _ => s.mapLocked = false
  | .waiting _ e => s.isLocked e = false
  | .returned => False
  | .acquiring _ | .counted _ _ | .critical _ _ | .releasing _ _ | .uncounted _ => True

theorem advance_waits {g : Nat} {pc : Goroutine} (hwait : ¬ s.Free pc) : s.advance g pc = s := by
  cases pc with
  | called | waiting | leaving => exact if_pos (eq_true_of_ne_false hwait)
  | returned => rfl
  | acquiring | counted | critical | releasing | uncounted => exact absurd trivial hwait

theorem Free.advance {g : Nat} {pc : Goroutine} (hfree : s.Free pc) :
    ∃ entry, (s.advance g pc).goroutines = s.goroutines.set g (pc.next entry) := by
  cases pc with
  | called h | waiting h e | leaving h e =>
      rw [Free] at hfree
      rw [LockState.advance, hfree]
      exact ⟨0, rfl⟩
  | acquiring h =>
      refine ⟨(s.findOrCreate h).2, ?_⟩
      rw [LockState.advance, goTo, findOrCreate_goroutines, Goroutine.next]
  | releasing h e =>
      refine ⟨0, ?_⟩
      rw [LockState.advance, goTo, dropRef_goroutines, Goroutine.next]
  | counted | critical | uncounted => exact ⟨0, rfl⟩
  | returned => exact hfree.elim

/-- A goroutine moves alone, keeps its hash, and leaves its critical section once. -/
theorem advance_goroutines {g : Nat} {pc : Goroutine} (hg : s.goroutines[g]? = some pc) :
    ∃ pc', (s.advance g pc).goroutines = s.goroutines.set g pc' ∧
      (∀ h, pc'.hash? = some h → pc.hash? = some h) ∧
      (pc'.past = true → pc.past = true ∨ ∃ h e, pc = .critical h e) := by
  by_cases hfree : s.Free pc
  · obtain ⟨entry, hset⟩ := hfree.advance (g := g)
    exact ⟨pc.next entry, hset, fun _ => Goroutine.hash_next, Goroutine.past_next⟩
  · rw [advance_waits hfree]
    exact ⟨pc, (set_self hg).symm, fun _ h => h, .inl⟩

end LockState

namespace Forge

variable {tools : Tools Code Module Binary} {s : Forge Code Module Binary} {watched : Prop}

def Queued (s : Forge Code Module Binary) (hash : String) : Prop :=
  ∃ job ∈ s.queue, job.hash = hash

/-- The validator does not fail on the library of a queued job. -/
def Steady (tools : Tools Code Module Binary) (s : Forge Code Module Binary) :
    ForgeMove Code Module Binary → Prop
  | .advance g .err => ∀ p, s.pipelines[g]? = some p → p.stage = .validate →
      ¬ s.Queued (tools.hash p.code)
  | _ => True

/-- The invariant: who works on the files of a hash holds its lock; each stage knows what
it needs to know about them; every job has a valid library. What is said of jobs is said if they
are watched. -/
structure Sound (tools : Tools Code Module Binary) (watched : Prop)
    (s : Forge Code Module Binary) : Prop where
  kept : s.locks.Kept
  paired : s.pipelines.length = s.locks.goroutines.length
  hash : ∀ (g : Nat) (p : Pipeline Code) (pc : Goroutine), s.pipelines[g]? = some p →
    s.locks.goroutines[g]? = some pc → ∀ h, pc.hash? = some h → h = tools.hash p.code
  active : ∀ (g : Nat) (p : Pipeline Code), s.pipelines[g]? = some p → p.stage ≠ .writeRaw →
    p.stage ≠ .finished → ∃ h e, s.locks.goroutines[g]? = some (.critical h e)
  past : ∀ (g : Nat) (p : Pipeline Code) (pc : Goroutine), s.pipelines[g]? = some p →
    s.locks.goroutines[g]? = some pc → pc.past = true → p.stage = .finished
  knows : ∀ p ∈ s.pipelines, p.stage.Knows tools p.code (s.files (tools.hash p.code))
    (watched ∧ s.Queued (tools.hash p.code))
  published : ∀ hash, watched ∧ s.Queued hash → (s.files hash).Published tools

theorem Sound.init (files : String → Files Code Module Binary) :
    Sound tools watched (init files) where
  kept := LockState.Kept.init
  paired := rfl
  hash := nofun
  active := nofun
  past := nofun
  knows := nofun
  published := fun _ ⟨_, _, hjob, _⟩ => absurd hjob List.not_mem_nil

theorem Sound.submit (hs : s.Sound tools watched) (runID : String) (code : Code) :
    (s.step tools (.submit runID code)).Sound tools watched where
  kept := hs.kept.call (tools.hash code)
  paired := by
    show (s.pipelines ++ [_]).length = (s.locks.goroutines ++ [_]).length
    rw [List.length_append, List.length_append, hs.paired]
    rfl
  hash g p pc hp hpc h hh := by
    rcases getElem?_concat_cases hp with ⟨hne, hp⟩ | ⟨rfl, rfl⟩
    · rcases getElem?_concat_cases hpc with ⟨-, hpc⟩ | ⟨heq, -⟩
      · exact hs.hash g p pc hp hpc h hh
      · exact absurd (heq.trans hs.paired.symm) hne
    · rcases getElem?_concat_cases hpc with ⟨hne, -⟩ | ⟨-, rfl⟩
      · exact absurd hs.paired hne
      · exact (Option.some.inj hh).symm
  active g p hp hraw hfin := by
    rcases getElem?_concat_cases hp with ⟨-, hp⟩ | ⟨-, rfl⟩
    · obtain ⟨h, e, hpc⟩ := hs.active g p hp hraw hfin
      refine ⟨h, e, ?_⟩
      exact (List.getElem?_append_left (List.getElem?_eq_some_iff.mp hpc).1).trans hpc
    · exact absurd rfl hraw
  past g p pc hp hpc hpast := by
    rcases getElem?_concat_cases hp with ⟨hne, hp⟩ | ⟨rfl, rfl⟩
    · rcases getElem?_concat_cases hpc with ⟨-, hpc⟩ | ⟨heq, -⟩
      · exact hs.past g p pc hp hpc hpast
      · exact absurd (heq.trans hs.paired.symm) hne
    · rcases getElem?_concat_cases hpc with ⟨hne, -⟩ | ⟨-, rfl⟩
      · exact absurd hs.paired hne
      · cases hpast
  knows p hp := by
    rcases List.mem_append.mp hp with hp | hp
    · exact hs.knows p hp
    · rw [List.mem_singleton.mp hp]
      trivial
  published := hs.published

/-- A step of the lock by a goroutine that does not work on its files. -/
theorem Sound.lock_step (hs : s.Sound tools watched) {g : Nat}
    (hidle : ∀ p, s.pipelines[g]? = some p → p.stage = .writeRaw ∨ p.stage = .finished)
    (hdone : ∀ p h e, s.pipelines[g]? = some p →
      s.locks.goroutines[g]? = some (.critical h e) → p.stage = .finished) :
    Sound tools watched { s with locks := s.locks.step (.advance g) } := by
  cases hg : s.locks.goroutines[g]? with
  | none =>
      have hstep : s.locks.step (.advance g) = s.locks := by rw [LockState.step, hg]; rfl
      rw [hstep]
      exact hs
  | some pc =>
      have hstep : s.locks.step (.advance g) = s.locks.advance g pc := by
        rw [LockState.step, hg]
        rfl
      obtain ⟨pc', hset, hhash, hpast⟩ := LockState.advance_goroutines hg
      rw [hstep]
      refine ⟨hs.kept.advance hg, ?_, ?_, ?_, ?_, hs.knows, hs.published⟩
      · show _ = (s.locks.advance g pc).goroutines.length
        rw [hset, List.length_set]
        exact hs.paired
      · intro g' p qc hp hqc h hh
        change (s.locks.advance g pc).goroutines[g']? = some qc at hqc
        rw [hset] at hqc
        rcases getElem?_set_cases hqc with ⟨rfl, rfl⟩ | ⟨-, hqc⟩
        · exact hs.hash g' p pc hp hg h (hhash h hh)
        · exact hs.hash g' p qc hp hqc h hh
      · intro g' p hp hraw hfin
        obtain ⟨h, e, hqc⟩ := hs.active g' p hp hraw hfin
        refine ⟨h, e, ?_⟩
        have hne : g ≠ g' := by
          rintro rfl
          exact (hidle p hp).elim hraw hfin
        show (s.locks.advance g pc).goroutines[g']? = _
        rw [hset, List.getElem?_set_ne hne]
        exact hqc
      · intro g' p qc hp hqc hq
        change (s.locks.advance g pc).goroutines[g']? = some qc at hqc
        rw [hset] at hqc
        rcases getElem?_set_cases hqc with ⟨rfl, rfl⟩ | ⟨-, hqc⟩
        · rcases hpast hq with hpc | ⟨h, e, rfl⟩
          · exact hs.past g' p pc hp hg hpc
          · exact hdone p h e hp hg
        · exact hs.past g' p qc hp hqc hq

theorem Sound.alone (hs : s.Sound tools watched) {g g' : Nat} {h h' : String} {e e' : Nat}
    {p p' : Pipeline Code} (hg : s.locks.goroutines[g]? = some (.critical h e))
    (hg' : s.locks.goroutines[g']? = some (.critical h' e')) (hp : s.pipelines[g]? = some p)
    (hp' : s.pipelines[g']? = some p') (heq : tools.hash p'.code = tools.hash p.code) : g' = g := by
  obtain rfl := hs.hash g p _ hp hg h rfl
  obtain rfl := hs.hash g' p' _ hp' hg' h' rfl
  exact eq_of_countP_le_one (hs.kept.critical_le_one _) hg' hg (decide_eq_true heq)
    (decide_eq_true rfl)

/-- A job more at most, and that one for the hash of the goroutine. -/
theorem queued_work (s : Forge Code Module Binary) (g : Nat) (p : Pipeline Code)
    (w : Work Code Module Binary) (hash : String) :
    (s.work tools g p w).Queued hash ↔ s.Queued hash ∨
      tools.hash p.code = hash ∧
        (tools.work p.code (s.files (tools.hash p.code)) p.stage w).2.2 = true := by
  unfold Queued work
  dsimp only
  split
  · rename_i hqueued
    simp [hqueued, or_and_right, exists_or]
  · rename_i hqueued
    simp [hqueued]

/-- A step of the work keeps what everybody knows, and the library of every job. -/
theorem Sound.work_step (hs : s.Sound tools watched) {g : Nat} {h : String} {e : Nat} {p : Pipeline Code}
    (hg : s.locks.goroutines[g]? = some (.critical h e)) (hp : s.pipelines[g]? = some p)
    (w : Work Code Module Binary) (hsteady : watched → s.Steady tools (.advance g w)) :
    (s.work tools g p w).Sound tools watched ∧ ∀ hash, watched ∧ s.Queued hash →
      ((s.work tools g p w).files hash).so = (s.files hash).so := by
  have hmem := List.mem_of_getElem? hp
  have hfails : p.stage = .validate → w = .err → ¬ (watched ∧ s.Queued (tools.hash p.code)) := by
    rintro hstage rfl ⟨hwatched, hq⟩
    exact hsteady hwatched p hp hstage hq
  have hkeeps := (hs.knows p hmem).work (hs.published _) w hfails
  have hqueued := @queued_work _ _ _ tools s g p w
  have hfiles : ∀ hash, hash ≠ tools.hash p.code →
      (s.work tools g p w).files hash = s.files hash :=
    fun hash hne => Function.update_of_ne hne _ _
  have hmine : (s.work tools g p w).files (tools.hash p.code) =
      (tools.work p.code (s.files (tools.hash p.code)) p.stage w).1 := Function.update_self ..
  have hqueuedMine : watched ∧ (s.work tools g p w).Queued (tools.hash p.code) →
      (watched ∧ s.Queued (tools.hash p.code)) ∨
        (tools.work p.code (s.files (tools.hash p.code)) p.stage w).2.2 = true := by
    rintro ⟨hwatched, hq⟩
    exact ((hqueued _).mp hq).imp (fun hq => ⟨hwatched, hq⟩) And.right
  have hqueuedOther : ∀ hash, hash ≠ tools.hash p.code →
      ((s.work tools g p w).Queued hash ↔ s.Queued hash) := by
    intro hash hne
    rw [hqueued, or_iff_left fun hh => hne hh.1.symm]
  refine ⟨⟨hs.kept, ?_, ?_, ?_, ?_, ?_, ?_⟩, ?_⟩
  · show (s.pipelines.set g _).length = _
    rw [List.length_set]
    exact hs.paired
  · intro g' p' pc hp' hpc
    rcases getElem?_set_cases hp' with ⟨rfl, rfl⟩ | ⟨-, hp'⟩
    · exact hs.hash g' p pc hp hpc
    · exact hs.hash g' p' pc hp' hpc
  · intro g' p' hp' hraw hfin
    rcases getElem?_set_cases hp' with ⟨rfl, rfl⟩ | ⟨-, hp'⟩
    · exact ⟨h, e, hg⟩
    · exact hs.active g' p' hp' hraw hfin
  · intro g' p' pc hp' hpc hpast
    rcases getElem?_set_cases hp' with ⟨rfl, rfl⟩ | ⟨-, hp'⟩
    · obtain rfl : .critical h e = pc := Option.some.inj (hg.symm.trans hpc)
      cases hpast
    · exact hs.past g' p' pc hp' hpc hpast
  · intro p' hp'
    obtain ⟨g', hp'⟩ := List.mem_iff_getElem?.mp hp'
    rcases getElem?_set_cases hp' with ⟨rfl, rfl⟩ | ⟨hne, hp'⟩
    · rw [hmine]
      exact hkeeps.knows.anti hqueuedMine
    · have hknows := hs.knows p' (List.mem_of_getElem? hp')
      by_cases hstage : p'.stage = .writeRaw ∨ p'.stage = .finished
      · rcases hstage with hstage | hstage <;> rw [hstage] <;> trivial
      · -- whoever works on files works on those of another hash
        obtain ⟨hraw, hfin⟩ := not_or.mp hstage
        obtain ⟨h', e', hg'⟩ := hs.active g' p' hp' hraw hfin
        have hother : tools.hash p'.code ≠ tools.hash p.code :=
          fun heq => hne (hs.alone hg hg' hp hp' heq)
        rw [hfiles _ hother, (hqueuedOther _ hother).eq]
        exact hknows
  · intro hash hhash
    by_cases heq : hash = tools.hash p.code
    · subst heq
      rw [hmine]
      exact hkeeps.published (hqueuedMine hhash)
    · rw [hfiles _ heq]
      exact hs.published hash (hhash.imp_right (hqueuedOther hash heq).mp)
  · intro hash hhash
    by_cases heq : hash = tools.hash p.code
    · subst heq
      rw [hmine]
      exact hkeeps.same hhash
    · rw [hfiles _ heq]

/-! ## Runs -/

theorem Sound.step (hs : s.Sound tools watched) (m : ForgeMove Code Module Binary)
    (hsteady : watched → s.Steady tools m) :
    (s.step tools m).Sound tools watched ∧ ∀ hash, watched ∧ s.Queued hash →
      (s.step tools m).Queued hash ∧ ((s.step tools m).files hash).so = (s.files hash).so := by
  cases m with
  | submit runID code => exact ⟨hs.submit runID code, fun _ h => ⟨h.2, rfl⟩⟩
  | advance g w =>
      rw [Forge.step]
      split
      · rename_i h e p hg hp
        split
        · rename_i hfin
          have hp' : ∀ p', s.pipelines[g]? = some p' → p'.stage = .finished := by
            intro p' hp'
            rw [hp] at hp'
            rwa [← Option.some.inj hp']
          exact ⟨hs.lock_step (fun p' h => .inr (hp' p' h)) fun p' _ _ h _ => hp' p' h,
            fun _ h => ⟨h.2, rfl⟩⟩
        · obtain ⟨hsound, hso⟩ := hs.work_step hg hp w hsteady
          exact ⟨hsound, fun hash hq => ⟨(queued_work s g p w hash).mpr (.inl hq.2), hso hash hq⟩⟩
      · rename_i pc hpc hnot
        have hno : ∀ p h e, s.pipelines[g]? = some p →
            s.locks.goroutines[g]? = some (.critical h e) → False :=
          fun p h e hp hg => hnot h e p hp (Option.some.inj (hpc.symm.trans hg))
        refine ⟨hs.lock_step (fun p hp => ?_) fun p h e hp hg => (hno p h e hp hg).elim,
          fun _ h => ⟨h.2, rfl⟩⟩
        by_contra hstage
        obtain ⟨hraw, hfin⟩ := not_or.mp hstage
        obtain ⟨h, e, hg⟩ := hs.active g p hp hraw hfin
        exact hno p h e hp hg
      · exact ⟨hs, fun _ h => ⟨h.2, rfl⟩⟩

theorem Sound.run : ∀ (moves : List (ForgeMove Code Module Binary)) {s : Forge Code Module Binary},
    s.Sound tools watched → (watched → Along (Forge.step tools) (Steady tools) s moves) →
      (moves.foldl (Forge.step tools) s).Sound tools watched ∧
        ∀ hash, watched ∧ s.Queued hash →
          ((moves.foldl (Forge.step tools) s).files hash).so = (s.files hash).so
  | [], _, hs, _ => ⟨hs, fun _ _ => rfl⟩
  | m :: moves, s, hs, hsteady => by
      obtain ⟨hstep, hkeep⟩ := hs.step m fun hwatched => (hsteady hwatched).1
      obtain ⟨hrun, hso⟩ := Sound.run moves hstep fun hwatched => (hsteady hwatched).2
      refine ⟨hrun, fun hash hq => ?_⟩
      obtain ⟨hq', hso'⟩ := hkeep hash hq
      exact (hso hash ⟨hq.1, hq'⟩).trans hso'

/-- The forge publishes what it has checked, whatever the order of the steps and whatever
tools and writes fail: a compiler reads the submitted code, or the transpiled form of code that
the scanner accepts, and a run that is queued or dispatched directly has a valid library then. As
long as the validator does not fail on the library of a queued job, every such library is valid
and stays as it is, and no job waits for the library that a compiler writes. -/
theorem forge_publishes (tools : Tools Code Module Binary)
    (files : String → Files Code Module Binary)
    (moves moves' : List (ForgeMove Code Module Binary)) :
    let s := run tools files moves
    let s' := run tools files (moves ++ moves')
    (∀ p ∈ s.pipelines,
      (p.stage = .compile → (s.files (tools.hash p.code)).Compilable tools p.code) ∧
        (p.stage = .enqueue ∨ p.stage = .dispatch →
          (s.files (tools.hash p.code)).Published tools)) ∧
      (Along (step tools) (Steady tools) (init files) (moves ++ moves') →
        (∀ job ∈ s.queue, ∃ b, tools.valid b = true ∧ (s.files job.hash).so = some b ∧
          (s'.files job.hash).so = some b) ∧
        ∀ p ∈ s.pipelines, p.stage = .compile → ¬ s.Queued (tools.hash p.code)) := by
  intro s s'
  have hrun : s' = moves'.foldl (Forge.step tools) s := List.foldl_append
  refine ⟨fun p hp => ⟨fun hstage => ?_, fun hstage => ?_⟩, fun hsteady => ?_⟩
  · have hs : Sound tools False s := (Sound.run moves (.init files) False.elim).1
    have hknows := hs.knows p hp
    rw [hstage] at hknows
    exact hknows.1
  · have hs : Sound tools False s := (Sound.run moves (.init files) False.elim).1
    have hknows := hs.knows p hp
    rcases hstage with hstage | hstage <;> rwa [hstage] at hknows
  · obtain ⟨hbefore, hafter⟩ := along_append.mp hsteady
    have hs : Sound tools True s := (Sound.run moves (.init files) fun _ => hbefore).1
    obtain ⟨-, hsame⟩ := Sound.run moves' hs fun _ => hafter
    refine ⟨fun job hjob => ?_, fun p hp hstage hq => ?_⟩
    · have hqueued : True ∧ s.Queued job.hash := ⟨trivial, job, hjob, rfl⟩
      obtain ⟨b, hb, hvalid⟩ := (Option.any_eq_true _ _).mp (hs.published job.hash hqueued)
      refine ⟨b, hvalid, hb, ?_⟩
      rw [hrun]
      exact (hsame job.hash hqueued).trans hb
    · have hknows := hs.knows p hp
      rw [hstage] at hknows
      exact hknows.2 ⟨trivial, hq⟩

end Forge

/-! ## Coming to rest -/

/-- The steps of a goroutine from here to its return. -/
def Goroutine.left : Goroutine → Nat
  | called _ => 8
  | acquiring _ => 7
  | counted _ _ => 6
  | waiting _ _ => 5
  | critical _ _ => 4
  | leaving _ _ => 3
  | releasing _ _ => 2
  | uncounted _ => 1
  | returned => 0

/-- More than the steps from a stage to the last one. -/
def ForgeStage.left : ForgeStage → Nat
  | writeRaw => 9
  | scan => 8
  | transpile => 7
  | stat => 6
  | compile => 5
  | validate => 4
  | remove | enqueue => 2
  | dispatch => 1
  | finished => 0

namespace LockState

variable {s : LockState}

/-- Someone need not wait: who holds a mutex, or else whoever is not done. -/
theorem Kept.exists_free (hk : s.Kept) {pc : Goroutine} (hpc : pc ∈ s.goroutines)
    (hne : pc ≠ .returned) : ∃ pc ∈ s.goroutines, s.Free pc := by
  cases hmap : s.mapLocked with
  | true =>
      have hcount := hk.mapMutex
      rw [hmap] at hcount
      obtain ⟨pc', hpc', hholds⟩ :=
        List.countP_pos_iff.mp (Nat.lt_of_lt_of_eq Nat.one_pos hcount.symm)
      refine ⟨pc', hpc', ?_⟩
      cases pc' with
      | acquiring | counted | releasing | uncounted => trivial
      | called | waiting | critical | leaving | returned => cases hholds
  | false =>
      cases pc with
      | acquiring | counted | critical | releasing | uncounted => exact ⟨_, hpc, trivial⟩
      | called | leaving => exact ⟨_, hpc, hmap⟩
      | returned => exact absurd rfl hne
      | waiting h e =>
          cases hlocked : s.isLocked e with
          | false => exact ⟨_, hpc, hlocked⟩
          | true =>
              -- the mutex of the entry is held by a goroutine in its critical section
              obtain ⟨x, hx, hx'⟩ := (Option.any_eq_true _ _).mp hlocked
              have hcount := hk.locked e x hx
              rw [hx'] at hcount
              obtain ⟨pc', hpc', hcritical⟩ :=
                List.countP_pos_iff.mp (Nat.lt_of_lt_of_eq Nat.one_pos hcount.symm)
              refine ⟨pc', hpc', ?_⟩
              cases pc' with
              | critical => trivial
              | called | acquiring | counted | waiting | leaving | releasing | uncounted
                | returned => cases hcritical

theorem Free.left_next {pc : Goroutine} (hfree : s.Free pc) (entry : Nat) :
    (pc.next entry).left + 1 = pc.left := by
  cases pc with
  | called | acquiring | counted | waiting | critical | leaving | releasing | uncounted => rfl
  | returned => exact hfree.elim

theorem Kept.hashLocks_eq_none (hk : s.Kept) (hall : ∀ pc ∈ s.goroutines, pc = .returned)
    (hash : String) : s.hashLocks hash = none := by
  cases hmap : s.hashLocks hash with
  | none => rfl
  | some e =>
      obtain ⟨x, hx, -, hpos⟩ := hk.mapped hash e hmap
      rw [hk.refs e x hx, Int.natCast_pos, List.countP_pos_iff] at hpos
      obtain ⟨pc, hpc, hcounts⟩ := hpos
      rw [hall pc hpc] at hcounts
      cases hcounts

end LockState

namespace Forge

variable {tools : Tools Code Module Binary} {s : Forge Code Module Binary} {watched : Prop}

/-- A bound on the steps to the end. -/
def left (s : Forge Code Module Binary) : Nat :=
  (s.locks.goroutines.map Goroutine.left).sum + (s.pipelines.map fun p => p.stage.left).sum

def Done (s : Forge Code Module Binary) : Prop := ∀ pc ∈ s.locks.goroutines, pc = .returned

theorem stage_left (code : Code) (f : Files Code Module Binary) {stage : ForgeStage}
    (hstage : stage ≠ .finished) : (tools.work code f stage .ok).2.1.left < stage.left := by
  cases stage with
  | writeRaw | scan | stat | validate =>
      rw [Tools.work]
      dsimp only
      split <;> decide
  | transpile =>
      rw [Tools.work]
      split <;> exact of_decide_eq_true rfl
  | compile | remove | enqueue | dispatch => exact of_decide_eq_true rfl
  | finished => exact absurd rfl hstage

theorem work_left {g : Nat} {p : Pipeline Code} (hp : s.pipelines[g]? = some p)
    (hstage : p.stage ≠ .finished) : (s.work tools g p .ok).left < s.left := by
  have hless := @stage_left _ _ _ tools p.code (s.files (tools.hash p.code)) _ hstage
  have hset : (s.work tools g p .ok).pipelines = s.pipelines.set g
      { p with stage := (tools.work p.code (s.files (tools.hash p.code)) p.stage .ok).2.1 } := rfl
  have hsum := sum_map_set (fun p : Pipeline Code => p.stage.left) hp
    { p with stage := (tools.work p.code (s.files (tools.hash p.code)) p.stage .ok).2.1 }
  refine Nat.add_lt_add_left (m := List.sum _) ?_ _
  rw [hset]
  exact Nat.lt_of_add_lt_add_right (hsum.trans_lt (Nat.add_lt_add_left hless _))

theorem lock_left {g : Nat} {pc : Goroutine} (hg : s.locks.goroutines[g]? = some pc)
    (hfree : s.locks.Free pc) :
    left { s with locks := s.locks.step (.advance g) } < s.left := by
  obtain ⟨entry, hset⟩ := hfree.advance (g := g)
  have hless := hfree.left_next entry
  have hsum := sum_map_set Goroutine.left hg (pc.next entry)
  have hstep : (s.locks.step (.advance g)).goroutines =
      s.locks.goroutines.set g (pc.next entry) := by
    rw [LockState.step, hg]
    exact hset
  refine Nat.add_lt_add_right ?_ _
  dsimp only
  rw [hstep]
  omega

theorem Sound.progress (hs : s.Sound tools watched) (hnot : ¬ s.Done) :
    ∃ g, (s.step tools (.advance g .ok)).left < s.left := by
  obtain ⟨pc, hpc, hne⟩ := not_forall₂.mp hnot
  obtain ⟨pc', hpc', hfree⟩ := hs.kept.exists_free hpc hne
  obtain ⟨g, hg⟩ := List.mem_iff_getElem?.mp hpc'
  refine ⟨g, ?_⟩
  rw [Forge.step]
  split
  · rename_i p _ hp
    split
    · -- the work is done, the lock is given back
      exact lock_left hg hfree
    · rename_i hstage
      exact work_left hp hstage
  · exact lock_left hg hfree
  · rename_i hnone
    cases hnone.symm.trans hg

/-- No deadlock: whatever has happened, the goroutines that there are can go on, without a
tool failing, until every submission is finished, and no lock is left in the map then. -/
theorem forge_finishes (tools : Tools Code Module Binary)
    (files : String → Files Code Module Binary) (moves : List (ForgeMove Code Module Binary)) :
    ∃ schedule : List Nat,
      let s := run tools files (moves ++ schedule.map (.advance · .ok))
      (∀ p ∈ s.pipelines, p.stage = .finished) ∧ s.Done ∧
        (∀ hash, s.locks.hashLocks hash = none) ∧ s.locks.mapLocked = false := by
  have hs : Sound tools False (run tools files moves) :=
    (Sound.run moves (.init files) False.elim).1
  obtain ⟨schedule, hend, hdone⟩ := exists_foldl_of_progress
    (fun s g => step tools s (.advance g .ok)) left
    (fun s (hs : s.Sound tools False) (hnot : ¬ s.Done) =>
      (hs.progress hnot).imp fun g hless => ⟨(hs.step _ False.elim).1, hless⟩) _ hs
  refine ⟨schedule, ?_⟩
  have hrun : run tools files (moves ++ schedule.map (.advance · .ok)) =
      schedule.foldl (fun s g => step tools s (.advance g .ok)) (run tools files moves) := by
    rw [run, List.foldl_append, List.foldl_map]
    rfl
  rw [hrun]
  refine ⟨fun p hp => ?_, hdone, hend.kept.hashLocks_eq_none hdone, ?_⟩
  · obtain ⟨g, hg⟩ := List.mem_iff_getElem?.mp hp
    have hlt := (List.getElem?_eq_some_iff.mp hg).1
    rw [hend.paired] at hlt
    have hpc := List.getElem?_eq_getElem hlt
    refine hend.past g p _ hg hpc ?_
    rw [hdone _ (List.mem_of_getElem? hpc)]
    rfl
  · have hcount := hend.kept.mapMutex
    rw [List.countP_eq_zero.mpr fun pc hpc => by rw [hdone pc hpc]; exact nofun] at hcount
    cases hlocked : LockState.mapLocked _ with
    | false => rfl
    | true =>
        rw [hlocked] at hcount
        cases hcount

end Forge

end VidhiArena.Backend
