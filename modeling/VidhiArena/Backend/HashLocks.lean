import Mathlib.Logic.Function.Basic
import VidhiArena.Foundation.Processes

/-!
# Locks for one hash at a time

`acquireHashLock` and `releaseHashLock` of `backend/main.go`, called by any number of
goroutines (`runForgePipeline`). A step of a goroutine is an operation on a mutex, or what it
does while it holds `hashLocksMu`: no other goroutine looks at the map or at a `refs` then.
A `Lock` of a mutex that is taken does nothing, the goroutine tries again.

Entries live on a heap and are never reused; each remembers the hash it was made for.
-/

namespace VidhiArena.Backend

open VidhiArena.Foundation

/-! ## State -/

/-- `hashLockEntry`. -/
structure HashLockEntry where
  hash : String
  locked : Bool
  refs : Int
deriving DecidableEq

/-- Where a goroutine is; the last operation is done, the next one is named by the comment. -/
inductive Goroutine where
  /-- `hashLocksMu.Lock()` -/
  | called (hash : String)
  /-- the map and `refs++` -/
  | acquiring (hash : String)
  /-- `hashLocksMu.Unlock()` -/
  | counted (hash : String) (entry : Nat)
  /-- `entry.mu.Lock()` -/
  | waiting (hash : String) (entry : Nat)
  /-- the critical section, then `entry.mu.Unlock()` -/
  | critical (hash : String) (entry : Nat)
  /-- `hashLocksMu.Lock()` -/
  | leaving (hash : String) (entry : Nat)
  /-- `refs--` and the map -/
  | releasing (hash : String) (entry : Nat)
  /-- `hashLocksMu.Unlock()` -/
  | uncounted (hash : String)
  | returned
deriving DecidableEq

namespace Goroutine

/-- The hash and the entry of a goroutine between its increment and its decrement. -/
def counts : Goroutine → Option (String × Nat)
  | counted h e | waiting h e | critical h e | leaving h e | releasing h e => some (h, e)
  | called _ | acquiring _ | uncounted _ | returned => none

def countsOn (e : Nat) (g : Goroutine) : Bool := g.counts.any fun p => p.2 = e

def inCriticalOn (e : Nat) : Goroutine → Bool
  | critical _ e' => e' = e
  | _ => false

def inCriticalOf (h : String) : Goroutine → Bool
  | critical h' _ => h' = h
  | _ => false

def holdsMap : Goroutine → Bool
  | acquiring _ | counted _ _ | releasing _ _ | uncounted _ => true
  | _ => false

end Goroutine

structure LockState where
  /-- `hashLocksMu` -/
  mapLocked : Bool
  hashLocks : String → Option Nat
  entries : List HashLockEntry
  goroutines : List Goroutine

/-! ## Steps -/

inductive LockMove where
  /-- `go runForgePipeline(…)` with this hash -/
  | call (hash : String)
  /-- a goroutine takes its next step -/
  | advance (g : Nat)
deriving DecidableEq

namespace LockState

def init : LockState := ⟨false, fun _ => none, [], []⟩

def goTo (s : LockState) (g : Nat) (pc : Goroutine) : LockState :=
  { s with goroutines := s.goroutines.set g pc }

def setEntry (s : LockState) (e : Nat) (f : HashLockEntry → HashLockEntry) : LockState :=
  { s with entries := s.entries.modify e f }

/-- The entry of the hash, a new one if there is none, with `refs` incremented. -/
def findOrCreate (s : LockState) (hash : String) : LockState × Nat :=
  match s.hashLocks hash with
  | some e => (s.setEntry e fun x => { x with refs := x.refs + 1 }, e)
  | none =>
      ({ s with
        hashLocks := Function.update s.hashLocks hash (some s.entries.length)
        entries := s.entries ++ [⟨hash, false, 0 + 1⟩] }, s.entries.length)

/-- `refs--`, and the map without the hash if that makes it 0. -/
def dropRef (s : LockState) (hash : String) (e : Nat) : LockState :=
  let s := s.setEntry e fun x => { x with refs := x.refs - 1 }
  if s.entries[e]?.any fun x => x.refs = 0 then
    { s with hashLocks := Function.update s.hashLocks hash none }
  else s

def isLocked (s : LockState) (e : Nat) : Bool := s.entries[e]?.any HashLockEntry.locked

def advance (s : LockState) (g : Nat) : Goroutine → LockState
  | .called hash => if s.mapLocked then s else { s.goTo g (.acquiring hash) with mapLocked := true }
  | .acquiring hash => (s.findOrCreate hash).1.goTo g (.counted hash (s.findOrCreate hash).2)
  | .counted hash e => { s.goTo g (.waiting hash e) with mapLocked := false }
  | .waiting hash e =>
      if s.isLocked e then s
      else (s.setEntry e fun x => { x with locked := true }).goTo g (.critical hash e)
  | .critical hash e => (s.setEntry e fun x => { x with locked := false }).goTo g (.leaving hash e)
  | .leaving hash e =>
      if s.mapLocked then s else { s.goTo g (.releasing hash e) with mapLocked := true }
  | .releasing hash e => (s.dropRef hash e).goTo g (.uncounted hash)
  | .uncounted _ => { s.goTo g .returned with mapLocked := false }
  | .returned => s

def step (s : LockState) : LockMove → LockState
  | .call hash => { s with goroutines := s.goroutines ++ [.called hash] }
  | .advance g => (s.goroutines[g]?).elim s (s.advance g)

def run (moves : List LockMove) : LockState := moves.foldl step init

/-! ## The invariant -/

/-- The map and the entries are what the goroutines make them. -/
structure Kept (s : LockState) : Prop where
  /-- who counts on an entry finds it under its hash -/
  found : ∀ g ∈ s.goroutines, ∀ h e, g.counts = some (h, e) → s.hashLocks h = some e
  /-- the map holds entries made for its hashes that somebody counts on -/
  mapped : ∀ h e, s.hashLocks h = some e →
    ∃ x, s.entries[e]? = some x ∧ x.hash = h ∧ 0 < x.refs
  refs : ∀ e x, s.entries[e]? = some x →
    x.refs = (s.goroutines.countP (Goroutine.countsOn e) : Int)
  locked : ∀ e x, s.entries[e]? = some x →
    s.goroutines.countP (Goroutine.inCriticalOn e) = x.locked.toNat
  mapMutex : s.goroutines.countP Goroutine.holdsMap = s.mapLocked.toNat

theorem Kept.init : Kept init where
  found := nofun
  mapped := nofun
  refs := nofun
  locked := nofun
  mapMutex := rfl

theorem Kept.call {s : LockState} (hk : s.Kept) (hash : String) : (s.step (.call hash)).Kept where
  found g hg h e hc := by
    rcases List.mem_append.mp hg with hg | hg
    · exact hk.found g hg h e hc
    · obtain rfl := List.mem_singleton.mp hg
      exact nomatch hc
  mapped := hk.mapped
  refs e x hx := by
    have hcount := hk.refs e x hx
    rw [step, List.countP_append]
    exact hcount
  locked e x hx := by
    have hcount := hk.locked e x hx
    rw [step, List.countP_append]
    exact hcount
  mapMutex := by
    have hcount := hk.mapMutex
    rw [step, List.countP_append]
    exact hcount

section Advance

variable {s s' : LockState} {g e : Nat} {pc pc' : Goroutine} {hash : String}

theorem countsOn_iff {g : Goroutine} : g.countsOn e = true ↔ ∃ h, g.counts = some (h, e) := by
  unfold Goroutine.countsOn
  cases hc : g.counts with
  | none => exact iff_of_false nofun nofun
  | some p =>
      rw [Option.any_some, decide_eq_true_eq]
      constructor
      · rintro rfl
        exact ⟨p.1, rfl⟩
      · rintro ⟨h, hp⟩
        rw [Option.some.inj hp]

theorem inCriticalOn_self (h : String) (e : Nat) :
    (Goroutine.critical h e).inCriticalOn e = true := decide_eq_true rfl

theorem eq_true_of_toNat_pos {b : Bool} (h : 0 < b.toNat) : b = true := by
  cases b with
  | true => rfl
  | false => exact nomatch h

theorem countsOn_of_inCriticalOn {g : Goroutine} (h : g.inCriticalOn e = true) :
    g.countsOn e = true := by
  cases g with
  | critical h' e' => exact h
  | _ => exact nomatch h

theorem entries_setEntry {f : HashLockEntry → HashLockEntry} {e' : Nat} {x' : HashLockEntry}
    (h : (s.setEntry e f).entries[e']? = some x') :
    ∃ x, s.entries[e']? = some x ∧ (e' = e ∧ x' = f x ∨ e' ≠ e ∧ x' = x) := by
  rw [setEntry, List.getElem?_modify] at h
  obtain ⟨x, hx, heq⟩ := Option.map_eq_some_iff.mp h
  refine ⟨x, hx, ?_⟩
  by_cases he : e = e'
  · rw [if_pos he] at heq
    exact Or.inl ⟨he.symm, heq.symm⟩
  · rw [if_neg he] at heq
    exact Or.inr ⟨Ne.symm he, heq.symm⟩

theorem setEntry_of_some {f : HashLockEntry → HashLockEntry} {e' : Nat} {x : HashLockEntry}
    (h : s.entries[e']? = some x) :
    (s.setEntry e f).entries[e']? = some (if e = e' then f x else x) := by
  rw [setEntry, List.getElem?_modify, h]
  rfl

theorem Kept.exists_entry (hk : s.Kept) {g : Goroutine} (hg : g ∈ s.goroutines)
    (hc : g.counts = some (hash, e)) :
    s.hashLocks hash = some e ∧ ∃ x, s.entries[e]? = some x ∧ x.hash = hash ∧ 0 < x.refs :=
  ⟨hk.found g hg hash e hc, hk.mapped hash e (hk.found g hg hash e hc)⟩

/-- A step that neither looks at the map nor at a `refs`: it may take or leave a mutex. -/
theorem Kept.of_quiet (hk : s.Kept) (hg : s.goroutines[g]? = some pc)
    (hset : s'.goroutines = s.goroutines.set g pc') (hcounts : pc'.counts = pc.counts)
    (hmap : s'.hashLocks = s.hashLocks)
    (hentries : ∀ (e : Nat) (x' : HashLockEntry), s'.entries[e]? = some x' →
      ∃ x : HashLockEntry, s.entries[e]? = some x ∧ x.refs = x'.refs ∧ x'.locked.toNat + (pc.inCriticalOn e).toNat =
        x.locked.toNat + (pc'.inCriticalOn e).toNat)
    (hold : ∀ (e : Nat) (x : HashLockEntry), s.entries[e]? = some x → ∃ x' : HashLockEntry, s'.entries[e]? = some x' ∧
      x'.hash = x.hash ∧ x'.refs = x.refs)
    (hmutex : s'.mapLocked.toNat + pc.holdsMap.toNat = s.mapLocked.toNat + pc'.holdsMap.toNat) :
    s'.Kept where
  found g' hg' h e hc := by
    rw [hset] at hg'
    rw [hmap]
    rcases List.mem_or_eq_of_mem_set hg' with hg' | rfl
    · exact hk.found g' hg' h e hc
    · exact hk.found pc (List.mem_of_getElem? hg) h e (hcounts ▸ hc)
  mapped h e he := by
    rw [hmap] at he
    obtain ⟨x, hx, hhash, hpos⟩ := hk.mapped h e he
    obtain ⟨x', hx', hhash', hrefs'⟩ := hold e x hx
    exact ⟨x', hx', hhash'.trans hhash, hrefs'.symm ▸ hpos⟩
  refs e x' hx' := by
    obtain ⟨x, hx, hrefs, -⟩ := hentries e x' hx'
    have hsame : pc'.countsOn e = pc.countsOn e := by
      unfold Goroutine.countsOn
      rw [hcounts]
    have hcount := countP_set (p := Goroutine.countsOn e) hg pc'
    rw [hsame] at hcount
    rw [← hrefs, hk.refs e x hx, hset, Nat.add_right_cancel hcount]
  locked e x' hx' := by
    obtain ⟨x, hx, -, hlocked⟩ := hentries e x' hx'
    have hcount := countP_set (p := Goroutine.inCriticalOn e) hg pc'
    rw [hk.locked e x hx, ← hlocked] at hcount
    rw [hset]
    exact Nat.add_right_cancel hcount
  mapMutex := by
    have hcount := countP_set (p := Goroutine.holdsMap) hg pc'
    rw [hk.mapMutex, ← hmutex] at hcount
    rw [hset]
    exact Nat.add_right_cancel hcount

theorem Kept.mapMutex_step (hk : s.Kept) (hg : s.goroutines[g]? = some pc) {locked : Bool}
    (hcounts : pc'.counts = pc.counts) (hcritical : ∀ e, pc'.inCriticalOn e = pc.inCriticalOn e)
    (hmutex : locked.toNat + pc.holdsMap.toNat = s.mapLocked.toNat + pc'.holdsMap.toNat) :
    Kept { s.goTo g pc' with mapLocked := locked } :=
  hk.of_quiet hg rfl hcounts rfl (fun e x hx => ⟨x, hx, rfl, by rw [hcritical]⟩)
    (fun e x hx => ⟨x, hx, rfl, rfl⟩) hmutex

theorem Kept.entry_step (hk : s.Kept) (hg : s.goroutines[g]? = some pc) {locked : Bool}
    (hcounts : pc'.counts = pc.counts) (hholds : pc'.holdsMap = pc.holdsMap)
    (hmine : ∀ x, s.entries[e]? = some x → locked.toNat + (pc.inCriticalOn e).toNat =
      x.locked.toNat + (pc'.inCriticalOn e).toNat)
    (hother : ∀ e', e' ≠ e → pc'.inCriticalOn e' = pc.inCriticalOn e') :
    Kept ((s.setEntry e fun x => { x with locked := locked }).goTo g pc') := by
  refine hk.of_quiet hg rfl hcounts rfl ?_ ?_ (by rw [hholds]; rfl)
  · intro e' x' hx'
    obtain ⟨x, hx, ⟨rfl, rfl⟩ | ⟨hne, rfl⟩⟩ := entries_setEntry hx'
    · exact ⟨x, hx, rfl, hmine x hx⟩
    · exact ⟨x', hx, rfl, by rw [hother e' hne]⟩
  · intro e' x hx
    refine ⟨_, setEntry_of_some hx, ?_⟩
    split
    · exact ⟨rfl, rfl⟩
    · exact ⟨rfl, rfl⟩

theorem Kept.mapLocked_of_holds (hk : s.Kept) (hg : s.goroutines[g]? = some pc)
    (hholds : pc.holdsMap = true) : s.mapLocked = true := by
  have hpos : 0 < s.goroutines.countP Goroutine.holdsMap :=
    List.countP_pos_iff.mpr ⟨pc, List.mem_of_getElem? hg, hholds⟩
  rw [hk.mapMutex] at hpos
  exact eq_true_of_toNat_pos hpos

theorem Kept.locked_of_critical (hk : s.Kept) (hg : s.goroutines[g]? = some (.critical hash e))
    {x : HashLockEntry} (hx : s.entries[e]? = some x) : x.locked = true := by
  have hpos : 0 < s.goroutines.countP (Goroutine.inCriticalOn e) :=
    List.countP_pos_iff.mpr ⟨_, List.mem_of_getElem? hg, decide_eq_true rfl⟩
  rw [hk.locked e x hx] at hpos
  exact eq_true_of_toNat_pos hpos

theorem Kept.count_fresh (hk : s.Kept) :
    s.goroutines.countP (Goroutine.countsOn s.entries.length) = 0 := by
  rw [List.countP_eq_zero]
  intro g' hg' hcounts
  obtain ⟨h, hc⟩ := countsOn_iff.mp hcounts
  obtain ⟨-, x, hx, -⟩ := hk.exists_entry hg' hc
  exact absurd (List.getElem?_eq_some_iff.mp hx).1 (lt_irrefl _)

theorem Kept.hash_eq (hk : s.Kept) {h h' : String} (hh : s.hashLocks h = some e)
    (hh' : s.hashLocks h' = some e) : h = h' := by
  obtain ⟨x, hx, rfl, -⟩ := hk.mapped h e hh
  obtain ⟨x', hx', rfl, -⟩ := hk.mapped h' e hh'
  rw [hx] at hx'
  rw [Option.some.inj hx']

section Counting

variable (hg : s.goroutines[g]? = some pc)
include hg

theorem count_same (pc' : Goroutine) {p : Goroutine → Bool} (h : p pc' = p pc) :
    (s.goroutines.set g pc').countP p = s.goroutines.countP p := by
  have hcount := countP_set (p := p) hg pc'
  rw [h] at hcount
  exact Nat.add_right_cancel hcount

theorem count_enters (pc' : Goroutine) {p : Goroutine → Bool} (h : p pc = false) (h' : p pc' = true) :
    (s.goroutines.set g pc').countP p = s.goroutines.countP p + 1 := by
  have hcount := countP_set (p := p) hg pc'
  rw [h, h'] at hcount
  exact hcount

theorem count_leaves (pc' : Goroutine) {p : Goroutine → Bool} (h : p pc = true) (h' : p pc' = false) :
    (s.goroutines.set g pc').countP p + 1 = s.goroutines.countP p := by
  have hcount := countP_set (p := p) hg pc'
  rw [h, h'] at hcount
  exact hcount

end Counting

theorem countsOn_counted_self : (Goroutine.counted hash e).countsOn e = true := decide_eq_true rfl

theorem countsOn_counted_of_ne {e' : Nat} (hne : e' ≠ e) :
    (Goroutine.counted hash e).countsOn e' = false := decide_eq_false hne.symm

theorem Kept.countUp (hk : s.Kept) (hg : s.goroutines[g]? = some (.acquiring hash))
    (hfind : s.hashLocks hash = some e) :
    Kept ((s.setEntry e fun x => { x with refs := x.refs + 1 }).goTo g (.counted hash e)) where
  found g' hg' h e' hc := by
    rcases List.mem_or_eq_of_mem_set hg' with hg' | rfl
    · exact hk.found g' hg' h e' hc
    · cases hc
      exact hfind
  mapped h e' he' := by
    obtain ⟨x, hx, hhash, hpos⟩ := hk.mapped h e' he'
    refine ⟨_, setEntry_of_some hx, ?_⟩
    split
    · exact ⟨hhash, Int.add_pos hpos Int.one_pos⟩
    · exact ⟨hhash, hpos⟩
  refs e' x' hx' := by
    obtain ⟨x, hx, ⟨rfl, rfl⟩ | ⟨hne, rfl⟩⟩ := entries_setEntry hx'
    · have hcount := count_enters (p := Goroutine.countsOn e') hg (.counted hash e') rfl
        countsOn_counted_self
      exact (congrArg (· + 1) (hk.refs e' x hx)).trans (congrArg Nat.cast hcount).symm
    · rw [hk.refs e' x' hx]
      exact congrArg Nat.cast (count_same hg (.counted hash e) (countsOn_counted_of_ne hne)).symm
  locked e' x' hx' := by
    have hcount := count_same (p := Goroutine.inCriticalOn e') hg (.counted hash e) rfl
    obtain ⟨x, hx, ⟨-, rfl⟩ | ⟨-, rfl⟩⟩ := entries_setEntry hx'
    · exact hcount.trans (hk.locked e' x hx)
    · exact hcount.trans (hk.locked e' x' hx)
  mapMutex := (count_same hg (.counted hash e) rfl).trans hk.mapMutex

theorem Kept.create (hk : s.Kept) (hg : s.goroutines[g]? = some (.acquiring hash))
    (hfind : s.hashLocks hash = none) :
    Kept (LockState.goTo { s with
      hashLocks := Function.update s.hashLocks hash (some s.entries.length)
      entries := s.entries ++ [⟨hash, false, 0 + 1⟩] } g (.counted hash s.entries.length)) where
  found g' hg' h e' hc := by
    rcases List.mem_or_eq_of_mem_set hg' with hg' | rfl
    · have hold := hk.found g' hg' h e' hc
      have hne : h ≠ hash := by
        rintro rfl
        rw [hfind] at hold
        exact nomatch hold
      exact (Function.update_of_ne hne _ _).trans hold
    · cases hc
      exact Function.update_self ..
  mapped h e' he' := by
    change Function.update s.hashLocks hash (some s.entries.length) h = some e' at he'
    by_cases hh : h = hash
    · rw [hh, Function.update_self] at he'
      obtain rfl := Option.some.inj he'
      exact ⟨_, List.getElem?_concat_length, hh.symm, Int.one_pos⟩
    · rw [Function.update_of_ne hh] at he'
      obtain ⟨x, hx, hhash, hpos⟩ := hk.mapped h e' he'
      exact ⟨x, (List.getElem?_append_left (List.getElem?_eq_some_iff.mp hx).1).trans hx, hhash,
        hpos⟩
  refs e' x' hx' := by
    rcases getElem?_concat_cases hx' with ⟨hne, hx⟩ | ⟨rfl, rfl⟩
    · rw [hk.refs e' x' hx]
      exact congrArg Nat.cast
        (count_same hg (.counted hash s.entries.length) (countsOn_counted_of_ne hne)).symm
    · have hcount := count_enters (p := Goroutine.countsOn s.entries.length) hg
        (.counted hash s.entries.length) rfl countsOn_counted_self
      rw [hk.count_fresh] at hcount
      exact (congrArg Nat.cast hcount).symm
  locked e' x' hx' := by
    have hcount := count_same (p := Goroutine.inCriticalOn e') hg
      (.counted hash s.entries.length) rfl
    refine hcount.trans ?_
    rcases getElem?_concat_cases hx' with ⟨-, hx⟩ | ⟨rfl, rfl⟩
    · exact hk.locked e' x' hx
    · have hle := List.countP_mono_left (l := s.goroutines)
        fun g' _ (h : g'.inCriticalOn s.entries.length = true) => countsOn_of_inCriticalOn h
      exact Nat.le_zero.mp (hle.trans hk.count_fresh.le)
  mapMutex := (count_same hg (.counted hash s.entries.length) rfl).trans hk.mapMutex

theorem Kept.findOrCreate (hk : s.Kept) (hg : s.goroutines[g]? = some (.acquiring hash)) :
    Kept ((s.findOrCreate hash).1.goTo g (.counted hash (s.findOrCreate hash).2)) := by
  cases hfind : s.hashLocks hash with
  | some e =>
      have heq : s.findOrCreate hash = (s.setEntry e fun x => { x with refs := x.refs + 1 }, e) := by
        unfold LockState.findOrCreate
        rw [hfind]
      rw [heq]
      exact hk.countUp hg hfind
  | none =>
      have heq : s.findOrCreate hash = ({ s with
          hashLocks := Function.update s.hashLocks hash (some s.entries.length)
          entries := s.entries ++ [⟨hash, false, 0 + 1⟩] }, s.entries.length) := by
        unfold LockState.findOrCreate
        rw [hfind]
      rw [heq]
      exact hk.create hg hfind

theorem countsOn_releasing_self : (Goroutine.releasing hash e).countsOn e = true :=
  decide_eq_true rfl

theorem countsOn_releasing_of_ne {e' : Nat} (hne : e' ≠ e) :
    (Goroutine.releasing hash e).countsOn e' = false := decide_eq_false hne.symm

/-- The entry changes in either case; the map forgets the hash when nobody is left. -/
theorem dropRef_eq {x : HashLockEntry} (hx : s.entries[e]? = some x) (hash : String) :
    s.dropRef hash e = if x.refs - 1 = 0 then
      { s.setEntry e (fun x => { x with refs := x.refs - 1 }) with
        hashLocks := Function.update s.hashLocks hash none }
      else s.setEntry e fun x => { x with refs := x.refs - 1 } := by
  unfold LockState.dropRef
  dsimp only
  rw [setEntry_of_some hx, if_pos rfl, Option.any_some]
  simp only [decide_eq_true_eq]
  rfl

theorem Kept.dropRef (hk : s.Kept) (hg : s.goroutines[g]? = some (.releasing hash e)) :
    Kept ((s.dropRef hash e).goTo g (.uncounted hash)) := by
  obtain ⟨hmap, x, hx, hhash, hpos⟩ := hk.exists_entry (List.mem_of_getElem? hg) rfl
  have hcount := count_leaves (p := Goroutine.countsOn e) hg (.uncounted hash)
    countsOn_releasing_self rfl
  have hrefs : x.refs - 1 =
      ((s.goroutines.set g (.uncounted hash)).countP (Goroutine.countsOn e) : Int) := by
    rw [hk.refs e x hx, ← hcount, Int.natCast_succ]
    exact Int.add_sub_cancel _ 1
  have hrest : ∀ (e' : Nat) (x' : HashLockEntry),
      (s.setEntry e fun x => { x with refs := x.refs - 1 }).entries[e']? = some x' →
        x'.refs =
          ((s.goroutines.set g (.uncounted hash)).countP (Goroutine.countsOn e') : Int) ∧
        (s.goroutines.set g (.uncounted hash)).countP (Goroutine.inCriticalOn e') =
          x'.locked.toNat := by
    intro e' x' hx'
    have hcritical := count_same (p := Goroutine.inCriticalOn e') hg (.uncounted hash) rfl
    obtain ⟨y, hy, ⟨rfl, rfl⟩ | ⟨hne, rfl⟩⟩ := entries_setEntry hx'
    · rw [hx] at hy
      obtain rfl := Option.some.inj hy
      exact ⟨hrefs, hcritical.trans (hk.locked e' x hx)⟩
    · rw [hk.refs e' x' hy]
      exact ⟨congrArg Nat.cast (count_same hg (.uncounted hash)
        (countsOn_releasing_of_ne hne).symm).symm, hcritical.trans (hk.locked e' x' hy)⟩
  have hmutex : (s.goroutines.set g (.uncounted hash)).countP Goroutine.holdsMap =
      s.mapLocked.toNat := (count_same hg (.uncounted hash) rfl).trans hk.mapMutex
  have hfound : ∀ g' ∈ s.goroutines.set g (.uncounted hash), ∀ h e', g'.counts = some (h, e') →
      s.hashLocks h = some e' := by
    intro g' hg' h e' hc
    rcases List.mem_or_eq_of_mem_set hg' with hg' | rfl
    · exact hk.found g' hg' h e' hc
    · exact nomatch hc
  rw [dropRef_eq hx hash]
  split
  · next hzero =>
      refine ⟨fun g' hg' h e' hc => ?_, fun h e' he' => ?_, fun e' x' hx' => (hrest e' x' hx').1,
        fun e' x' hx' => (hrest e' x' hx').2, hmutex⟩
      · have hne : h ≠ hash := by
          rintro rfl
          have he := (hfound g' hg' h e' hc).symm.trans hmap
          rw [hzero, eq_comm, Int.natCast_eq_zero, List.countP_eq_zero] at hrefs
          exact hrefs g' hg' (countsOn_iff.mpr ⟨h, hc.trans (by rw [Option.some.inj he])⟩)
        exact (Function.update_of_ne hne _ _).trans (hfound g' hg' h e' hc)
      · change Function.update s.hashLocks hash none h = some e' at he'
        have hne : h ≠ hash := by
          rintro rfl
          rw [Function.update_self] at he'
          exact nomatch he'
        rw [Function.update_of_ne hne] at he'
        obtain ⟨y, hy, hyhash, hypos⟩ := hk.mapped h e' he'
        have hee : e ≠ e' := by
          rintro rfl
          exact hne (hk.hash_eq he' hmap)
        exact ⟨_, setEntry_of_some hy, by rw [if_neg hee]; exact ⟨hyhash, hypos⟩⟩
  · next hleft =>
      refine ⟨hfound, fun h e' he' => ?_, fun e' x' hx' => (hrest e' x' hx').1,
        fun e' x' hx' => (hrest e' x' hx').2, hmutex⟩
      obtain ⟨y, hy, hyhash, hypos⟩ := hk.mapped h e' he'
      refine ⟨_, setEntry_of_some hy, ?_⟩
      split
      · next hee =>
          rw [hee, hy] at hx
          obtain rfl := Option.some.inj hx
          refine ⟨hyhash, ?_⟩
          dsimp only
          omega
      · exact ⟨hyhash, hypos⟩

theorem Kept.advance (hk : s.Kept) (hg : s.goroutines[g]? = some pc) : (s.advance g pc).Kept := by
  cases pc with
  | called hash =>
      rw [LockState.advance]
      split
      · exact hk
      · next hfree =>
          refine hk.mapMutex_step hg rfl (fun _ => rfl) ?_
          rw [Bool.eq_false_iff.mpr hfree]
          rfl
  | acquiring hash => exact hk.findOrCreate hg
  | counted hash e =>
      refine hk.mapMutex_step hg rfl (fun _ => rfl) ?_
      rw [hk.mapLocked_of_holds hg rfl]
      rfl
  | waiting hash e =>
      rw [LockState.advance]
      split
      · exact hk
      · next hfree =>
          refine hk.entry_step hg rfl rfl (fun x hx => ?_) fun e' hne => ?_
          · rw [isLocked, hx, Option.any_some] at hfree
            rw [Bool.eq_false_iff.mpr hfree, inCriticalOn_self]
            rfl
          · exact decide_eq_false hne.symm
  | critical hash e =>
      refine hk.entry_step hg rfl rfl (fun x hx => ?_) fun e' hne => (decide_eq_false hne.symm).symm
      rw [hk.locked_of_critical hg hx, inCriticalOn_self]
      rfl
  | leaving hash e =>
      rw [LockState.advance]
      split
      · exact hk
      · next hfree =>
          refine hk.mapMutex_step hg rfl (fun _ => rfl) ?_
          rw [Bool.eq_false_iff.mpr hfree]
          rfl
  | releasing hash e => exact hk.dropRef hg
  | uncounted hash =>
      refine hk.mapMutex_step hg rfl (fun _ => rfl) ?_
      rw [hk.mapLocked_of_holds hg rfl]
      rfl
  | returned => exact hk

end Advance

theorem Kept.step {s : LockState} (hk : s.Kept) (m : LockMove) : (s.step m).Kept := by
  cases m with
  | call hash => exact hk.call hash
  | advance g =>
      rw [LockState.step]
      cases hg : s.goroutines[g]? with
      | none => exact hk
      | some pc => exact hk.advance hg

theorem kept_run (moves : List LockMove) : (run moves).Kept :=
  List.foldlRecOn (motive := Kept) moves LockState.step Kept.init fun _ hk m _ => hk.step m

/-! ## Mutual exclusion -/

theorem Kept.critical_le_one {s : LockState} (hk : s.Kept) (hash : String) :
    s.goroutines.countP (Goroutine.inCriticalOf hash) ≤ 1 := by
  cases hmap : s.hashLocks hash with
  | none =>
      refine le_of_eq_of_le (List.countP_eq_zero.mpr fun g hg hcritical => ?_) (Nat.zero_le 1)
      cases g with
      | critical h e =>
          have hfound := hk.found _ hg h e rfl
          rw [of_decide_eq_true hcritical, hmap] at hfound
          exact nomatch hfound
      | _ => exact nomatch hcritical
  | some e =>
      obtain ⟨x, hx, -, -⟩ := hk.mapped hash e hmap
      -- whoever is in the critical section of the hash holds the mutex of its entry
      have hmono : ∀ g ∈ s.goroutines, g.inCriticalOf hash = true → g.inCriticalOn e = true := by
        intro g hg hcritical
        cases g with
        | critical h e' =>
            have hfound := hk.found _ hg h e' rfl
            rw [of_decide_eq_true hcritical, hmap] at hfound
            exact decide_eq_true (Option.some.inj hfound).symm
        | _ => exact nomatch hcritical
      refine (List.countP_mono_left hmono).trans ?_
      rw [hk.locked e x hx]
      exact Bool.toNat_le x.locked

/-- Ref-counted locks. Of any number of goroutines at most one is in the critical section of
a hash; an entry is in the map exactly while its `refs` is positive, and `refs` is the number of
goroutines that count on it; no two entries of one hash have a positive `refs`. -/
theorem hash_locks_exclusive (moves : List LockMove) :
    let s := run moves
    (∀ hash, s.goroutines.countP (Goroutine.inCriticalOf hash) ≤ 1) ∧
    (∀ (e : Nat) (x : HashLockEntry), s.entries[e]? = some x →
      ((∃ hash, s.hashLocks hash = some e) ↔ 0 < x.refs) ∧
      x.refs = (s.goroutines.countP (Goroutine.countsOn e) : Int)) ∧
    ∀ (e e' : Nat) (x x' : HashLockEntry), s.entries[e]? = some x → s.entries[e']? = some x' →
      x.hash = x'.hash → 0 < x.refs → 0 < x'.refs → e = e' := by
  intro s
  have hk : s.Kept := kept_run moves
  have hmapped : ∀ (e : Nat) (x : HashLockEntry), s.entries[e]? = some x → 0 < x.refs →
      s.hashLocks x.hash = some e := by
    intro e x hx hpos
    rw [hk.refs e x hx, Int.natCast_pos, List.countP_pos_iff] at hpos
    obtain ⟨g, hg, hcounts⟩ := hpos
    obtain ⟨h, hc⟩ := countsOn_iff.mp hcounts
    obtain ⟨hmap, y, hy, rfl, -⟩ := hk.exists_entry hg hc
    rw [hx] at hy
    rwa [Option.some.inj hy]
  refine ⟨hk.critical_le_one, fun e x hx => ⟨⟨?_, fun hpos => ⟨_, hmapped e x hx hpos⟩⟩,
    hk.refs e x hx⟩, ?_⟩
  · rintro ⟨hash, hmap⟩
    obtain ⟨y, hy, -, hpos⟩ := hk.mapped hash e hmap
    rw [hx] at hy
    rwa [Option.some.inj hy]
  · intro e e' x x' hx hx' hhash hpos hpos'
    have hmap := hmapped e x hx hpos
    rw [hhash, hmapped e' x' hx' hpos'] at hmap
    exact (Option.some.inj hmap).symm

end LockState

end VidhiArena.Backend
