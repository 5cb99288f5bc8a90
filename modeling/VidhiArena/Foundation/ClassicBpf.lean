import Mathlib.Data.List.Basic

/-!
# Classic BPF filters

The three instructions a socket filter of comparisons is made of: an absolute
load of a word, a conditional jump and a return. A jump with offset `k` from
instruction `i` goes to `i + 1 + k`; all jumps are forward, so the length of the
program is fuel enough. `Returns` is the big-step reading, in which a filter is
walked through by rules.
-/

namespace VidhiArena.Foundation.ClassicBpf

inductive Instr where
  /-- `BPF_LD | BPF_W | BPF_ABS`: the word at offset `k` into the accumulator. -/
  | ldAbs (k : UInt32)
  /-- `BPF_JMP | BPF_JEQ | BPF_K`. -/
  | jeq (k : UInt32) (jt jf : UInt8)
  /-- `BPF_RET | BPF_K`. -/
  | ret (k : UInt32)
  deriving DecidableEq, Repr

/-- The interpreter: `load` is the data the filter looks at. A load outside it and a jump
past the end have no result. -/
def exec (load : UInt32 → Option UInt32) (prog : List Instr) :
    Nat → Nat → UInt32 → Option UInt32
  | 0, _, _ => none
  | fuel + 1, pc, acc =>
      match prog[pc]? with
      | none => none
      | some (.ldAbs k) => (load k).bind (exec load prog fuel (pc + 1))
      | some (.jeq k jt jf) =>
          exec load prog fuel (pc + 1 + (if acc = k then jt else jf).toNat) acc
      | some (.ret k) => some k

def run (load : UInt32 → Option UInt32) (prog : List Instr) : Option UInt32 :=
  exec load prog prog.length 0 0

/-- From instruction `pc` with accumulator `acc` the filter returns the given word. -/
inductive Returns (load : UInt32 → Option UInt32) (prog : List Instr) :
    Nat → UInt32 → UInt32 → Prop
  | ret {pc : Nat} {acc k : UInt32} (hpc : prog[pc]? = some (.ret k)) :
      Returns load prog pc acc k
  | ldAbs {pc : Nat} {acc k w r : UInt32} (hpc : prog[pc]? = some (.ldAbs k))
      (hload : load k = some w) (hnext : Returns load prog (pc + 1) w r) :
      Returns load prog pc acc r
  | hit {pc : Nat} {acc r : UInt32} {jt jf : UInt8} (hpc : prog[pc]? = some (.jeq acc jt jf))
      (hnext : Returns load prog (pc + 1 + jt.toNat) acc r) : Returns load prog pc acc r
  | miss {pc : Nat} {acc k r : UInt32} {jt jf : UInt8}
      (hpc : prog[pc]? = some (.jeq k jt jf)) (hne : acc ≠ k)
      (hnext : Returns load prog (pc + 1 + jf.toNat) acc r) : Returns load prog pc acc r

variable {load : UInt32 → Option UInt32} {prog : List Instr}

/-- Forward jumps need no more fuel than there are instructions left. -/
theorem Returns.exec {pc : Nat} {acc r : UInt32} (h : Returns load prog pc acc r) :
    ∀ {fuel : Nat}, prog.length ≤ pc + fuel → exec load prog fuel pc acc = some r := by
  have inside : ∀ {pc : Nat} {i : Instr} {fuel : Nat}, prog[pc]? = some i →
      prog.length ≤ pc + fuel → ∃ f, fuel = f + 1 := by
    intro pc i fuel hpc hfuel
    obtain ⟨hlt, -⟩ := List.getElem?_eq_some_iff.mp hpc
    exact ⟨fuel - 1, by omega⟩
  induction h with
  | ret hpc =>
      intro fuel hfuel
      obtain ⟨f, rfl⟩ := inside hpc hfuel
      simp only [ClassicBpf.exec, hpc]
  | ldAbs hpc hload _ ih =>
      intro fuel hfuel
      obtain ⟨f, rfl⟩ := inside hpc hfuel
      simp only [ClassicBpf.exec, hpc, hload, Option.bind_some]
      exact ih (by omega)
  | hit hpc _ ih =>
      intro fuel hfuel
      obtain ⟨f, rfl⟩ := inside hpc hfuel
      simp only [ClassicBpf.exec, hpc, if_true]
      exact ih (by omega)
  | miss hpc hne _ ih =>
      intro fuel hfuel
      obtain ⟨f, rfl⟩ := inside hpc hfuel
      simp only [ClassicBpf.exec, hpc, if_neg hne]
      exact ih (by omega)

theorem Returns.run {r : UInt32} (h : Returns load prog 0 0 r) : run load prog = some r :=
  h.exec (Nat.le_of_eq (Nat.zero_add _).symm)

/-- A run of comparisons that all miss is passed through: the comparisons `tests`
(a word and the offset it jumps by) stand at `pc`, each falling through on a miss. -/
theorem Returns.pass {acc r : UInt32} :
    ∀ (tests : List (UInt32 × UInt8)) {pc : Nat},
      (tests.map fun t => Instr.jeq t.1 t.2 0) <+: prog.drop pc →
      acc ∉ tests.map Prod.fst → Returns load prog (pc + tests.length) acc r →
      Returns load prog pc acc r
  | [], _, _, _, h => h
  | t :: tests, pc, hat, hmiss, h => by
      obtain ⟨rest, hrest⟩ := hat
      have hpc : prog[pc]? = some (.jeq t.1 t.2 0) := by
        have := congrArg List.head? hrest
        rw [List.head?_drop] at this
        exact this.symm
      have hat' : (tests.map fun t => Instr.jeq t.1 t.2 0) <+: prog.drop (pc + 1) := by
        have := congrArg List.tail hrest
        rw [List.tail_drop] at this
        exact ⟨rest, this⟩
      have hlen : pc + 1 + tests.length = pc + (t :: tests).length := by
        rw [List.length_cons, Nat.add_assoc, Nat.add_comm 1]
      rw [List.map_cons, List.mem_cons, not_or] at hmiss
      refine .miss hpc hmiss.1 ?_
      change Returns load prog (pc + 1) acc r
      refine Returns.pass tests hat' hmiss.2 ?_
      rw [hlen]
      exact h

end VidhiArena.Foundation.ClassicBpf
