import VidhiArena.Foundation.ClassicBpf

/-!
# The system call filter of the sandbox

`seccomp_filter.hpp`: the program that `apply_strict_mode` installs before the
loader enters its loop. The offsets of the allowlist are counted by hand. The last
four of them reach the `ALLOW` at the end; the first four reach the comparison
with `munmap` in front of it, which these calls miss.
-/

namespace VidhiArena.Sandbox

open Foundation.ClassicBpf

/-- `struct seccomp_data`, sixty-four bytes as words: the system call number, the
architecture, then the instruction pointer and the six arguments. -/
structure SeccompData where
  word : Fin 16 → UInt32

namespace SeccompData

def nr (d : SeccompData) : UInt32 := d.word 0

def arch (d : SeccompData) : UInt32 := d.word 1

/-- An absolute load of an aligned word inside the record. -/
def load (d : SeccompData) (k : UInt32) : Option UInt32 :=
  if h : k.toNat % 4 = 0 ∧ k.toNat / 4 < 16 then some (d.word ⟨k.toNat / 4, h.2⟩) else none

end SeccompData

/-! ## Constants of the kernel's headers -/

def offsetofNr : UInt32 := 0
def offsetofArch : UInt32 := 4

def AUDIT_ARCH_X86_64 : UInt32 := 0xC000003E

def SECCOMP_RET_KILL_PROCESS : UInt32 := 0x80000000
def SECCOMP_RET_ALLOW : UInt32 := 0x7fff0000

def NR_read : UInt32 := 0
def NR_write : UInt32 := 1
def NR_mmap : UInt32 := 9
def NR_mprotect : UInt32 := 10
def NR_munmap : UInt32 := 11
def NR_brk : UInt32 := 12
def NR_exit : UInt32 := 60
def NR_exit_group : UInt32 := 231

/-! ## The program -/

/-- The array `filter` of `apply_strict_mode`. -/
def strictMode : List Instr :=
  [.ldAbs offsetofArch,
   .jeq AUDIT_ARCH_X86_64 1 0,
   .ret SECCOMP_RET_KILL_PROCESS,
   .ldAbs offsetofNr,
   .jeq NR_read 6 0,
   .jeq NR_write 5 0,
   .jeq NR_exit 4 0,
   .jeq NR_exit_group 3 0,
   .jeq NR_mprotect 4 0,
   .jeq NR_brk 3 0,
   .jeq NR_mmap 2 0,
   .jeq NR_munmap 1 0,
   .ret SECCOMP_RET_KILL_PROCESS,
   .ret SECCOMP_RET_ALLOW]

/-- What the kernel does with a system call. -/
def SeccompData.verdict (d : SeccompData) : Option UInt32 := run d.load strictMode

/-- The calls behind the comment "Allowlist". -/
def allowlist : List UInt32 :=
  [NR_read, NR_write, NR_exit, NR_exit_group, NR_mprotect, NR_brk, NR_mmap, NR_munmap]

/-- What the filter is for: `ALLOW` for the allowlist on the right machine, and
`KILL_PROCESS` otherwise. -/
def SeccompData.policy (d : SeccompData) : UInt32 :=
  if d.arch = AUDIT_ARCH_X86_64 ∧ d.nr ∈ allowlist then SECCOMP_RET_ALLOW
  else SECCOMP_RET_KILL_PROCESS

/-! ## Where the comparisons lead -/

/-- The comparisons that stand at instruction 4, with the offsets they jump by. -/
def comparisons : List (UInt32 × UInt8) :=
  [(NR_read, 6), (NR_write, 5), (NR_exit, 4), (NR_exit_group, 3), (NR_mprotect, 4), (NR_brk, 3),
    (NR_mmap, 2), (NR_munmap, 1)]

/-- The calls whose comparison jumps behind the last one. -/
def memoryCalls : List UInt32 := [NR_mprotect, NR_brk, NR_mmap, NR_munmap]

/-- The calls whose comparison jumps to the last one. -/
def ioCalls : List UInt32 := [NR_read, NR_write, NR_exit, NR_exit_group]

theorem mem_allowlist {nr : UInt32} : nr ∈ allowlist ↔ nr ∈ ioCalls ∨ nr ∈ memoryCalls := by
  have : allowlist = ioCalls ++ memoryCalls := rfl
  rw [this, List.mem_append]

variable {d : SeccompData}

theorem killed_elsewhere (h : d.arch ≠ AUDIT_ARCH_X86_64) :
    d.verdict = some SECCOMP_RET_KILL_PROCESS := by
  refine Returns.run (.ldAbs rfl rfl ?_)
  exact .miss rfl h (.ret rfl)

/-- On the right machine the verdict is that of the comparisons. -/
theorem verdict_of_returns (h : d.arch = AUDIT_ARCH_X86_64) {r : UInt32}
    (hr : Returns d.load strictMode 4 d.nr r) : d.verdict = some r := by
  refine Returns.run (.ldAbs rfl rfl ?_)
  change Returns d.load strictMode 1 d.arch r
  rw [h]
  exact .hit rfl (.ldAbs rfl rfl hr)

theorem memory_call_allowed {nr : UInt32} (h : nr ∈ memoryCalls) :
    Returns d.load strictMode 4 nr SECCOMP_RET_ALLOW := by
  simp only [memoryCalls, List.mem_cons, List.not_mem_nil, or_false] at h
  rcases h with rfl | rfl | rfl | rfl
  · exact .pass (comparisons.take 4) (by decide) (by decide) (.hit rfl (.ret rfl))
  · exact .pass (comparisons.take 5) (by decide) (by decide) (.hit rfl (.ret rfl))
  · exact .pass (comparisons.take 6) (by decide) (by decide) (.hit rfl (.ret rfl))
  · exact .pass (comparisons.take 7) (by decide) (by decide) (.hit rfl (.ret rfl))

/-- The first four offsets are one short: they reach the comparison with `munmap`. -/
theorem io_call_killed {nr : UInt32} (h : nr ∈ ioCalls) :
    Returns d.load strictMode 4 nr SECCOMP_RET_KILL_PROCESS := by
  have last : ∀ nr : UInt32, nr ≠ NR_munmap →
      Returns d.load strictMode 11 nr SECCOMP_RET_KILL_PROCESS := by
    intro nr hne
    exact .miss rfl hne (.ret rfl)
  simp only [ioCalls, List.mem_cons, List.not_mem_nil, or_false] at h
  rcases h with rfl | rfl | rfl | rfl
  · exact .hit rfl (last _ (by decide))
  · exact .pass (comparisons.take 1) (by decide) (by decide) (.hit rfl (last _ (by decide)))
  · exact .pass (comparisons.take 2) (by decide) (by decide) (.hit rfl (last _ (by decide)))
  · exact .pass (comparisons.take 3) (by decide) (by decide) (.hit rfl (last _ (by decide)))

theorem other_call_killed {nr : UInt32} (h : nr ∉ allowlist) :
    Returns d.load strictMode 4 nr SECCOMP_RET_KILL_PROCESS := by
  exact .pass comparisons (by decide) h (.ret rfl)

/-! ## The policy -/

/-- The filter keeps its policy on a call if and only if the call is not one of
`read`, `write`, `exit` and `exit_group` on an x86-64 machine. -/
theorem filter_keeps_policy_iff (d : SeccompData) :
    d.verdict = some d.policy ↔ ¬ (d.arch = AUDIT_ARCH_X86_64 ∧ d.nr ∈ ioCalls) := by
  unfold SeccompData.policy
  by_cases harch : d.arch = AUDIT_ARCH_X86_64
  · by_cases hio : d.nr ∈ ioCalls
    · rw [verdict_of_returns harch (io_call_killed hio),
        if_pos ⟨harch, mem_allowlist.mpr (.inl hio)⟩]
      exact ⟨fun h => absurd h (by decide), fun h => absurd ⟨harch, hio⟩ h⟩
    refine ⟨fun _ h => hio h.2, fun _ => ?_⟩
    by_cases hmem : d.nr ∈ memoryCalls
    · rw [verdict_of_returns harch (memory_call_allowed hmem),
        if_pos ⟨harch, mem_allowlist.mpr (.inr hmem)⟩]
    · have hother : d.nr ∉ allowlist := fun h => (mem_allowlist.mp h).elim hio hmem
      rw [verdict_of_returns harch (other_call_killed hother), if_neg fun h => hother h.2]
  · rw [killed_elsewhere harch, if_neg fun h => harch h.1]
    exact ⟨fun _ h => harch h.1, fun _ => rfl⟩

/-- The loader is killed at its next message: `write` on an x86-64 machine, the call
behind the line "Strict Sandbox Mode Activated". -/
theorem write_killed :
    ∃ d : SeccompData, d.arch = AUDIT_ARCH_X86_64 ∧ d.nr = NR_write ∧
      d.policy = SECCOMP_RET_ALLOW ∧ d.verdict = some SECCOMP_RET_KILL_PROCESS :=
  ⟨⟨fun i => if i = 0 then NR_write else AUDIT_ARCH_X86_64⟩, rfl, rfl, rfl, rfl⟩

end VidhiArena.Sandbox
