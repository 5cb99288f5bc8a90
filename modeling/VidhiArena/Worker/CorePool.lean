import VidhiArena.Foundation.TokenPool

/-!
# Cores for the jobs

`corePool` of `backend/worker/job_worker.go`: twenty pairs of cores in a buffered channel. A
worker loop takes one in `processJob`, for the Game Master and for the sandbox, and puts it
back when the function returns. `main.go` starts ten loops; here their number is free.

Not everything a job starts runs on its pair. The worker names neither the core of the
telemetry thread nor that of the watchdog, and a warm container has its core from the time
when it was created: `cores_shared_iff` says which jobs meet on a core.
-/

namespace VidhiArena.Worker

open VidhiArena.Foundation

/-- `make(chan int, 20)` -/
def coreSlots : Nat := 20

/-- The channel after `initCorePool`. -/
def initCorePool : List Nat := (List.range coreSlots).map fun i => 2 + i * 2

/-- The cores that the parts of a job are pinned to. -/
structure JobPins where
  /-- `--gm-core`: the Game Master and the loader that it forks -/
  gameMaster : Nat
  /-- `telemetry_core` -/
  telemetry : Nat
  /-- `watchdog_core` -/
  watchdog : Nat
  /-- `CpusetCpus` -/
  container : Nat

/-- A job that has received `gmCore`, in a container of the warm pool or in one of its own:
`Config` of the Game Master has the defaults of the two threads, `SandboxCore` is that of the
warm pool. -/
def jobPins (gmCore : Nat) (warm : Bool) : JobPins :=
  ⟨gmCore, 4, 5, if warm then 3 else gmCore + 1⟩

def JobPins.cores (p : JobPins) : List Nat := [p.gameMaster, p.telemetry, p.watchdog, p.container]

/-- The loops, each between two jobs or in a job with its core: a move is a receive of
`processJob` or its deferred send. -/
def runCores (concurrency : Nat) (moves : List PoolMove) : TokenPool Nat :=
  moves.foldl (TokenPool.step coreSlots) (.init initCorePool concurrency)

theorem initCorePool_nodup : initCorePool.Nodup :=
  List.nodup_range.map fun i j (h : 2 + i * 2 = 2 + j * 2) => by omega

theorem length_initCorePool : initCorePool.length = coreSlots := by
  rw [initCorePool, List.length_map, List.length_range]

theorem mem_initCorePool {gmCore : Nat} (h : gmCore ∈ initCorePool) :
    2 ∣ gmCore ∧ 2 ≤ gmCore ∧ gmCore ≤ 40 := by
  obtain ⟨i, hi, rfl⟩ := List.mem_map.mp h
  have hslot : i < 20 := List.mem_range.mp hi
  omega

/-- Where two jobs meet: the Game Master of one on a core of the other, and the core that
its sandbox is meant to have. -/
theorem cores_shared_iff {g g' : Nat} (h : 2 ∣ g) (h' : 2 ∣ g') (hne : g ≠ g') (warm' : Bool) :
    (g ∈ (jobPins g' warm').cores ↔ g = 4) ∧
      (g + 1 ∈ (jobPins g' warm').cores ↔ g = 4 ∨ g = 2 ∧ warm' = true) := by
  cases warm' with
  | true =>
      simp only [JobPins.cores, jobPins, if_true, List.mem_cons, List.not_mem_nil, or_false,
        and_true]
      omega
  | false =>
      simp only [JobPins.cores, jobPins, Bool.false_eq_true, if_false, List.mem_cons,
        List.not_mem_nil, or_false, and_false]
      omega

/-- The pool of cores under any number of worker loops, whatever the order of their steps.
Of two jobs at a time, the Game Master of one has its core for itself unless that is core 4,
where every telemetry thread is pinned, and the core for its sandbox is free of the other
unless it is core 5, that of the watchdogs, or core 3 and the other is in a warm container. A
job has two of the cores 2 to 41, gives them back without waiting, and waits for them only if
there are more than twenty loops. No pair is ever lost. -/
theorem job_cores (concurrency : Nat) (moves : List PoolMove) :
    let s := runCores concurrency moves
    (∀ w w' g g' : Nat, w ≠ w' → s.hands[w]? = some (some g) → s.hands[w']? = some (some g') →
      ∀ warm', (g ∈ (jobPins g' warm').cores ↔ g = 4) ∧
        (g + 1 ∈ (jobPins g' warm').cores ↔ g = 4 ∨ g = 2 ∧ warm' = true)) ∧
    (∀ w g : Nat, s.hands[w]? = some (some g) →
      2 ≤ g ∧ g + 1 ≤ 41 ∧ (s.step coreSlots (.put w)).hands[w]? = some none) ∧
    (concurrency ≤ coreSlots → ∀ w : Nat, s.hands[w]? = some none →
      ∃ g, (s.step coreSlots (.take w)).hands[w]? = some (some g)) ∧
    (s.channel ++ s.hands.reduceOption).Perm initCorePool := by
  intro s
  have hs : s.Conserves initCorePool := (TokenPool.conserves_init _ concurrency).run coreSlots moves
  have hloops : s.hands.length = concurrency :=
    (TokenPool.length_hands_run coreSlots moves _).trans List.length_replicate
  refine ⟨fun w w' g g' hne hg hg' => ?_, fun w g hg => ?_, fun hfew w hw => ?_, hs⟩
  · refine cores_shared_iff (mem_initCorePool (hs.mem hg)).1 (mem_initCorePool (hs.mem hg')).1 ?_
    rintro rfl
    exact hne (hs.exclusive initCorePool_nodup hg hg')
  · obtain ⟨-, hlow, hhigh⟩ := mem_initCorePool (hs.mem hg)
    refine ⟨hlow, Nat.succ_le_succ hhigh, ?_⟩
    rw [TokenPool.step, hs.put_succeeds length_initCorePool.le hg]
    exact List.getElem?_set_self (List.getElem?_eq_some_iff.mp hg).1
  · obtain ⟨g, channel, -, htake⟩ :=
      hs.take_succeeds (by rw [hloops, length_initCorePool]; exact hfew) hw
    refine ⟨g, ?_⟩
    rw [TokenPool.step, htake]
    exact List.getElem?_set_self (List.getElem?_eq_some_iff.mp hw).1

end VidhiArena.Worker
