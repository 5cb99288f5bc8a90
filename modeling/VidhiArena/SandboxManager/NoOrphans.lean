import Mathlib.Data.List.Nodup
import VidhiArena.Foundation.Processes
import VidhiArena.SandboxManager.Containers

/-!
# No container is orphaned

The deferred clean-up of `SpawnSandbox` unregisters the container before it removes it, so
between the two no lookup finds a container that is still there, in every run that ends. Until
then (`Steady`), and but for that moment and for containers that a stop request has killed
(`Ordered`), the registry and the clean-up do what they are for, if no call fails with a
container in hand and no two calls for one run overlap.
-/

namespace VidhiArena.SandboxManager

open VidhiArena.Foundation

/-! ## Until the first clean-up -/

/-- The clean-up has not unregistered anything, and no call has given up a container. -/
def Spawn.early : Spawn → Bool
  | .unregistered _ | .removed _ | .returned (some _) => false
  | _ => true

namespace Manager

variable {s : Manager}

structure Steady (s : Manager) : Prop where
  found : ∀ x ∈ s.shared.registered, s.shared.registry x.1 = some x.2
  early : ∀ a ∈ s.spawns, a.early = true
  removed : s.shared.removed = []

theorem Steady.kept (h : s.Steady) : s.Kept where
  found x hx _ _ := h.found x hx
  released _ hb := nomatch h.early _ hb

theorem Steady.set (h : s.Steady) {shared : Shared} {a : Spawn} (i : Nat)
    (hregistry : shared.registry = s.shared.registry)
    (hregistered : shared.registered = s.shared.registered)
    (hremoved : shared.removed = s.shared.removed) (ha : a.early = true) :
    Steady { s with shared, spawns := s.spawns.set i a } where
  found := by
    rw [hregistry, hregistered]
    exact h.found
  early a' ha' := by
    rcases List.mem_or_eq_of_mem_set ha' with ha' | rfl
    · exact h.early a' ha'
    · exact ha
  removed := hremoved.trans h.removed

theorem Steady.spawn (h : s.Steady) {i : Nat} {ok : Bool} {a : Spawn} (ha : s.spawns[i]? = some a)
    (hholds : s.holdsOn (.spawn i ok) = true) (hundisturbed : s.undisturbed (.spawn i ok) = true) :
    Steady { s with
      shared := (a.advance s.shared ok).1, spawns := s.spawns.set i (a.advance s.shared ok).2 } := by
  rw [holdsOn, ha] at hholds
  rw [undisturbed, ha] at hundisturbed
  have hearly := h.early a (List.mem_of_getElem? ha)
  cases a with
  | begun runID =>
      rw [Spawn.advance]
      split
      · split
        · exact h.set i rfl rfl rfl rfl
        · exact h.set i rfl rfl rfl rfl
      · exact h.set i rfl rfl rfl rfl
  | creating runID =>
      rw [Spawn.advance]
      split
      · exact h.set i rfl rfl rfl rfl
      · exact h.set i rfl rfl rfl rfl
  | claimed b | copied b | obtained b =>
      obtain rfl : ok = true := hholds
      exact h.set i rfl rfl rfl rfl
  | started b =>
      have hfresh : ∀ x ∈ s.shared.registered, x.1 ≠ b.runID := by
        intro x hx hrun
        rcases Bool.or_eq_true_iff.mp (List.all_eq_true.mp hundisturbed x hx) with hne | hin
        · exact (bne_iff_ne.mp hne) hrun
        · rw [h.removed] at hin
          exact nomatch hin
      refine ⟨fun x hx => ?_, (h.set (a := .waiting b) i rfl rfl rfl rfl).early, h.removed⟩
      rcases List.mem_cons.mp hx with rfl | hx
      · exact Function.update_self _ _ _
      · exact (Function.update_of_ne (hfresh x hx) _ _).trans (h.found x hx)
  | waiting b => exact h.set i rfl rfl rfl rfl
  | leaving b => exact nomatch hundisturbed
  | unregistered b | removed b => exact nomatch hearly
  | returned b => exact h.set i rfl rfl rfl hearly

theorem Steady.answer (h : s.Steady) {i : Nat} {ok : Bool} {x : Stop} (hx : s.stops[i]? = some x)
    (hundisturbed : s.undisturbed (.answer i ok) = true) :
    Steady { s with
      shared := (x.advance s.shared ok).1, stops := s.stops.set i (x.advance s.shared ok).2 } := by
  rw [undisturbed, hx] at hundisturbed
  cases x with
  | begun runID =>
      rw [Stop.advance]
      split
      · exact ⟨h.found, h.early, h.removed⟩
      · exact ⟨h.found, h.early, h.removed⟩
  | killing runID id =>
      rw [Stop.advance]
      split
      · exact ⟨h.found, h.early, h.removed⟩
      · exact ⟨h.found, h.early, h.removed⟩
  | killed runID id =>
      -- there is nothing to take out
      have hsame : (s.shared.unregister runID).registry = s.shared.registry := by
        change Function.update s.shared.registry runID none = _
        rw [← of_decide_eq_true hundisturbed, Function.update_eq_self]
      refine ⟨?_, h.early, h.removed⟩
      intro y hy
      exact (congrFun hsame y.1).trans (h.found y hy)
  | answered => exact ⟨h.found, h.early, h.removed⟩

theorem Steady.step (h : s.Steady) (m : Move)
    (hadm : (s.holdsOn m && s.undisturbed m) = true) : (s.step m).Steady := by
  obtain ⟨hholds, hundisturbed⟩ := Bool.and_eq_true_iff.mp hadm
  cases m with
  | replenish =>
      rw [Manager.step]
      split
      · exact ⟨h.found, h.early, h.removed⟩
      · exact h
  | request runID =>
      refine ⟨h.found, fun a ha => ?_, h.removed⟩
      rcases List.mem_append.mp ha with ha | ha
      · exact h.early a ha
      · rw [List.mem_singleton.mp ha]
        rfl
  | stop runID => exact ⟨h.found, h.early, h.removed⟩
  | spawn i ok =>
      rw [Manager.step]
      split
      · exact h
      · next a ha => exact h.spawn ha hholds hundisturbed
  | answer i ok =>
      rw [Manager.step]
      split
      · exact h
      · next x hx => exact h.answer hx hundisturbed

/-! ## Every container is in one hand -/

structure Distinct (s : Manager) : Prop where
  unique : ∀ (i j : Nat) (a a' : Spawn) (b b' : Box), s.spawns[i]? = some a →
    s.spawns[j]? = some a' → a.box = some b → a'.box = some b' → b.id = b'.id → i = j
  fresh : ∀ a ∈ s.spawns, ∀ b, a.box = some b →
    b.id < s.shared.created ∧ b.id ∉ s.shared.pool
  pooled : ∀ id ∈ s.shared.pool, id < s.shared.created
  nodup : s.shared.pool.Nodup

/-- A call takes a container out of the pool, has one made, or keeps what it has. -/
theorem advance_box (shared : Shared) (ok : Bool) (a : Spawn) :
    ((a.advance shared ok).1.created = shared.created ∧
      (a.advance shared ok).1.pool = shared.pool ∧
      ∀ b, (a.advance shared ok).2.box = some b → a.box = some b) ∨
    (∃ b, shared.pool = b.id :: (a.advance shared ok).1.pool ∧
      (a.advance shared ok).1.created = shared.created ∧
      (a.advance shared ok).2.box = some b) ∨
    ∃ b, b.id = shared.created ∧ (a.advance shared ok).1.created = shared.created + 1 ∧
      (a.advance shared ok).1.pool = shared.pool ∧ (a.advance shared ok).2.box = some b := by
  cases a with
  | begun runID =>
      rw [Spawn.advance]
      split
      · split
        · exact Or.inl ⟨rfl, rfl, nofun⟩
        · next id pool hpool => exact Or.inr (Or.inl ⟨⟨runID, id, true⟩, hpool, rfl, rfl⟩)
      · exact Or.inl ⟨rfl, rfl, nofun⟩
  | creating runID =>
      rw [Spawn.advance]
      split
      · exact Or.inr (Or.inr ⟨⟨runID, shared.created, false⟩, rfl, rfl, rfl, rfl⟩)
      · exact Or.inl ⟨rfl, rfl, nofun⟩
  | claimed b | copied b | obtained b =>
      rw [Spawn.advance]
      split
      · exact Or.inl ⟨rfl, rfl, fun _ h => h⟩
      · exact Or.inl ⟨rfl, rfl, fun _ h => h⟩
  | started | waiting | leaving | unregistered | removed | returned =>
      exact Or.inl ⟨rfl, rfl, fun _ h => h⟩

theorem Distinct.spawn (h : s.Distinct) {i : Nat} {a : Spawn} (ok : Bool)
    (ha : s.spawns[i]? = some a) : Distinct { s with
      shared := (a.advance s.shared ok).1, spawns := s.spawns.set i (a.advance s.shared ok).2 } := by
  have hmem := List.mem_of_getElem? ha
  -- what the call holds then is its own already, or nobody's
  have hunique : (∀ b, (a.advance s.shared ok).2.box = some b → a.box = some b ∨
      ∀ a' ∈ s.spawns, ∀ b', a'.box = some b' → b'.id ≠ b.id) →
      ∀ (j k : Nat) (x y : Spawn) (b b' : Box),
        (s.spawns.set i (a.advance s.shared ok).2)[j]? = some x →
        (s.spawns.set i (a.advance s.shared ok).2)[k]? = some y →
        x.box = some b → y.box = some b' → b.id = b'.id → j = k := by
    intro hnew j k x y b b' hx hy hb hb' heq
    rcases getElem?_set_cases hx with ⟨rfl, rfl⟩ | ⟨-, hj⟩
    · rcases getElem?_set_cases hy with ⟨rfl, -⟩ | ⟨-, hk⟩
      · rfl
      · rcases hnew b hb with hold | hfree
        · exact h.unique _ _ _ _ _ _ ha hk hold hb' heq
        · exact absurd heq.symm (hfree y (List.mem_of_getElem? hk) b' hb')
    · rcases getElem?_set_cases hy with ⟨rfl, rfl⟩ | ⟨-, hk⟩
      · rcases hnew b' hb' with hold | hfree
        · exact h.unique _ _ _ _ _ _ hj ha hb hold heq
        · exact absurd heq (hfree x (List.mem_of_getElem? hj) b hb)
      · exact h.unique _ _ _ _ _ _ hj hk hb hb' heq
  rcases advance_box s.shared ok a with ⟨hcreated, hpool, hkeeps⟩ | ⟨b, hpool, hcreated, hb⟩ |
    ⟨b, hid, hcreated, hpool, hb⟩
  · refine ⟨hunique fun b hb => Or.inl (hkeeps b hb), fun x hx b hb => ?_, ?_, hpool ▸ h.nodup⟩
    · change b.id < (a.advance s.shared ok).1.created ∧ b.id ∉ (a.advance s.shared ok).1.pool
      rw [hcreated, hpool]
      rcases List.mem_or_eq_of_mem_set hx with hx | rfl
      · exact h.fresh x hx b hb
      · exact h.fresh a hmem b (hkeeps b hb)
    · intro id hid
      change id < (a.advance s.shared ok).1.created
      rw [hcreated]
      exact h.pooled id (hpool ▸ hid)
  · have hhead : b.id ∈ s.shared.pool := hpool ▸ List.mem_cons_self
    have hnodup := hpool ▸ h.nodup
    refine ⟨hunique fun b' hb' => Or.inr fun a' ha' c hc heq => ?_, fun x hx c hc => ?_, ?_,
      (List.nodup_cons.mp hnodup).2⟩
    · obtain rfl := Option.some.inj (hb.symm.trans hb')
      exact (h.fresh a' ha' c hc).2 (heq ▸ hhead)
    · change c.id < (a.advance s.shared ok).1.created ∧ c.id ∉ (a.advance s.shared ok).1.pool
      rw [hcreated]
      rcases List.mem_or_eq_of_mem_set hx with hx | rfl
      · obtain ⟨hlt, hout⟩ := h.fresh x hx c hc
        exact ⟨hlt, fun hin => hout (hpool ▸ List.mem_cons_of_mem _ hin)⟩
      · obtain rfl := Option.some.inj (hb.symm.trans hc)
        exact ⟨h.pooled _ hhead, (List.nodup_cons.mp hnodup).1⟩
    · intro id hid
      change id < (a.advance s.shared ok).1.created
      rw [hcreated]
      exact h.pooled id (hpool ▸ List.mem_cons_of_mem _ hid)
  · refine ⟨hunique fun b' hb' => Or.inr fun a' ha' c hc heq => ?_, fun x hx c hc => ?_, ?_,
      hpool ▸ h.nodup⟩
    · obtain rfl := Option.some.inj (hb.symm.trans hb')
      exact (h.fresh a' ha' c hc).1.ne (heq.trans hid)
    · change c.id < (a.advance s.shared ok).1.created ∧ c.id ∉ (a.advance s.shared ok).1.pool
      rw [hcreated, hpool]
      rcases List.mem_or_eq_of_mem_set hx with hx | rfl
      · obtain ⟨hlt, hout⟩ := h.fresh x hx c hc
        exact ⟨Nat.lt_succ_of_lt hlt, hout⟩
      · obtain rfl := Option.some.inj (hb.symm.trans hc)
        exact ⟨hid ▸ Nat.lt_succ_self _, fun hin => (h.pooled _ hin).ne hid⟩
    · intro id hin
      change id < (a.advance s.shared ok).1.created
      rw [hcreated]
      exact Nat.lt_succ_of_lt (h.pooled id (hpool ▸ hin))

theorem Stop.advance_pool (shared : Shared) (ok : Bool) (x : Stop) :
    (x.advance shared ok).1.created = shared.created ∧
      (x.advance shared ok).1.pool = shared.pool := by
  cases x with
  | begun | killing =>
      rw [Stop.advance]
      split <;> exact ⟨rfl, rfl⟩
  | killed | answered => exact ⟨rfl, rfl⟩

theorem Distinct.step (h : s.Distinct) (m : Move) : (s.step m).Distinct := by
  cases m with
  | replenish =>
      rw [Manager.step]
      split
      · refine ⟨h.unique, fun a ha b hb => ?_, fun id hid => ?_, ?_⟩
        · obtain ⟨hlt, hout⟩ := h.fresh a ha b hb
          refine ⟨Nat.lt_succ_of_lt hlt, fun hin => ?_⟩
          rcases List.mem_append.mp hin with hin | hin
          · exact hout hin
          · exact hlt.ne (List.mem_singleton.mp hin)
        · rcases List.mem_append.mp hid with hid | hid
          · exact Nat.lt_succ_of_lt (h.pooled id hid)
          · exact List.mem_singleton.mp hid ▸ Nat.lt_succ_self _
        · refine List.nodup_append.mpr ⟨h.nodup, List.nodup_singleton _, ?_⟩
          intro id hid id' hnew
          exact List.mem_singleton.mp hnew ▸ (h.pooled id hid).ne
      · exact h
  | request runID =>
      have hold : ∀ (j : Nat) (x : Spawn) (b : Box),
          (s.spawns ++ [.begun runID])[j]? = some x → x.box = some b → s.spawns[j]? = some x := by
        intro j x b hx hb
        rcases getElem?_concat_cases hx with ⟨-, hx⟩ | ⟨-, rfl⟩
        · exact hx
        · exact nomatch hb
      refine ⟨fun i j a a' b b' hi hj hb hb' heq => ?_, fun a ha b hb => ?_, h.pooled, h.nodup⟩
      · exact h.unique i j a a' b b' (hold i a b hi hb) (hold j a' b' hj hb') hb hb' heq
      · rcases List.mem_append.mp ha with ha | ha
        · exact h.fresh a ha b hb
        · rw [List.mem_singleton.mp ha] at hb
          exact nomatch hb
  | stop runID => exact ⟨h.unique, h.fresh, h.pooled, h.nodup⟩
  | spawn i ok =>
      rw [Manager.step]
      split
      · exact h
      · next a ha => exact h.spawn ok ha
  | answer i ok =>
      rw [Manager.step]
      split
      · exact h
      · next x hx =>
          obtain ⟨hcreated, hpool⟩ := Stop.advance_pool s.shared ok x
          refine ⟨h.unique, ?_, ?_, hpool ▸ h.nodup⟩
          · change ∀ a ∈ s.spawns, ∀ b, a.box = some b → b.id < (x.advance s.shared ok).1.created ∧
              b.id ∉ (x.advance s.shared ok).1.pool
            rw [hcreated, hpool]
            exact h.fresh
          · change ∀ id ∈ (x.advance s.shared ok).1.pool, id < (x.advance s.shared ok).1.created
            rw [hcreated, hpool]
            exact h.pooled

/-! ## The registry, for runs apart -/

structure Entered (s : Manager) : Prop where
  single : ∀ (i j : Nat) (a a' : Spawn) (b b' : Box), s.spawns[i]? = some a →
    s.spawns[j]? = some a' → a.listed = some b → a'.listed = some b' → b.runID = b'.runID → i = j
  entry : ∀ runID id, s.shared.registry runID = some id →
    ∃ a ∈ s.spawns, ∃ b, a.listed = some b ∧ b.runID = runID ∧ b.id = id
  kept : ∀ a ∈ s.spawns, ∀ b, a.listed = some b →
    s.shared.registry b.runID = some b.id ∨ b.id ∈ s.shared.killed
  aimed : ∀ x ∈ s.stops, ∀ runID id, x.target = some (runID, id) →
    ∀ a ∈ s.spawns, ∀ b, a.listed = some b → b.runID = runID → b.id = id
  shot : ∀ runID id, .killed runID id ∈ s.stops → id ∈ s.shared.killed
  own : ∀ id id', (id, some id') ∈ s.shared.cleared → id' = id

/-- The container that the registry has for a run is the one that is listed for it. -/
theorem Entered.id_eq (h : s.Entered) {a : Spawn} {b : Box} {id : Nat} (ha : a ∈ s.spawns)
    (hb : a.listed = some b) (hid : s.shared.registry b.runID = some id) : b.id = id := by
  obtain ⟨a', ha', b', hb', hrun, rfl⟩ := h.entry _ _ hid
  obtain ⟨i, hi⟩ := List.mem_iff_getElem?.mp ha
  obtain ⟨j, hj⟩ := List.mem_iff_getElem?.mp ha'
  obtain rfl := h.single i j a a' b b' hi hj hb hb' hrun.symm
  obtain rfl := Option.some.inj (hi.symm.trans hj)
  exact congrArg Box.id (Option.some.inj (hb.symm.trans hb'))

/-- A call registers its container, unregisters it, or does nothing to the registry. -/
theorem advance_registry (shared : Shared) (ok : Bool) (a : Spawn) :
    ((a.advance shared ok).1.registry = shared.registry ∧
      (a.advance shared ok).1.cleared = shared.cleared ∧
      (a.advance shared ok).1.killed = shared.killed ∧
      (a.advance shared ok).2.listed = a.listed) ∨
    (∃ b, a = .started b) ∨ ∃ b, a = .leaving b := by
  cases a with
  | begun =>
      rw [Spawn.advance]
      split
      · split <;> exact Or.inl ⟨rfl, rfl, rfl, rfl⟩
      · exact Or.inl ⟨rfl, rfl, rfl, rfl⟩
  | claimed | copied | obtained | creating =>
      rw [Spawn.advance]
      split <;> exact Or.inl ⟨rfl, rfl, rfl, rfl⟩
  | started b => exact Or.inr (Or.inl ⟨b, rfl⟩)
  | leaving b => exact Or.inr (Or.inr ⟨b, rfl⟩)
  | waiting | unregistered | removed | returned => exact Or.inl ⟨rfl, rfl, rfl, rfl⟩

theorem Entered.shrink (h : s.Entered) {shared : Shared} {spawns : List Spawn}
    (hold : ∀ (j : Nat) (x : Spawn) (b : Box), spawns[j]? = some x → x.listed = some b →
      ∃ y, s.spawns[j]? = some y ∧ y.listed = some b)
    (hkilled : shared.killed = s.shared.killed)
    (hown : ∀ id id', (id, some id') ∈ shared.cleared → id' = id)
    (hentry : ∀ runID id, shared.registry runID = some id →
      ∃ a ∈ spawns, ∃ b, a.listed = some b ∧ b.runID = runID ∧ b.id = id)
    (hkept : ∀ a ∈ spawns, ∀ b, a.listed = some b →
      shared.registry b.runID = some b.id ∨ b.id ∈ s.shared.killed) :
    Entered { s with shared, spawns } where
  single i j a a' b b' hi hj hb hb' hrun := by
    obtain ⟨y, hy, hyb⟩ := hold i a b hi hb
    obtain ⟨y', hy', hyb'⟩ := hold j a' b' hj hb'
    exact h.single i j y y' b b' hy hy' hyb hyb' hrun
  entry := hentry
  kept := hkilled ▸ hkept
  aimed x hx runID id hid a ha b hb hrun := by
    obtain ⟨j, hj⟩ := List.mem_iff_getElem?.mp ha
    obtain ⟨y, hy, hyb⟩ := hold j a b hj hb
    exact h.aimed x hx runID id hid y (List.mem_of_getElem? hy) b hyb hrun
  shot runID id hx := hkilled ▸ h.shot runID id hx
  own := hown

theorem Entered.quiet (h : s.Entered) {shared : Shared} {i : Nat} {a a' : Spawn}
    (ha : s.spawns[i]? = some a) (hregistry : shared.registry = s.shared.registry)
    (hcleared : shared.cleared = s.shared.cleared) (hkilled : shared.killed = s.shared.killed)
    (hlisted : a'.listed = a.listed) :
    Entered { s with shared, spawns := s.spawns.set i a' } := by
  have hold : ∀ (j : Nat) (x : Spawn) (b : Box), (s.spawns.set i a')[j]? = some x → x.listed = some b →
      ∃ y, s.spawns[j]? = some y ∧ y.listed = some b := by
    intro j x b hx hb
    rcases getElem?_set_cases hx with ⟨rfl, rfl⟩ | ⟨-, hj⟩
    · exact ⟨a, ha, hlisted.symm.trans hb⟩
    · exact ⟨x, hj, hb⟩
  refine h.shrink hold hkilled (hcleared ▸ h.own) ?_ ?_
  · intro runID id hid
    obtain ⟨x, hx, b, hb, hrun⟩ := h.entry runID id (hregistry ▸ hid)
    obtain ⟨j, hj⟩ := List.mem_iff_getElem?.mp hx
    by_cases hji : j = i
    · subst hji
      obtain rfl := Option.some.inj (hj.symm.trans ha)
      exact ⟨a', List.mem_set (List.getElem?_eq_some_iff.mp ha).1 _, b, hlisted.trans hb, hrun⟩
    · refine ⟨x, List.mem_iff_getElem?.mpr ⟨j, ?_⟩, b, hb, hrun⟩
      rw [List.getElem?_set_ne (Ne.symm hji)]
      exact hj
  · intro x hx b hb
    obtain ⟨j, hj⟩ := List.mem_iff_getElem?.mp hx
    obtain ⟨y, hy, hyb⟩ := hold j x b hj hb
    exact hregistry ▸ h.kept y (List.mem_of_getElem? hy) b hyb

theorem Entered.registers (h : s.Entered) {i : Nat} {b : Box}
    (ha : s.spawns[i]? = some (.started b))
    (hcalls : ∀ a ∈ s.spawns, ∀ b', a.listed = some b' → b'.runID ≠ b.runID)
    (hstops : ∀ x ∈ s.stops, ∀ t, x.target = some t → t.1 ≠ b.runID) :
    Entered { s with shared := s.shared.register b, spawns := s.spawns.set i (.waiting b) } := by
  have hself : (.waiting b : Spawn) ∈ s.spawns.set i (.waiting b) :=
    List.mem_set (List.getElem?_eq_some_iff.mp ha).1 _
  have hlisted : ∀ {b' : Box}, (Spawn.waiting b).listed = some b' → b' = b := fun h =>
    (Option.some.inj h).symm
  constructor
  · intro j k x y c c' hx hy hc hc' hrun
    rcases getElem?_set_cases hx with ⟨rfl, rfl⟩ | ⟨-, hj⟩
    · rcases getElem?_set_cases hy with ⟨rfl, -⟩ | ⟨-, hk⟩
      · rfl
      · obtain rfl := hlisted hc
        exact absurd hrun.symm (hcalls y (List.mem_of_getElem? hk) c' hc')
    · rcases getElem?_set_cases hy with ⟨rfl, rfl⟩ | ⟨-, hk⟩
      · obtain rfl := hlisted hc'
        exact absurd hrun (hcalls x (List.mem_of_getElem? hj) c hc)
      · exact h.single _ _ _ _ _ _ hj hk hc hc' hrun
  · intro runID id hid
    change Function.update s.shared.registry b.runID (some b.id) runID = some id at hid
    by_cases hrun : runID = b.runID
    · rw [hrun, Function.update_self] at hid
      exact ⟨_, hself, b, rfl, hrun.symm, Option.some.inj hid⟩
    · rw [Function.update_of_ne hrun] at hid
      obtain ⟨x, hx, c, hc, hcrun⟩ := h.entry runID id hid
      obtain ⟨j, hj⟩ := List.mem_iff_getElem?.mp hx
      have hji : j ≠ i := by
        rintro rfl
        obtain rfl := Option.some.inj (hj.symm.trans ha)
        exact nomatch hc
      refine ⟨x, List.mem_iff_getElem?.mpr ⟨j, ?_⟩, c, hc, hcrun⟩
      rw [List.getElem?_set_ne hji.symm]
      exact hj
  · intro x hx c hc
    change Function.update s.shared.registry b.runID (some b.id) c.runID = _ ∨ _
    rcases List.mem_or_eq_of_mem_set hx with hx | rfl
    · rw [Function.update_of_ne (hcalls x hx c hc)]
      exact h.kept x hx c hc
    · obtain rfl := hlisted hc
      exact Or.inl (Function.update_self _ _ _)
  · intro x hx runID id hid y hy c hc hrun
    rcases List.mem_or_eq_of_mem_set hy with hy | rfl
    · exact h.aimed x hx runID id hid y hy c hc hrun
    · obtain rfl := hlisted hc
      exact absurd hrun.symm (hstops x hx _ hid)
  · exact h.shot
  · exact h.own

theorem Entered.unregisters (h : s.Entered) {i : Nat} {b : Box}
    (ha : s.spawns[i]? = some (.leaving b)) :
    Entered { s with
      shared := (Spawn.advance s.shared true (.leaving b)).1
      spawns := s.spawns.set i (.unregistered b) } := by
  have hmem := List.mem_of_getElem? ha
  have hold : ∀ (j : Nat) (x : Spawn) (c : Box),
      (s.spawns.set i (.unregistered b))[j]? = some x → x.listed = some c →
      s.spawns[j]? = some x ∧ c.runID ≠ b.runID := by
    intro j x c hx hc
    rcases getElem?_set_cases hx with ⟨-, rfl⟩ | ⟨hji, hj⟩
    · exact nomatch hc
    · exact ⟨hj, fun hrun => hji (h.single j i _ _ c b hj ha hc rfl hrun)⟩
  refine h.shrink (fun j x c hx hc => ⟨x, (hold j x c hx hc).1, hc⟩) rfl ?_ ?_ ?_
  · intro id id' hin
    rcases List.mem_cons.mp hin with heq | hin
    · obtain ⟨rfl, hid⟩ := Prod.mk.inj heq
      exact (h.id_eq hmem rfl hid.symm).symm
    · exact h.own id id' hin
  · intro runID id hid
    change Function.update s.shared.registry b.runID none runID = some id at hid
    by_cases hrun : runID = b.runID
    · rw [hrun, Function.update_self] at hid
      exact nomatch hid
    · rw [Function.update_of_ne hrun] at hid
      obtain ⟨x, hx, c, hc, hcrun, hcid⟩ := h.entry runID id hid
      obtain ⟨j, hj⟩ := List.mem_iff_getElem?.mp hx
      have hji : j ≠ i := by
        rintro rfl
        obtain rfl := Option.some.inj (hj.symm.trans ha)
        obtain rfl := Option.some.inj hc
        exact hrun hcrun.symm
      refine ⟨x, List.mem_iff_getElem?.mpr ⟨j, ?_⟩, c, hc, hcrun, hcid⟩
      rw [List.getElem?_set_ne hji.symm]
      exact hj
  · intro x hx c hc
    obtain ⟨j, hj⟩ := List.mem_iff_getElem?.mp hx
    obtain ⟨hj', hrun⟩ := hold j x c hj hc
    change Function.update s.shared.registry b.runID none c.runID = _ ∨ _
    rw [Function.update_of_ne hrun]
    exact h.kept x (List.mem_of_getElem? hj') c hc

theorem Entered.spawn (h : s.Entered) {i : Nat} {a : Spawn} (ok : Bool)
    (ha : s.spawns[i]? = some a) (hseparate : s.separate (.spawn i ok) = true) :
    Entered { s with
      shared := (a.advance s.shared ok).1, spawns := s.spawns.set i (a.advance s.shared ok).2 } := by
  rcases advance_registry s.shared ok a with ⟨hregistry, hcleared, hkilled, hlisted⟩ |
    ⟨b, rfl⟩ | ⟨b, rfl⟩
  · exact h.quiet ha hregistry hcleared hkilled hlisted
  · rw [separate, ha] at hseparate
    obtain ⟨hcalls, hstops⟩ := Bool.and_eq_true_iff.mp hseparate
    refine h.registers ha (fun a ha b' hb' => ?_) fun x hx t ht => ?_
    · have hall := List.all_eq_true.mp hcalls a ha
      rw [hb'] at hall
      exact bne_iff_ne.mp hall
    · have hall := List.all_eq_true.mp hstops x hx
      rw [ht] at hall
      exact bne_iff_ne.mp hall
  · exact h.unregisters ha

theorem Entered.answer (h : s.Entered) {i : Nat} {x : Stop} (ok : Bool)
    (hx : s.stops[i]? = some x) : Entered { s with
      shared := (x.advance s.shared ok).1, stops := s.stops.set i (x.advance s.shared ok).2 } := by
  have hmem := List.mem_of_getElem? hx
  have hanswered : ∀ {y : Stop}, y ∈ s.stops.set i .answered → y ∈ s.stops ∨ y = .answered :=
    fun hy => List.mem_or_eq_of_mem_set hy
  have haimed : ∀ y ∈ s.stops.set i .answered, ∀ runID id, y.target = some (runID, id) →
      ∀ a ∈ s.spawns, ∀ b, a.listed = some b → b.runID = runID → b.id = id := by
    intro y hy runID id hid
    rcases hanswered hy with hy | rfl
    · exact h.aimed y hy runID id hid
    · exact nomatch hid
  have hshot : ∀ runID id, .killed runID id ∈ s.stops.set i .answered → id ∈ s.shared.killed := by
    intro runID id hy
    rcases hanswered hy with hy | hy
    · exact h.shot runID id hy
    · exact nomatch hy
  cases x with
  | begun runID =>
      rw [Stop.advance]
      split
      · exact ⟨h.single, h.entry, h.kept, haimed, hshot, h.own⟩
      · next id hid =>
          refine ⟨h.single, h.entry, h.kept, fun y hy r id' hid' a ha b hb hrun => ?_,
            fun r id' hy => ?_, h.own⟩
          · rcases List.mem_or_eq_of_mem_set hy with hy | rfl
            · exact h.aimed y hy r id' hid' a ha b hb hrun
            · obtain ⟨rfl, rfl⟩ := Prod.mk.inj (Option.some.inj hid')
              exact h.id_eq ha hb (hrun ▸ hid)
          · rcases List.mem_or_eq_of_mem_set hy with hy | hy
            · exact h.shot r id' hy
            · exact nomatch hy
  | killing runID id =>
      rw [Stop.advance]
      split
      · refine ⟨h.single, h.entry, fun a ha b hb => ?_, fun y hy r id' hid' a ha b hb hrun => ?_,
          fun r id' hy => ?_, h.own⟩
        · exact (h.kept a ha b hb).imp_right (List.mem_cons_of_mem id)
        · rcases List.mem_or_eq_of_mem_set hy with hy | rfl
          · exact h.aimed y hy r id' hid' a ha b hb hrun
          · exact h.aimed _ hmem r id' hid' a ha b hb hrun
        · rcases List.mem_or_eq_of_mem_set hy with hy | hy
          · exact List.mem_cons_of_mem id (h.shot r id' hy)
          · obtain ⟨-, rfl⟩ := Stop.killed.inj hy
            exact List.mem_cons_self
      · exact ⟨h.single, h.entry, h.kept, haimed, hshot, h.own⟩
  | killed runID id =>
      refine ⟨h.single, fun r id' hid' => ?_, fun a ha b hb => ?_, haimed, hshot, h.own⟩
      · change Function.update s.shared.registry runID none r = some id' at hid'
        by_cases hrun : r = runID
        · rw [hrun, Function.update_self] at hid'
          exact nomatch hid'
        · rw [Function.update_of_ne hrun] at hid'
          exact h.entry r id' hid'
      · change Function.update s.shared.registry runID none b.runID = _ ∨ _
        by_cases hrun : b.runID = runID
        · -- the entry that goes is that of the container that was killed
          rw [h.aimed _ hmem runID id rfl a ha b hb hrun]
          exact Or.inr (h.shot runID id hmem)
        · rw [Function.update_of_ne hrun]
          exact h.kept a ha b hb
  | answered => exact ⟨h.single, h.entry, h.kept, haimed, hshot, h.own⟩

theorem Entered.step (h : s.Entered) (m : Move) (hseparate : s.separate m = true) :
    (s.step m).Entered := by
  cases m with
  | replenish =>
      rw [Manager.step]
      split
      · exact ⟨h.single, h.entry, h.kept, h.aimed, h.shot, h.own⟩
      · exact h
  | request runID =>
      have hlist : ∀ {x : Spawn} {b : Box}, x ∈ s.spawns ++ [.begun runID] → x.listed = some b →
          x ∈ s.spawns := by
        intro x b hx hb
        rcases List.mem_append.mp hx with hx | hx
        · exact hx
        · rw [List.mem_singleton.mp hx] at hb
          exact nomatch hb
      refine h.shrink (fun j x b hx hb => ?_) rfl h.own (fun r id hid => ?_) fun x hx b hb =>
        h.kept x (hlist hx hb) b hb
      · rcases getElem?_concat_cases hx with ⟨-, hx⟩ | ⟨-, rfl⟩
        · exact ⟨x, hx, hb⟩
        · exact nomatch hb
      · obtain ⟨x, hx, hb⟩ := h.entry r id hid
        exact ⟨x, List.mem_append_left _ hx, hb⟩
  | stop runID =>
      refine ⟨h.single, h.entry, h.kept, fun x hx => ?_, fun r id hx => ?_, h.own⟩
      · rcases List.mem_append.mp hx with hx | hx
        · exact h.aimed x hx
        · rw [List.mem_singleton.mp hx]
          exact fun _ _ hid => nomatch hid
      · rcases List.mem_append.mp hx with hx | hx
        · exact h.shot r id hx
        · exact nomatch List.mem_singleton.mp hx
  | spawn i ok =>
      rw [Manager.step]
      split
      · exact h
      · next a ha => exact h.spawn ok ha hseparate
  | answer i ok =>
      rw [Manager.step]
      split
      · exact h
      · next x hx => exact h.answer ok hx

/-! ## The end of a call -/

structure Finished (s : Manager) : Prop where
  logged : ∀ x ∈ s.shared.registered,
    ∃ a ∈ s.spawns, ∃ b, a.late = some b ∧ b.runID = x.1 ∧ b.id = x.2
  removed : ∀ b, .removed b ∈ s.spawns → b.id ∈ s.shared.removed
  returned : ∀ b, .returned (some b) ∈ s.spawns →
    b.id ∈ s.shared.removed ∧ (b.warm = true → b.id ∈ s.shared.deleted)

theorem Finished.set (h : s.Finished) {shared : Shared} {i : Nat} {a a' : Spawn}
    (ha : s.spawns[i]? = some a) (hlate : ∀ b, a.late = some b → a'.late = some b)
    (hregistered : ∀ x ∈ shared.registered, x ∈ s.shared.registered ∨
      ∃ b, a'.late = some b ∧ b.runID = x.1 ∧ b.id = x.2)
    (hremoved : s.shared.removed ⊆ shared.removed) (hdeleted : s.shared.deleted ⊆ shared.deleted)
    (hremove : ∀ b, a' = .removed b → b.id ∈ shared.removed)
    (hreturn : ∀ b, a' = .returned (some b) →
      b.id ∈ shared.removed ∧ (b.warm = true → b.id ∈ shared.deleted)) :
    Finished { s with shared, spawns := s.spawns.set i a' } where
  logged x hx := by
    have hself : a' ∈ s.spawns.set i a' := List.mem_set (List.getElem?_eq_some_iff.mp ha).1 a'
    rcases hregistered x hx with hx | ⟨b, hb, hrun⟩
    · obtain ⟨y, hy, b, hb, hrun⟩ := h.logged x hx
      obtain ⟨j, hj⟩ := List.mem_iff_getElem?.mp hy
      by_cases hji : j = i
      · subst hji
        obtain rfl := Option.some.inj (hj.symm.trans ha)
        exact ⟨a', hself, b, hlate b hb, hrun⟩
      · refine ⟨y, List.mem_iff_getElem?.mpr ⟨j, ?_⟩, b, hb, hrun⟩
        rw [List.getElem?_set_ne (Ne.symm hji)]
        exact hj
    · exact ⟨a', hself, b, hb, hrun⟩
  removed b hb := by
    rcases List.mem_or_eq_of_mem_set hb with hb | hb
    · exact hremoved (h.removed b hb)
    · exact hremove b hb.symm
  returned b hb := by
    rcases List.mem_or_eq_of_mem_set hb with hb | hb
    · obtain ⟨hin, hwarm⟩ := h.returned b hb
      exact ⟨hremoved hin, fun hw => hdeleted (hwarm hw)⟩
    · exact hreturn b hb.symm

theorem Finished.spawn (h : s.Finished) {i : Nat} {ok : Bool} {a : Spawn}
    (ha : s.spawns[i]? = some a) (hholds : s.holdsOn (.spawn i ok) = true) :
    Finished { s with
      shared := (a.advance s.shared ok).1, spawns := s.spawns.set i (a.advance s.shared ok).2 } := by
  have hmem := List.mem_of_getElem? ha
  have hall := fun (x : List Nat) => List.Subset.refl x
  rw [holdsOn, ha] at hholds
  cases a with
  | begun runID =>
      rw [Spawn.advance]
      split
      · split
        · exact h.set ha nofun (fun x hx => Or.inl hx) (hall _) (hall _) nofun nofun
        · exact h.set ha nofun (fun x hx => Or.inl hx) (hall _) (hall _) nofun nofun
      · exact h.set ha nofun (fun x hx => Or.inl hx) (hall _) (hall _) nofun nofun
  | creating runID =>
      rw [Spawn.advance]
      split
      · exact h.set ha nofun (fun x hx => Or.inl hx) (hall _) (hall _) nofun nofun
      · exact h.set ha nofun (fun x hx => Or.inl hx) (hall _) (hall _) nofun nofun
  | claimed b | copied b | obtained b =>
      obtain rfl : ok = true := hholds
      exact h.set ha nofun (fun x hx => Or.inl hx) (hall _) (hall _) nofun nofun
  | started b =>
      refine h.set ha nofun (fun x hx => ?_) (hall _) (hall _) nofun nofun
      rcases List.mem_cons.mp hx with rfl | hx
      · exact Or.inr ⟨b, rfl, rfl, rfl⟩
      · exact Or.inl hx
  | waiting b | leaving b =>
      exact h.set ha (fun _ hb => hb) (fun x hx => Or.inl hx) (hall _) (hall _) nofun nofun
  | unregistered b =>
      refine h.set ha (fun _ hb => hb) (fun x hx => Or.inl hx) (List.subset_cons_self _ _) (hall _)
        (fun c hc => ?_) nofun
      obtain rfl := Spawn.removed.inj hc
      exact List.mem_cons_self
  | removed b =>
      refine h.set ha (fun _ hb => hb) (fun x hx => Or.inl hx) (hall _) ?_ nofun fun c hc => ?_
      · change s.shared.deleted ⊆ if b.warm then b.id :: s.shared.deleted else s.shared.deleted
        split
        · exact List.subset_cons_self _ _
        · exact hall _
      · obtain rfl := Option.some.inj (Spawn.returned.inj hc)
        refine ⟨h.removed b hmem, fun hwarm => ?_⟩
        change b.id ∈ if b.warm then b.id :: s.shared.deleted else s.shared.deleted
        rw [if_pos hwarm]
        exact List.mem_cons_self
  | returned b =>
      refine h.set ha (fun _ hb => hb) (fun x hx => Or.inl hx) (hall _) (hall _) nofun
        fun c hc => ?_
      obtain rfl := Spawn.returned.inj hc
      exact h.returned c hmem

theorem Stop.advance_kept (shared : Shared) (ok : Bool) (x : Stop) :
    (x.advance shared ok).1.registered = shared.registered ∧
      (x.advance shared ok).1.removed = shared.removed ∧
      (x.advance shared ok).1.deleted = shared.deleted := by
  cases x with
  | begun | killing =>
      rw [Stop.advance]
      split <;> exact ⟨rfl, rfl, rfl⟩
  | killed | answered => exact ⟨rfl, rfl, rfl⟩

theorem Finished.step (h : s.Finished) (m : Move) (hholds : s.holdsOn m = true) :
    (s.step m).Finished := by
  cases m with
  | replenish =>
      rw [Manager.step]
      split
      · exact ⟨h.logged, h.removed, h.returned⟩
      · exact h
  | request runID =>
      have hold : ∀ {a : Spawn}, a ∈ s.spawns ++ [.begun runID] → a ∈ s.spawns ∨ a = .begun runID :=
        fun ha => (List.mem_append.mp ha).imp_right List.mem_singleton.mp
      refine ⟨fun x hx => ?_, fun b hb => ?_, fun b hb => ?_⟩
      · obtain ⟨a, ha, hb⟩ := h.logged x hx
        exact ⟨a, List.mem_append_left _ ha, hb⟩
      · rcases hold hb with hb | hb
        · exact h.removed b hb
        · exact nomatch hb
      · rcases hold hb with hb | hb
        · exact h.returned b hb
        · exact nomatch hb
  | stop runID => exact ⟨h.logged, h.removed, h.returned⟩
  | spawn i ok =>
      rw [Manager.step]
      split
      · exact h
      · next a ha => exact h.spawn ha hholds
  | answer i ok =>
      rw [Manager.step]
      split
      · exact h
      · next x hx =>
          obtain ⟨hregistered, hremoved, hdeleted⟩ := Stop.advance_kept s.shared ok x
          exact ⟨hregistered ▸ h.logged, hremoved ▸ h.removed, hremoved ▸ hdeleted ▸ h.returned⟩

/-! ## Whole runs -/

/-- What runs without failures in hand and without overlapping calls for one run keep. -/
structure Ordered (s : Manager) : Prop where
  distinct : s.Distinct
  entered : s.Entered
  finished : s.Finished

theorem ordered_init : init.Ordered where
  distinct := ⟨fun _ _ _ _ _ _ h => (nomatch h), fun _ h => absurd h List.not_mem_nil,
    fun _ h => absurd h List.not_mem_nil, List.nodup_nil⟩
  entered := ⟨fun _ _ _ _ _ _ h => (nomatch h), fun _ _ h => (nomatch h),
    fun _ h => absurd h List.not_mem_nil, fun _ h => absurd h List.not_mem_nil,
    fun _ _ h => absurd h List.not_mem_nil, fun _ _ h => absurd h List.not_mem_nil⟩
  finished := ⟨fun _ h => absurd h List.not_mem_nil, fun _ h => absurd h List.not_mem_nil,
    fun _ h => absurd h List.not_mem_nil⟩

theorem Ordered.step (h : s.Ordered) (m : Move)
    (hadm : (s.holdsOn m && s.separate m) = true) : (s.step m).Ordered := by
  obtain ⟨hholds, hseparate⟩ := Bool.and_eq_true_iff.mp hadm
  exact ⟨h.distinct.step m, h.entered.step m hseparate, h.finished.step m hholds⟩

theorem Ordered.tended (h : s.Ordered) : s.Tended where
  found := by
    rintro ⟨runID, id⟩ hx - hout
    obtain ⟨a, ha, b, hb, rfl, rfl⟩ := h.finished.logged _ hx
    cases a with
    | waiting b' =>
        obtain rfl := Option.some.inj hb
        rcases h.entered.kept _ ha _ rfl with hfound | hkilled
        · exact Or.inl hfound
        · exact Or.inr (Or.inl hkilled)
    | leaving b' | unregistered b' =>
        obtain rfl := Option.some.inj hb
        exact Or.inr (Or.inr ⟨_, ha, _, rfl, rfl, rfl⟩)
    | removed b' =>
        obtain rfl := Option.some.inj hb
        exact absurd (h.finished.removed _ ha) hout
    | returned o =>
        cases o with
        | none => exact nomatch hb
        | some b' =>
            obtain rfl := Option.some.inj hb
            exact absurd (h.finished.returned _ ha).1 hout
    | begun | creating | claimed | copied | obtained | started => exact nomatch hb
  released b hb := by
    obtain ⟨hremoved, hdeleted⟩ := h.finished.returned b hb
    refine ⟨hremoved, hdeleted, fun hentry => ?_, fun id hid => h.entered.own _ _ hid⟩
    obtain ⟨a, ha, b', hb', -, hid⟩ := h.entered.entry _ _ hentry
    obtain ⟨i, hi⟩ := List.mem_iff_getElem?.mp hb
    obtain ⟨j, hj⟩ := List.mem_iff_getElem?.mp ha
    have hbox : a.box = some b' := by
      cases a with
      | waiting | leaving => exact hb'
      | begun | creating | claimed | copied | obtained | started | unregistered | removed
        | returned => exact nomatch hb'
    obtain rfl := h.distinct.unique i j _ a b b' hi hj rfl hbox hid.symm
    obtain rfl := Option.some.inj (hi.symm.trans hj)
    exact nomatch hb'

/-- No container is orphaned as long as no call fails with a container in hand, and

* nothing is taken out of the registry and a run has one registered container at a time; or
* but for containers that a stop request has killed or whose clean-up has begun, no two calls
  for one run overlap while one of them is registered or a stop request for it is under way. -/
theorem no_orphans (moves : List Move) :
    (Along step (fun s m => (s.holdsOn m && s.undisturbed m) = true) init moves →
      (run moves).Kept) ∧
    (Along step (fun s m => (s.holdsOn m && s.separate m) = true) init moves →
      (run moves).Tended) := by
  constructor
  · intro h
    refine (foldl_inv Steady (fun s m hs hadm => hs.step m hadm) moves init ?_ h).kept
    exact ⟨fun _ h => absurd h List.not_mem_nil, fun _ h => absurd h List.not_mem_nil, rfl⟩
  · intro h
    refine (foldl_inv Ordered (fun s m hs hadm => hs.step m hadm) moves init ?_ h).tended
    exact ordered_init

/-- A warm container is claimed, started and registered. -/
def warmStart : List Move :=
  [.replenish, .request "run_68c5f7f7_1780000000000", .spawn 0 true, .spawn 0 true, .spawn 0 true,
    .spawn 0 true, .spawn 0 true]

/-- A stop request kills it, and the clean-up runs to its end. -/
def stopped : List Move :=
  [.stop "run_68c5f7f7_1780000000000", .answer 0 true, .answer 0 true, .answer 0 true,
    .spawn 0 true, .spawn 0 true, .spawn 0 true, .spawn 0 true]

theorem no_orphans_warm_start :
    (run warmStart).Kept ∧ (run (warmStart ++ stopped)).Tended :=
  ⟨(no_orphans warmStart).1 (by decide +kernel),
    (no_orphans (warmStart ++ stopped)).2 (by decide +kernel)⟩

/-- A container that does not start is kept, and its host directory with it. -/
theorem failed_start_orphans : ¬ (run [.replenish, .request "run_68c5f7f7_1780000000000",
    .spawn 0 true, .spawn 0 true, .spawn 0 true, .spawn 0 false]).Kept := by
  intro h
  have hreleased := h.released ⟨"run_68c5f7f7_1780000000000", 0, true⟩ (by decide +kernel)
  have hkept : 0 ∉ (run [.replenish, .request "run_68c5f7f7_1780000000000", .spawn 0 true,
      .spawn 0 true, .spawn 0 true, .spawn 0 false]).shared.removed := by
    decide +kernel
  exact hkept hreleased.removed

end Manager

end VidhiArena.SandboxManager
