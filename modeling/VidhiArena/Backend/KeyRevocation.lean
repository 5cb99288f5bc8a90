import VidhiArena.Backend.ApiKeys
import VidhiArena.Foundation.Processes

/-!
# Revoked keys

A new key replaces the rows of its user, but the cache is asked to forget the hash of the
new key, not those of the old ones: a key that was cached goes on authenticating until its
entry expires. The same happens when a lookup has read the old row and not yet written the
cache, and two provisionings that overlap leave two rows.

Where none of this is the case at the `DELETE`, nothing names the user any more when the new
row comes, and what the table, the cache and the lookups say of a user is one hash at any
time (`Sole`); a key that is not named is never named again (`Dead`).
-/

namespace VidhiArena.Backend

open VidhiArena.Foundation

namespace AuthState

variable {Key Hash : Type} {hashKey : Key → Hash} {s : AuthState Key Hash}

/-! ## One hash for each user -/

/-- What is said of a user is one hash: none while its provisioning has stored no key, then
the hash of that key. -/
structure Sole (hashKey : Key → Hash) (s : AuthState Key Hash) : Prop where
  one : ∀ {u : String} {h h' : Hash}, s.Names hashKey u h → s.Names hashKey u h' → h = h'
  own : ∀ {p : Nat} {a : Provision Key} {u : String} {h : Hash}, s.provisions[p]? = some a →
    a.inFlight = some u → s.Names hashKey u h → ∃ k, a.storedKey = some k ∧ hashKey k = h
  alone : ∀ {p q : Nat} {a b : Provision Key} {u : String}, s.provisions[p]? = some a →
    s.provisions[q]? = some b → a.inFlight = some u → b.inFlight = some u → p = q

namespace Sole

variable {s' : AuthState Key Hash} {p : Nat} {a a' : Provision Key}

theorem init : Sole hashKey (AuthState.init : AuthState Key Hash) where
  one h := by rcases h with h | ⟨e, he, -⟩ | ⟨k, hk, -⟩ <;> contradiction
  own h := nomatch h
  alone h := nomatch h

theorem of_same (hs : Sole hashKey s) (hprov : s'.provisions = s.provisions)
    (hnames : ∀ u h, s'.Names hashKey u h → s.Names hashKey u h) : Sole hashKey s' where
  one h h' := hs.one (hnames _ _ h) (hnames _ _ h')
  own hp hu h := hs.own (hprov ▸ hp) hu (hnames _ _ h)
  alone hp hq := hs.alone (hprov ▸ hp) (hprov ▸ hq)

theorem of_requested (hs : Sole hashKey s) {v : String}
    (hprov : s'.provisions = s.provisions ++ [.requested v])
    (hnames : ∀ u h, s'.Names hashKey u h → s.Names hashKey u h) : Sole hashKey s' := by
  -- a request that has only arrived is not in flight
  have hold : ∀ {q : Nat} {b : Provision Key} {u : String}, s'.provisions[q]? = some b →
      b.inFlight = some u → s.provisions[q]? = some b := by
    intro q b u hq hu
    rw [hprov, List.getElem?_append] at hq
    split at hq
    · exact hq
    · obtain rfl := List.mem_singleton.mp (List.mem_of_getElem? hq)
      exact nomatch hu
  exact
    { one := fun h h' => hs.one (hnames _ _ h) (hnames _ _ h')
      own := fun hp hu h => hs.own (hold hp hu) hu (hnames _ _ h)
      alone := fun hp hq hu hv => hs.alone (hold hp hu) (hold hq hv) hu hv }

/-- A provisioning that advances, and what it has to show: that the others of its user are not
in flight, and that what is said of its user is its key. -/
theorem of_set (hs : Sole hashKey s) (hprov : s'.provisions = s.provisions.set p a')
    (hone : ∀ {u h h'}, s'.Names hashKey u h → s'.Names hashKey u h' → h = h')
    (hown : ∀ {u h}, a'.inFlight = some u → s'.Names hashKey u h →
      ∃ k, a'.storedKey = some k ∧ hashKey k = h)
    (hrest : ∀ {q b u}, q ≠ p → s.provisions[q]? = some b → b.inFlight = some u →
      a'.inFlight ≠ some u ∧ ∀ h, s'.Names hashKey u h → s.Names hashKey u h) :
    Sole hashKey s' where
  one := hone
  own {q b u h} hq hu h' := by
    rw [hprov] at hq
    rcases getElem?_set_cases hq with ⟨-, rfl⟩ | ⟨hne, hq⟩
    · exact hown hu h'
    · exact hs.own hq hu ((hrest hne hq hu).2 h h')
  alone {q r b c u} hq hr hu hv := by
    rw [hprov] at hq hr
    rcases getElem?_set_cases hq with ⟨rfl, rfl⟩ | ⟨hne, hold⟩
    · rcases getElem?_set_cases hr with ⟨rfl, -⟩ | ⟨hne, hr⟩
      · rfl
      · exact absurd hu (hrest hne hr hv).1
    · rcases getElem?_set_cases hr with ⟨rfl, rfl⟩ | ⟨-, hr'⟩
      · exact absurd hv (hrest hne hold hu).1
      · exact hs.alone hold hr' hu hv

theorem of_advance (hs : Sole hashKey s) (hp : s.provisions[p]? = some a)
    (hprov : s'.provisions = s.provisions.set p a')
    (hnames : ∀ u h, s'.Names hashKey u h → s.Names hashKey u h)
    (hslate : ∀ u, a'.inFlight = some u → a.inFlight = some u ∧ a.storedKey = a'.storedKey ∨
      (∀ h, ¬ s'.Names hashKey u h) ∧ ∀ b ∈ s.provisions, b.inFlight ≠ some u) :
    Sole hashKey s' := by
  refine hs.of_set hprov (fun h h' => hs.one (hnames _ _ h) (hnames _ _ h')) ?_ ?_
  · intro u h hu h'
    rcases hslate u hu with ⟨hu, hkey⟩ | ⟨hnone, -⟩
    · exact hkey ▸ hs.own hp hu (hnames u h h')
    · exact absurd h' (hnone h)
  · intro q b u hne hq hu
    refine ⟨fun hu' => ?_, hnames u⟩
    rcases hslate u hu' with ⟨hu', -⟩ | ⟨-, hnone⟩
    · exact hne (hs.alone hq hp hu hu')
    · exact hnone b (List.mem_of_getElem? hq) hu

end Sole

/-! ## A key that nothing names -/

/-- Every key that is held or was handed out has been drawn. -/
structure Recorded (s : AuthState Key Hash) : Prop where
  held : ∀ a ∈ s.provisions, ∀ k, a.plaintext = some k → k ∈ s.drawn
  handed : ∀ entry ∈ s.issued, entry.2 ∈ s.drawn

/-- Nothing names `u` for the key, and it is not about to be stored. -/
structure Dead (hashKey : Key → Hash) (s : AuthState Key Hash) (u : String) (k : Key) : Prop where
  spent : k ∈ s.drawn
  unnamed : ¬ s.Names hashKey u (hashKey k)
  unheld : .generated u k ∉ s.provisions

/-- A key handed out before the one that is about to be handed out is dead. -/
theorem dead_of_respond (hinj : Function.Injective hashKey) (hs : Sole hashKey s)
    (hr : s.Recorded) {p : Nat} {u : String} {k k' : Key}
    (hp : s.provisions[p]? = some (.invalidated u k)) (hissued : (u, k') ∈ s.issued)
    (hne : k' ≠ k) : Dead hashKey s u k' where
  spent := hr.handed _ hissued
  unnamed hnames := by
    obtain ⟨k₀, hk₀, hhash⟩ := hs.own hp rfl hnames
    cases hk₀
    exact hne (hinj hhash).symm
  unheld hmem := by
    obtain ⟨q, hq⟩ := List.mem_iff_getElem?.mp hmem
    obtain rfl := hs.alone hp hq rfl rfl
    rw [hp] at hq
    exact nomatch hq

variable [DecidableEq Hash]

/-! ## What a step does to the lookups -/

/-- What a lookup may come to say in one step. -/
def Heard (hashKey : Key → Hash) (s : AuthState Key Hash) : Lookup Key → Prop
  | .found rawKey u => ⟨u, hashKey rawKey⟩ ∈ s.apiKeys
  | .returned rawKey (some u) => s.Names hashKey u (hashKey rawKey)
  | _ => True

theorem heard_cacheRead (rawKey : Key) : s.Heard hashKey (s.cacheRead hashKey rawKey) := by
  cases hread : s.cacheRead hashKey rawKey with
  | begun | missed => trivial
  | found k u => exact absurd hread cacheRead_ne_found
  | returned k o =>
      cases o with
      | none => trivial
      | some u =>
          obtain ⟨rfl, hnames⟩ := cacheRead_returned hread
          exact hnames

theorem heard_tableRead (rawKey : Key) : s.Heard hashKey (s.tableRead hashKey rawKey) := by
  cases hread : s.tableRead hashKey rawKey with
  | begun | missed => trivial
  | found k u =>
      obtain ⟨rfl, hrow⟩ := tableRead_found hread
      exact hrow
  | returned k o =>
      cases o with
      | none => trivial
      | some u => exact absurd hread tableRead_ne_returned

/-- The lookups from the `n`-th on: what they say is old, or was heard in this step. -/
theorem lookups_step {n : Nat} (hn : n ≤ s.lookups.length) (m : Move Key) {x : Lookup Key}
    (h : x ∈ (s.step hashKey m).lookups.drop n) : x ∈ s.lookups.drop n ∨ s.Heard hashKey x := by
  cases m with
  | wait | provision => exact Or.inl h
  | lookupKey rawKey =>
      rw [step, List.drop_append_of_le_length hn, List.mem_append, List.mem_singleton] at h
      rcases h with h | rfl
      · exact Or.inl h
      · exact Or.inr trivial
  | readCache l =>
      rw [step] at h
      split at h
      · next rawKey _ =>
          rcases mem_drop_set h with rfl | h
          · exact Or.inr (heard_cacheRead rawKey)
          · exact Or.inl h
      · exact Or.inl h
  | readTable l ok =>
      rw [step] at h
      split at h
      · next rawKey _ =>
          rcases mem_drop_set h with rfl | h
          · cases ok with
            | false => exact Or.inr trivial
            | true => exact Or.inr (heard_tableRead rawKey)
          · exact Or.inl h
      · exact Or.inl h
  | writeCache l =>
      rw [step] at h
      split at h
      · next rawKey u hl =>
          rcases mem_drop_set h with rfl | h
          · exact Or.inr (Or.inr (Or.inr ⟨rawKey, List.mem_of_getElem? hl, rfl⟩))
          · exact Or.inl h
      · exact Or.inl h
  | deleteRows | generateKey | invalidateCache | respond =>
      rw [step] at h
      split at h <;> exact Or.inl h
  | insertRow =>
      rw [step] at h
      split at h
      · split at h <;> exact Or.inl h
      · exact Or.inl h

theorem length_lookups_step (m : Move Key) :
    s.lookups.length ≤ (s.step hashKey m).lookups.length := by
  cases m with
  | wait | provision => exact le_rfl
  | lookupKey =>
      rw [step, List.length_append]
      exact Nat.le_add_right _ _
  | insertRow =>
      rw [step]
      split
      · split <;> exact le_rfl
      · exact le_rfl
  | readCache | readTable | writeCache =>
      rw [step]
      split
      · exact (List.length_set ..).ge
      · exact le_rfl
  | deleteRows | generateKey | invalidateCache | respond =>
      rw [step]
      split <;> exact le_rfl

/-! ## Where a step lets a key be found -/

theorem now_le_step (m : Move Key) : s.now ≤ (s.step hashKey m).now := by
  cases m with
  | wait d => exact Nat.le_add_right s.now d
  | lookupKey | provision => exact le_rfl
  | insertRow =>
      rw [step]
      split
      · split <;> exact le_rfl
      · exact le_rfl
  | readCache | readTable | writeCache | deleteRows | generateKey | invalidateCache | respond =>
      rw [step]
      split <;> exact le_rfl

theorem apiKeys_step (m : Move Key) {r : ApiKeyRow Hash} (h : r ∈ (s.step hashKey m).apiKeys) :
    r ∈ s.apiKeys ∨ ∃ p k, m = .insertRow p true ∧
      s.provisions[p]? = some (.generated r.userID k) ∧ hashKey k = r.keyHash := by
  cases m with
  | wait | lookupKey | provision => exact Or.inl h
  | readCache | readTable | writeCache | generateKey | invalidateCache | respond =>
      rw [step] at h
      split at h <;> exact Or.inl h
  | deleteRows p ok =>
      rw [step] at h
      split at h
      · cases ok with
        | false => exact Or.inl h
        | true => exact Or.inl (List.mem_filter.mp h).1
      · exact Or.inl h
  | insertRow p ok =>
      rw [step] at h
      split at h
      · next u k hp =>
          split at h
          · next hok =>
              rcases List.mem_append.mp h with h | h
              · exact Or.inl h
              · obtain rfl := List.mem_singleton.mp h
                exact Or.inr ⟨p, k, congrArg _ hok.1, hp, rfl⟩
          · exact Or.inl h
      · exact Or.inl h

theorem keyCache_step (m : Move Key) {e : CachedKey Hash} (h : e ∈ (s.step hashKey m).keyCache) :
    e ∈ s.keyCache ∨ s.Names hashKey e.userID e.keyHash := by
  cases m with
  | wait | lookupKey | provision => exact Or.inl h
  | readCache | readTable | deleteRows | generateKey | respond =>
      rw [step] at h
      split at h <;> exact Or.inl h
  | insertRow =>
      rw [step] at h
      split at h
      · split at h <;> exact Or.inl h
      · exact Or.inl h
  | invalidateCache =>
      rw [step] at h
      split at h
      · exact Or.inl (List.mem_filter.mp h).1
      · exact Or.inl h
  | writeCache l =>
      rw [step] at h
      split at h
      · next k u hl =>
          rcases List.mem_cons.mp h with rfl | h
          · exact Or.inr (Or.inr (Or.inr ⟨k, List.mem_of_getElem? hl, rfl⟩))
          · exact Or.inl (List.mem_filter.mp h).1
      · exact Or.inl h

theorem names_step (m : Move Key) {u : String} {h : Hash}
    (hnames : (s.step hashKey m).Names hashKey u h) : s.Names hashKey u h ∨
      ∃ p k, m = .insertRow p true ∧ s.provisions[p]? = some (.generated u k) ∧ hashKey k = h := by
  rcases hnames with hrow | ⟨e, he, rfl, rfl, hlt⟩ | ⟨k, hk, rfl⟩
  · rcases apiKeys_step m hrow with hrow | hnew
    · exact Or.inl (Or.inl hrow)
    · exact Or.inr hnew
  · rcases keyCache_step m he with he | he
    · exact Or.inl (Or.inr (Or.inl ⟨e, he, rfl, rfl, (now_le_step m).trans_lt hlt⟩))
    · exact Or.inl he
  · rcases lookups_step (n := 0) (Nat.zero_le _) m hk with hk | hk
    · exact Or.inl (Or.inr (Or.inr ⟨k, hk, rfl⟩))
    · exact Or.inl (Or.inl hk)

/-! ## What a step does to the provisionings -/

theorem drawn_step (m : Move Key) {k : Key} (h : k ∈ s.drawn) : k ∈ (s.step hashKey m).drawn := by
  cases m with
  | wait | lookupKey | provision => exact h
  | insertRow =>
      rw [step]
      split
      · split <;> exact h
      · exact h
  | generateKey =>
      rw [step]
      split
      · exact List.mem_cons_of_mem _ h
      · exact h
  | readCache | readTable | writeCache | deleteRows | invalidateCache | respond =>
      rw [step]
      split <;> exact h

/-- How a move advances the provisioning at `p`. -/
inductive Advance : Move Key → Nat → Provision Key → Provision Key → Prop
  | revoke {p : Nat} {ok : Bool} {u : String} :
      Advance (.deleteRows p ok) p (.requested u) (.revoked u)
  | draw {p : Nat} {u : String} {k : Key} :
      Advance (.generateKey p k) p (.revoked u) (.generated u k)
  | store {p : Nat} {u : String} {k : Key} :
      Advance (.insertRow p true) p (.generated u k) (.stored u k)
  | refuse {p : Nat} {ok : Bool} {u : String} {k : Key} :
      Advance (.insertRow p ok) p (.generated u k) (.failed u)
  | invalidate {p : Nat} {u : String} {k : Key} :
      Advance (.invalidateCache p) p (.stored u k) (.invalidated u k)
  | succeed {p : Nat} {u : String} {k : Key} :
      Advance (.respond p) p (.invalidated u k) (.succeeded u k)

theorem provisions_step (hashKey : Key → Hash) (s : AuthState Key Hash) (m : Move Key) :
    (s.step hashKey m).provisions = s.provisions ∨
    (∃ u, (s.step hashKey m).provisions = s.provisions ++ [.requested u]) ∨
    ∃ p a a', s.provisions[p]? = some a ∧ Advance m p a a' ∧
      (s.step hashKey m).provisions = s.provisions.set p a' := by
  cases m with
  | wait | lookupKey => exact Or.inl rfl
  | provision u => exact Or.inr (Or.inl ⟨u, rfl⟩)
  | readCache | readTable | writeCache =>
      rw [step]
      split <;> exact Or.inl rfl
  | deleteRows p ok =>
      rw [step]
      split
      · next u hp => exact Or.inr (Or.inr ⟨p, _, _, hp, .revoke, rfl⟩)
      · exact Or.inl rfl
  | generateKey p k =>
      rw [step]
      split
      · next u hp => exact Or.inr (Or.inr ⟨p, _, _, hp, .draw, rfl⟩)
      · exact Or.inl rfl
  | insertRow p ok =>
      rw [step]
      split
      · next u k hp =>
          split
          · next hok =>
              obtain rfl := hok.1
              exact Or.inr (Or.inr ⟨p, _, _, hp, .store, rfl⟩)
          · exact Or.inr (Or.inr ⟨p, _, _, hp, .refuse, rfl⟩)
      · exact Or.inl rfl
  | invalidateCache p =>
      rw [step]
      split
      · next u k hp => exact Or.inr (Or.inr ⟨p, _, _, hp, .invalidate, rfl⟩)
      · exact Or.inl rfl
  | respond p =>
      rw [step]
      split
      · next u k hp => exact Or.inr (Or.inr ⟨p, _, _, hp, .succeed, rfl⟩)
      · exact Or.inl rfl

theorem issued_step (m : Move Key) {entry : String × Key}
    (h : entry ∈ (s.step hashKey m).issued) : entry ∈ s.issued ∨
      ∃ p : Nat, s.provisions[p]? = some (.invalidated entry.1 entry.2) := by
  cases m with
  | wait | lookupKey | provision => exact Or.inl h
  | insertRow =>
      rw [step] at h
      split at h
      · split at h <;> exact Or.inl h
      · exact Or.inl h
  | respond p =>
      rw [step] at h
      split at h
      · next u k hp =>
          rcases List.mem_cons.mp h with rfl | h
          · exact Or.inr ⟨p, hp⟩
          · exact Or.inl h
      · exact Or.inl h
  | readCache | readTable | writeCache | deleteRows | generateKey | invalidateCache =>
      rw [step] at h
      split at h <;> exact Or.inl h

theorem Recorded.step (hr : s.Recorded) (m : Move Key) : (s.step hashKey m).Recorded where
  held a ha k hk := by
    rcases provisions_step hashKey s m with
      hprov | ⟨v, hprov⟩ | ⟨p, b, b', hp, hadv, hprov⟩
    · exact drawn_step m (hr.held a (hprov ▸ ha) k hk)
    · rw [hprov, List.mem_append, List.mem_singleton] at ha
      rcases ha with ha | rfl
      · exact drawn_step m (hr.held a ha k hk)
      · exact nomatch hk
    · rw [hprov] at ha
      rcases List.mem_or_eq_of_mem_set ha with ha | rfl
      · exact drawn_step m (hr.held a ha k hk)
      · have hb := hr.held b (List.mem_of_getElem? hp) k
        cases hadv with
        | revoke | refuse => exact nomatch hk
        | draw =>
            cases hk
            rw [AuthState.step, hp]
            exact List.mem_cons_self
        | store | invalidate | succeed => exact drawn_step _ (hb hk)
  handed entry hentry := by
    rcases issued_step m hentry with hold | ⟨p, hp⟩
    · exact drawn_step m (hr.handed entry hold)
    · exact drawn_step m (hr.held _ (List.mem_of_getElem? hp) entry.2 rfl)

theorem recorded_run (moves : List (Move Key)) : (run hashKey moves).Recorded :=
  List.foldlRecOn (motive := Recorded) moves (step hashKey) ⟨nofun, nofun⟩
    fun _ hr m _ => hr.step m

/-- The step that stores a key: until now nothing named the user. -/
theorem Sole.insertRow (hs : Sole hashKey s) {p : Nat} {u : String} {k : Key}
    (hp : s.provisions[p]? = some (.generated u k)) :
    Sole hashKey (s.step hashKey (.insertRow p true)) := by
  have hnone : ∀ h, ¬ s.Names hashKey u h := by
    intro h hnames
    obtain ⟨k', hk', -⟩ := hs.own hp rfl hnames
    exact nomatch hk'
  -- after the step the user may have the new hash, the others have what they had
  have hnames : ∀ {v h}, (s.step hashKey (.insertRow p true)).Names hashKey v h →
      s.Names hashKey v h ∨ v = u ∧ hashKey k = h := by
    intro v h hv
    rcases names_step _ hv with hv | ⟨q, k', hm, hq, hk'⟩
    · exact Or.inl hv
    · cases hm
      rw [hp] at hq
      cases hq
      exact Or.inr ⟨rfl, hk'⟩
  have hone : ∀ {v h h'}, (s.step hashKey (.insertRow p true)).Names hashKey v h →
      (s.step hashKey (.insertRow p true)).Names hashKey v h' → h = h' := by
    intro v h h' hv hv'
    rcases hnames hv with hv | ⟨rfl, rfl⟩
    · rcases hnames hv' with hv' | ⟨rfl, -⟩
      · exact hs.one hv hv'
      · exact absurd hv (hnone h)
    · rcases hnames hv' with hv' | ⟨-, rfl⟩
      · exact absurd hv' (hnone h')
      · rfl
  obtain ⟨a', ha', hprov⟩ : ∃ a', (a' = .stored u k ∨ a' = .failed u) ∧
      (s.step hashKey (.insertRow p true)).provisions = s.provisions.set p a' := by
    rw [AuthState.step, hp]
    dsimp only
    split
    · exact ⟨_, Or.inl rfl, rfl⟩
    · exact ⟨_, Or.inr rfl, rfl⟩
  refine hs.of_set hprov hone ?_ ?_
  · intro v h hv hnew
    rcases ha' with rfl | rfl
    · cases hv
      exact ⟨k, rfl, ((hnames hnew).resolve_left (hnone h)).2⟩
    · exact nomatch hv
  · intro q b v hne hq hv
    have hvu : v ≠ u := by
      rintro rfl
      exact hne (hs.alone hq hp hv rfl)
    refine ⟨?_, fun h hnew => (hnames hnew).resolve_right fun hu => hvu hu.1⟩
    rcases ha' with rfl | rfl
    · exact fun hu => hvu (Option.some.inj hu).symm
    · exact nofun

/-! ## Provisionings that find a clean slate -/

variable [DecidableEq Key]

/-- The rows are deleted while no entry of the cache that is still good names the user, no
lookup is about to write one, and no other provisioning of the user is under way; and a drawn
key is new. -/
def clean (s : AuthState Key Hash) : Move Key → Bool
  | .deleteRows p ok =>
      match s.provisions[p]? with
      | some (.requested u) =>
          ok && s.keyCache.all (fun e => e.userID ≠ u || e.expiresAt ≤ s.now) &&
            s.lookups.all (fun x => x.holds ≠ some u) &&
            s.provisions.all fun a => a.inFlight ≠ some u
      | _ => true
  | .generateKey _ k => k ∉ s.drawn
  | _ => true

theorem unnamed_of_clean {p : Nat} {ok : Bool} {u : String}
    (hp : s.provisions[p]? = some (.requested u)) (h : s.clean (.deleteRows p ok) = true) :
    (∀ h, ¬ (s.step hashKey (.deleteRows p ok)).Names hashKey u h) ∧
      ∀ a ∈ s.provisions, a.inFlight ≠ some u := by
  simp only [clean, hp, Bool.and_eq_true, List.all_eq_true, Bool.or_eq_true,
    decide_eq_true_eq] at h
  obtain ⟨⟨⟨rfl, hcache⟩, hlookups⟩, hflight⟩ := h
  refine ⟨fun h hnames => ?_, hflight⟩
  rw [step, hp] at hnames
  rcases hnames with hrow | ⟨e, he, -, hu, hlt⟩ | ⟨k, hk, -⟩
  · exact absurd rfl (of_decide_eq_true (List.mem_filter.mp hrow).2)
  · rcases hcache e he with hne | hle
    · exact hne hu
    · exact absurd hlt (Nat.not_lt.mpr hle)
  · exact hlookups _ hk rfl

theorem Sole.step (hs : Sole hashKey s) {m : Move Key} (hclean : s.clean m = true) :
    Sole hashKey (s.step hashKey m) := by
  by_cases hinsert : ∃ p u k, m = .insertRow p true ∧ s.provisions[p]? = some (.generated u k)
  · obtain ⟨p, u, k, rfl, hp⟩ := hinsert
    exact hs.insertRow hp
  · have hnames : ∀ u h, (s.step hashKey m).Names hashKey u h → s.Names hashKey u h := by
      intro u h hu
      refine (names_step m hu).resolve_right ?_
      rintro ⟨p, k, hm, hp, -⟩
      exact hinsert ⟨p, u, k, hm, hp⟩
    rcases provisions_step hashKey s m with
      hprov | ⟨v, hprov⟩ | ⟨p, a, a', hp, hadv, hprov⟩
    · exact hs.of_same hprov hnames
    · exact hs.of_requested hprov hnames
    · refine hs.of_advance hp hprov hnames fun u hu => ?_
      cases hadv with
      | revoke =>
          cases hu
          exact Or.inr (unnamed_of_clean hp hclean)
      | draw | invalidate => exact Or.inl ⟨hu, rfl⟩
      | store => exact absurd ⟨p, _, _, rfl, hp⟩ hinsert
      | refuse | succeed => exact nomatch hu

/-! ## A dead key stays dead -/

theorem Dead.step (hinj : Function.Injective hashKey) {u : String} {k : Key}
    (hd : Dead hashKey s u k) {m : Move Key} (hclean : s.clean m = true) :
    Dead hashKey (s.step hashKey m) u k where
  spent := drawn_step m hd.spent
  unnamed hnames := by
    rcases names_step m hnames with h | ⟨p, k', -, hp, hk'⟩
    · exact hd.unnamed h
    · obtain rfl := hinj hk'
      exact hd.unheld (List.mem_of_getElem? hp)
  unheld hmem := by
    rcases provisions_step hashKey s m with
      hprov | ⟨v, hprov⟩ | ⟨p, a, a', hp, hadv, hprov⟩
    · exact hd.unheld (hprov ▸ hmem)
    · rw [hprov, List.mem_append, List.mem_singleton] at hmem
      exact hmem.elim hd.unheld nofun
    · rw [hprov] at hmem
      rcases List.mem_or_eq_of_mem_set hmem with hmem | rfl
      · exact hd.unheld hmem
      -- a drawn key is new
      · cases hadv
        exact of_decide_eq_true hclean hd.spent

/-- The key is dead, and the lookups from the `n`-th on have not returned the user for it. -/
structure Silent (hashKey : Key → Hash) (s : AuthState Key Hash) (n : Nat) (u : String)
    (k : Key) : Prop where
  dead : Dead hashKey s u k
  begun : n ≤ s.lookups.length
  unheard : .returned k (some u) ∉ s.lookups.drop n

theorem Silent.step (hinj : Function.Injective hashKey) {n : Nat} {u : String} {k : Key}
    (hs : Silent hashKey s n u k) {m : Move Key} (hclean : s.clean m = true) :
    Silent hashKey (s.step hashKey m) n u k where
  dead := hs.dead.step hinj hclean
  begun := hs.begun.trans (length_lookups_step m)
  unheard hmem := (lookups_step hs.begun m hmem).elim hs.unheard hs.dead.unnamed

/-! ## Runs -/

theorem sole_run {moves : List (Move Key)}
    (hclean : Along (step hashKey) (fun t m => t.clean m = true) init moves) :
    (run hashKey moves).Sole hashKey :=
  foldl_inv (Sole hashKey) (fun _ _ hs hc => hs.step hc) moves init Sole.init hclean

/-- When a key has been handed out, no lookup that begins later returns its user for a key
handed out before. -/
def Revokes (hashKey : Key → Hash) (moves : List (Move Key)) : Prop :=
  ∀ pre p post u k k', moves = pre ++ .respond p :: post →
    (run hashKey pre).provisions[p]? = some (.invalidated u k) →
    (u, k') ∈ (run hashKey pre).issued → k' ≠ k →
    .returned k' (some u) ∉
      (run hashKey moves).lookups.drop (run hashKey pre).lookups.length

/-- No two keys authenticate as one user. -/
def OneKey (hashKey : Key → Hash) (s : AuthState Key Hash) : Prop :=
  ∀ u k k', s.lookupKey hashKey k = some u → s.lookupKey hashKey k' = some u → k = k'

/-- Keys are revoked, and one is left, in every run whose provisionings find a clean
slate. -/
theorem keys_revoked (hinj : Function.Injective hashKey) {moves : List (Move Key)}
    (hclean : Along (step hashKey) (fun t m => t.clean m = true) init moves) :
    Revokes hashKey moves ∧ OneKey hashKey (run hashKey moves) := by
  constructor
  · intro pre p post u k k' hmoves hp hissued hne
    rw [hmoves, along_append] at hclean
    have hdead := dead_of_respond hinj (sole_run hclean.1) (recorded_run pre) hp hissued hne
    have hsilent : Silent hashKey (run hashKey pre) (run hashKey pre).lookups.length u k' :=
      ⟨hdead, le_rfl, by rw [List.drop_length]; exact List.not_mem_nil⟩
    have hrun : run hashKey moves = (.respond p :: post).foldl (step hashKey) (run hashKey pre) := by
      rw [hmoves, run, List.foldl_append]
      rfl
    rw [hrun]
    exact (foldl_inv (fun t => Silent hashKey t (run hashKey pre).lookups.length u k')
      (fun _ _ hs hc => hs.step hinj hc) _ _ hsilent hclean.2).unheard
  · intro u k k' hk hk'
    exact hinj ((sole_run hclean).one (names_of_lookupKey hk) (names_of_lookupKey hk'))

/-! ## A renewed key -/

/-- A provisioning from its request to its answer, and a lookup that finds a row. -/
def renew (p : Nat) (u k : String) : List (Move String) :=
  [.provision u, .deleteRows p true, .generateKey p k, .insertRow p true, .invalidateCache p,
    .respond p]

def authenticate (l : Nat) (k : String) : List (Move String) :=
  [.lookupKey k, .readCache l, .readTable l true, .writeCache l]

/-- The old key was last used five minutes before the renewal. -/
theorem keys_revoked_after_expiry :
    let moves := renew 0 "alice" "vidhi_alice_1" ++ authenticate 0 "vidhi_alice_1" ++
      [.wait cacheTTL] ++ renew 1 "alice" "vidhi_alice_2" ++ authenticate 1 "vidhi_alice_1"
    Revokes id moves ∧ OneKey id (run id moves) :=
  keys_revoked Function.injective_id (by decide +kernel)

/-- The old key was used just before the renewal: it still authenticates. -/
theorem cached_key_survives :
    ¬ Revokes id (renew 0 "alice" "vidhi_alice_1" ++ authenticate 0 "vidhi_alice_1" ++
      renew 1 "alice" "vidhi_alice_2" ++ authenticate 1 "vidhi_alice_1") := by
  intro h
  refine h (renew 0 "alice" "vidhi_alice_1" ++ authenticate 0 "vidhi_alice_1" ++
    (renew 1 "alice" "vidhi_alice_2").dropLast) 1 (authenticate 1 "vidhi_alice_1") "alice"
    "vidhi_alice_2" "vidhi_alice_1" rfl ?_ ?_ ?_ ?_ <;> decide +kernel

end AuthState

end VidhiArena.Backend
