import Mathlib.Logic.Function.Basic
import Mathlib.Order.Nat
import VidhiArena.Foundation.Faulting

/-!
# API keys

`LookupKey`, `InvalidateCache` and the cache of `backend/auth/api_key.go`, and
`handleProvisionAPIKey` of `backend/main.go`. Any number of lookups and provisionings share
the table and the cache; a `Move` lets one of them take its next step (one statement of SQL,
or what is done under the cache's mutex), lets a request arrive or lets time pass.

The plaintext that `GenerateKey` draws, the clock and whether the database answers enter with
the moves. Nothing sets `expires_at` of a row, so that column is left out; a row names its
user and its hash. `hashKey` is `HashKey`.
-/

namespace VidhiArena.Backend

open VidhiArena.Foundation

/-! ## State -/

/-- A row of `api_keys`. -/
structure ApiKeyRow (Hash : Type) where
  userID : String
  keyHash : Hash
deriving DecidableEq

/-- An entry of `keyCache`, with its key; times are nanoseconds. -/
structure CachedKey (Hash : Type) where
  keyHash : Hash
  userID : String
  expiresAt : Nat
deriving DecidableEq

/-- `cacheTTL`: five minutes. -/
def cacheTTL : Nat := 300000000000

/-- Where a call of `LookupKey` is. -/
inductive Lookup (Key : Type) where
  | begun (rawKey : Key)
  /-- no entry in the cache, or one that has expired -/
  | missed (rawKey : Key)
  /-- the table has a row; the cache is written next -/
  | found (rawKey : Key) (userID : String)
  /-- `none`: `""`, with or without an error -/
  | returned (rawKey : Key) (userID : Option String)
deriving DecidableEq

/-- Where a call of `handleProvisionAPIKey` is, once the contestant's record exists. -/
inductive Provision (Key : Type) where
  | requested (userID : String)
  /-- `DELETE` -/
  | revoked (userID : String)
  | generated (userID : String) (plaintext : Key)
  /-- `INSERT` -/
  | stored (userID : String) (plaintext : Key)
  /-- `InvalidateCache` -/
  | invalidated (userID : String) (plaintext : Key)
  /-- the response with the key has been sent -/
  | succeeded (userID : String) (plaintext : Key)
  /-- `'failed to store key'` -/
  | failed (userID : String)
deriving DecidableEq

structure AuthState (Key Hash : Type) where
  now : Nat
  apiKeys : List (ApiKeyRow Hash)
  keyCache : List (CachedKey Hash)
  lookups : List (Lookup Key)
  provisions : List (Provision Key)
  /-- the plaintexts drawn so far -/
  drawn : List Key
  /-- the keys that were handed out -/
  issued : List (String × Key)
deriving DecidableEq

/-- The user whose rows it has deleted while it has not answered. -/
def Provision.inFlight {Key : Type} : Provision Key → Option String
  | revoked u | generated u _ | stored u _ | invalidated u _ => some u
  | requested _ | succeeded _ _ | failed _ => none

def Provision.storedKey {Key : Type} : Provision Key → Option Key
  | stored _ k | invalidated _ k => some k
  | _ => none

def Provision.plaintext {Key : Type} : Provision Key → Option Key
  | generated _ k | stored _ k | invalidated _ k | succeeded _ k => some k
  | _ => none

/-- The user that it is about to cache. -/
def Lookup.holds {Key : Type} : Lookup Key → Option String
  | found _ u => some u
  | _ => none

/-! ## Steps -/

inductive Move (Key : Type) where
  /-- time passes -/
  | wait (d : Nat)
  | lookupKey (rawKey : Key)
  | readCache (l : Nat)
  | readTable (l : Nat) (ok : Bool)
  | writeCache (l : Nat)
  | provision (userID : String)
  | deleteRows (p : Nat) (ok : Bool)
  | generateKey (p : Nat) (plaintext : Key)
  | insertRow (p : Nat) (ok : Bool)
  | invalidateCache (p : Nat)
  | respond (p : Nat)
deriving DecidableEq

namespace AuthState

variable {Key Hash : Type} [DecidableEq Hash] (hashKey : Key → Hash)

def init : AuthState Key Hash := ⟨0, [], [], [], [], [], []⟩

def setLookup (s : AuthState Key Hash) (l : Nat) (x : Lookup Key) : AuthState Key Hash :=
  { s with lookups := s.lookups.set l x }

def setProvision (s : AuthState Key Hash) (p : Nat) (x : Provision Key) : AuthState Key Hash :=
  { s with provisions := s.provisions.set p x }

/-- The cache read of `LookupKey`. -/
def cacheRead (s : AuthState Key Hash) (rawKey : Key) : Lookup Key :=
  match s.keyCache.find? (fun e => e.keyHash = hashKey rawKey) with
  | some e => if s.now < e.expiresAt then .returned rawKey (some e.userID) else .missed rawKey
  | none => .missed rawKey

/-- The query of `LookupKey`. -/
def tableRead (s : AuthState Key Hash) (rawKey : Key) : Lookup Key :=
  match s.apiKeys.find? (fun r => r.keyHash = hashKey rawKey) with
  | some r => .found rawKey r.userID
  | none => .returned rawKey none

def step (s : AuthState Key Hash) : Move Key → AuthState Key Hash
  | .wait d => { s with now := s.now + d }
  | .lookupKey rawKey => { s with lookups := s.lookups ++ [.begun rawKey] }
  | .readCache l =>
      match s.lookups[l]? with
      | some (.begun rawKey) => s.setLookup l (s.cacheRead hashKey rawKey)
      | _ => s
  | .readTable l ok =>
      match s.lookups[l]? with
      | some (.missed rawKey) =>
          s.setLookup l (if ok then s.tableRead hashKey rawKey else .returned rawKey none)
      | _ => s
  | .writeCache l =>
      match s.lookups[l]? with
      | some (.found rawKey userID) =>
          { s.setLookup l (.returned rawKey (some userID)) with
            keyCache := ⟨hashKey rawKey, userID, s.now + cacheTTL⟩ ::
              s.keyCache.filter fun e => e.keyHash ≠ hashKey rawKey }
      | _ => s
  | .provision userID => { s with provisions := s.provisions ++ [.requested userID] }
  | .deleteRows p ok =>
      match s.provisions[p]? with
      | some (.requested userID) =>
          -- the error of `ExecContext` is not looked at
          { s.setProvision p (.revoked userID) with
            apiKeys := if ok then s.apiKeys.filter fun r => r.userID ≠ userID else s.apiKeys }
      | _ => s
  | .generateKey p plaintext =>
      match s.provisions[p]? with
      | some (.revoked userID) =>
          { s.setProvision p (.generated userID plaintext) with drawn := plaintext :: s.drawn }
      | _ => s
  | .insertRow p ok =>
      match s.provisions[p]? with
      | some (.generated userID plaintext) =>
          -- `key_hash` is unique
          if ok ∧ ∀ r ∈ s.apiKeys, r.keyHash ≠ hashKey plaintext then
            { s.setProvision p (.stored userID plaintext) with
              apiKeys := s.apiKeys ++ [⟨userID, hashKey plaintext⟩] }
          else s.setProvision p (.failed userID)
      | _ => s
  | .invalidateCache p =>
      match s.provisions[p]? with
      | some (.stored userID plaintext) =>
          { s.setProvision p (.invalidated userID plaintext) with
            keyCache := s.keyCache.filter fun e => e.keyHash ≠ hashKey plaintext }
      | _ => s
  | .respond p =>
      match s.provisions[p]? with
      | some (.invalidated userID plaintext) =>
          { s.setProvision p (.succeeded userID plaintext) with
            issued := (userID, plaintext) :: s.issued }
      | _ => s

def run (moves : List (Move Key)) : AuthState Key Hash := moves.foldl (step hashKey) init

/-- A call of `LookupKey` that nothing interrupts. -/
def lookupKey (s : AuthState Key Hash) (rawKey : Key) : Option String :=
  match s.cacheRead hashKey rawKey with
  | .returned _ userID => userID
  | _ =>
      match s.tableRead hashKey rawKey with
      | .found _ userID => some userID
      | _ => none

/-! ## Where a key can be found -/

/-- The table, the cache or a lookup between its last two steps names `u` for hash `h`. -/
def Names (s : AuthState Key Hash) (u : String) (h : Hash) : Prop :=
  ⟨u, h⟩ ∈ s.apiKeys ∨ (∃ e ∈ s.keyCache, e.keyHash = h ∧ e.userID = u ∧ s.now < e.expiresAt) ∨
    ∃ rawKey, .found rawKey u ∈ s.lookups ∧ hashKey rawKey = h

variable {hashKey} {s : AuthState Key Hash} {u : String} {rawKey : Key}

theorem cacheRead_returned {k : Key}
    (h : s.cacheRead hashKey rawKey = .returned k (some u)) :
    k = rawKey ∧ s.Names hashKey u (hashKey rawKey) := by
  unfold cacheRead at h
  split at h
  · next e he =>
      split at h
      · next hnow =>
          cases h
          have hhash : e.keyHash = hashKey rawKey := by simpa using List.find?_some he
          exact ⟨rfl, Or.inr (Or.inl ⟨e, List.mem_of_find?_eq_some he, hhash, rfl, hnow⟩)⟩
      · exact nomatch h
  · exact nomatch h

theorem cacheRead_ne_found {k : Key} : s.cacheRead hashKey rawKey ≠ .found k u := by
  unfold cacheRead
  split
  · split <;> nofun
  · nofun

theorem tableRead_found {k : Key} (h : s.tableRead hashKey rawKey = .found k u) :
    k = rawKey ∧ ⟨u, hashKey rawKey⟩ ∈ s.apiKeys := by
  unfold tableRead at h
  split at h
  · next r hr =>
      cases h
      have hhash : r.keyHash = hashKey rawKey := by simpa using List.find?_some hr
      exact ⟨rfl, hhash ▸ List.mem_of_find?_eq_some hr⟩
  · exact nomatch h

theorem tableRead_ne_returned {k : Key} : s.tableRead hashKey rawKey ≠ .returned k (some u) := by
  unfold tableRead
  split <;> nofun

theorem names_of_lookupKey (h : s.lookupKey hashKey rawKey = some u) :
    s.Names hashKey u (hashKey rawKey) := by
  unfold lookupKey at h
  split at h
  · next k o hread =>
      subst h
      exact (cacheRead_returned hread).2
  · split at h
    · next k v hread =>
        cases h
        exact Or.inl (tableRead_found hread).2
    · exact nomatch h

end AuthState

end VidhiArena.Backend
