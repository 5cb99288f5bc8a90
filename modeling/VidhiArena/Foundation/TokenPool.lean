import Mathlib.Data.List.Nodup
import Mathlib.Data.List.ReduceOption
import VidhiArena.Foundation.Processes

/-!
# Pools of tokens

A buffered channel with a token for each of some resources. A process takes a token from the
front before it works and puts it back at the end when it is done; to take blocks while the
channel is empty, to put blocks while it is full. No token is lost or doubled
(`Conserves.run`): two processes never have the same one, and if the channel has room for all
tokens, nobody waits to give one back.
-/

namespace VidhiArena.Foundation

variable {τ : Type}

structure TokenPool (τ : Type) where
  channel : List τ
  /-- what each process has in hand -/
  hands : List (Option τ)

inductive PoolMove where
  | take (i : Nat)
  | put (i : Nat)
deriving DecidableEq

namespace TokenPool

def init (tokens : List τ) (processes : Nat) : TokenPool τ :=
  ⟨tokens, List.replicate processes none⟩

def take (s : TokenPool τ) (i : Nat) : TokenPool τ :=
  match s.hands[i]?, s.channel with
  | some none, t :: channel => ⟨channel, s.hands.set i (some t)⟩
  | _, _ => s

def put (capacity : Nat) (s : TokenPool τ) (i : Nat) : TokenPool τ :=
  match s.hands[i]? with
  | some (some t) =>
      if s.channel.length < capacity then ⟨s.channel ++ [t], s.hands.set i none⟩ else s
  | _ => s

def step (capacity : Nat) (s : TokenPool τ) : PoolMove → TokenPool τ
  | .take i => s.take i
  | .put i => s.put capacity i

/-! ## Hands -/

theorem reduceOption_set {t : τ} : ∀ {hands : List (Option τ)} {i : Nat},
    hands[i]? = some none → (hands.set i (some t)).reduceOption.Perm (t :: hands.reduceOption)
  | [], _, h => nomatch h
  | x :: hands, 0, h => by
      obtain rfl : x = none := Option.some.inj h
      rw [List.set_cons_zero, List.reduceOption_cons_of_some, List.reduceOption_cons_of_none]
  | none :: hands, i + 1, h => by
      rw [List.set_cons_succ, List.reduceOption_cons_of_none, List.reduceOption_cons_of_none]
      exact reduceOption_set (i := i) h
  | some a :: hands, i + 1, h => by
      rw [List.set_cons_succ, List.reduceOption_cons_of_some, List.reduceOption_cons_of_some]
      exact ((reduceOption_set (i := i) h).cons a).trans (List.Perm.swap t a _)

theorem reduceOption_release {t : τ} {hands : List (Option τ)} {i : Nat}
    (h : hands[i]? = some (some t)) :
    hands.reduceOption.Perm (t :: (hands.set i none).reduceOption) := by
  obtain ⟨hlt, hget⟩ := List.getElem?_eq_some_iff.mp h
  have hback : (hands.set i none).set i (some t) = hands := by
    rw [List.set_set, ← hget]
    exact List.set_getElem_self hlt
  have hempty : (hands.set i none)[i]? = some none := List.getElem?_set_self hlt
  have hperm := reduceOption_set (t := t) hempty
  rwa [hback] at hperm

/-! ## The invariant -/

/-- Every token is in the channel or in a hand. -/
def Conserves (tokens : List τ) (s : TokenPool τ) : Prop :=
  (s.channel ++ s.hands.reduceOption).Perm tokens

variable {tokens : List τ} {s : TokenPool τ}

theorem conserves_init (tokens : List τ) (processes : Nat) :
    Conserves tokens (init tokens processes) := by
  rw [Conserves, init, List.reduceOption_replicate_none, List.append_nil]

theorem Conserves.take (h : s.Conserves tokens) (i : Nat) : (s.take i).Conserves tokens := by
  rw [TokenPool.take]
  split
  · rename_i t channel hhand hchannel
    refine List.Perm.trans ?_ h
    rw [hchannel]
    refine ((reduceOption_set hhand).append_left channel).trans ?_
    exact List.perm_middle
  · exact h

theorem Conserves.put (h : s.Conserves tokens) (capacity i : Nat) :
    (s.put capacity i).Conserves tokens := by
  rw [TokenPool.put]
  split
  · rename_i t hhand
    split
    · refine List.Perm.trans ?_ h
      rw [List.append_assoc]
      exact ((reduceOption_release hhand).append_left s.channel).symm
    · exact h
  · exact h

theorem Conserves.run (h : s.Conserves tokens) (capacity : Nat) (moves : List PoolMove) :
    (moves.foldl (step capacity) s).Conserves tokens := by
  refine List.foldlRecOn (motive := Conserves tokens) moves _ h fun s hs m _ => ?_
  cases m with
  | take i => exact hs.take i
  | put i => exact hs.put capacity i

theorem length_hands_run (capacity : Nat) (moves : List PoolMove) (s : TokenPool τ) :
    (moves.foldl (step capacity) s).hands.length = s.hands.length := by
  refine List.foldlRecOn (motive := fun s' : TokenPool τ => s'.hands.length = s.hands.length)
    moves _ rfl fun s' hs' m _ => ?_
  rw [← hs']
  cases m with
  | take i =>
      rw [step, TokenPool.take]
      split
      · exact List.length_set
      · rfl
  | put i =>
      rw [step, TokenPool.put]
      split
      · split
        · exact List.length_set
        · rfl
      · rfl

/-! ## What follows -/

theorem Conserves.mem (h : s.Conserves tokens) {i : Nat} {t : τ}
    (hhand : s.hands[i]? = some (some t)) : t ∈ tokens :=
  h.subset (List.mem_append_right _
    (List.reduceOption_mem_iff.mpr (List.mem_of_getElem? hhand)))

theorem Conserves.exclusive (h : s.Conserves tokens) (hnodup : tokens.Nodup) {i j : Nat} {t : τ}
    (hi : s.hands[i]? = some (some t)) (hj : s.hands[j]? = some (some t)) : i = j := by
  by_contra hne
  have hhands : (t :: (s.hands.set i none).reduceOption).Nodup :=
    (reduceOption_release hi).nodup_iff.mp (h.nodup_iff.mpr hnodup).of_append_right
  refine (List.nodup_cons.mp hhands).1 (List.reduceOption_mem_iff.mpr ?_)
  exact List.mem_of_getElem? ((List.getElem?_set_ne hne).trans hj)

theorem Conserves.length (h : s.Conserves tokens) :
    s.channel.length + s.hands.reduceOption.length = tokens.length := by
  rw [← List.length_append]
  exact h.length_eq

theorem Conserves.put_succeeds (h : s.Conserves tokens) {capacity : Nat}
    (hroom : tokens.length ≤ capacity) {i : Nat} {t : τ} (hhand : s.hands[i]? = some (some t)) :
    s.put capacity i = ⟨s.channel ++ [t], s.hands.set i none⟩ := by
  have hlength := h.length
  have hheld := List.length_pos_of_mem (List.reduceOption_mem_iff.mpr (List.mem_of_getElem? hhand))
  rw [TokenPool.put, hhand]
  exact if_pos (by omega)

/-- Nobody waits for a token if there are as many tokens as processes. -/
theorem Conserves.take_succeeds (h : s.Conserves tokens) (henough : s.hands.length ≤ tokens.length)
    {i : Nat} (hhand : s.hands[i]? = some none) :
    ∃ t channel, s.channel = t :: channel ∧ s.take i = ⟨channel, s.hands.set i (some t)⟩ := by
  have hlength := h.length
  have hless := List.reduceOption_length_lt_iff.mpr (List.mem_of_getElem? hhand)
  obtain ⟨t, channel, hchannel⟩ := List.exists_cons_of_length_pos (l := s.channel) (by omega)
  refine ⟨t, channel, hchannel, ?_⟩
  rw [TokenPool.take, hhand, hchannel]

end TokenPool

end VidhiArena.Foundation
