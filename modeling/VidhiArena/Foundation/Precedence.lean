import Mathlib.Order.Nat

/-!
# Expressions with precedences

Precedence climbing. A grammar says which tokens are infix operators, how tightly each
binds, and how an operand is read; the operand may hold expressions of its own. Operators
of one precedence group to the left.

`Reads k ts e` says that tokens are read as an expression whatever stands behind them, if
that binds no tighter than `k`. It is put together from operands and operators.
-/

namespace VidhiArena.Foundation

/-- A reader, from a precedence and tokens to what they begin with and the tokens behind. -/
abbrev Reader (Token Tree : Type) := Nat → List Token → Option (Tree × List Token)

structure Grammar (Token Tree : Type) where
  operator : Token → Option (Nat × (Tree → Tree → Tree))
  operand : Reader Token Tree → List Token → Option (Tree × List Token)
  /-- a token that goes on with an operand -/
  continues : Token → Bool

namespace Grammar

variable {Token Tree : Type} (G : Grammar Token Tree)

mutual

/-- An expression all of whose operators have at least this precedence. -/
def climb : Nat → Reader Token Tree
  | 0, _, _ => none
  | fuel + 1, p, ts => (G.operand (climb fuel) ts).bind fun r => climbFrom fuel p r.1 r.2

/-- What goes on behind the expression `e`. -/
def climbFrom : Nat → Nat → Tree → List Token → Option (Tree × List Token)
  | 0, _, _, _ => none
  | _ + 1, _, e, [] => some (e, [])
  | fuel + 1, p, e, t :: ts =>
      match G.operator t with
      | none => some (e, t :: ts)
      | some (q, node) =>
          if p ≤ q then
            (climb fuel (q + 1) ts).bind fun r => climbFrom fuel p (node e r.1) r.2
          else some (e, t :: ts)

end

/-- What stands behind an operand and binds no tighter than `k`. -/
structure Stops (k : Nat) (rest : List Token) : Prop where
  closed : ∀ t ∈ rest.head?, G.continues t = false
  loose : ∀ t ∈ rest.head?, ∀ q node, G.operator t = some (q, node) → q ≤ k

def IsOperand (ts : List Token) (e : Tree) : Prop :=
  ∀ rest, (∀ t ∈ rest.head?, G.continues t = false) → ∀ fuel, 3 * ts.length ≤ fuel →
    G.operand (G.climb fuel) (ts ++ rest) = some (e, rest)

/-- The tokens are an expression, in front of everything that binds no tighter than `k`. -/
def Reads (k : Nat) (ts : List Token) (e : Tree) : Prop :=
  ∀ p ≤ k, ∀ rest, G.Stops k rest → ∀ m r,
    (∀ fuel, m ≤ fuel → G.climbFrom fuel p e rest = r) →
    ∀ fuel, m + 3 * ts.length + 1 ≤ fuel → G.climb fuel p (ts ++ rest) = r

variable {G} {k q : Nat} {ts ts' : List Token} {t : Token} {e e' : Tree}
  {node : Tree → Tree → Tree}

theorem Stops.mono (h : G.Stops k rest) (hk : k ≤ q) : G.Stops q rest :=
  ⟨h.closed, fun t ht p node hp => (h.loose t ht p node hp).trans hk⟩

theorem climbFrom_stops (h : G.Stops k rest) (hp : k < p) (fuel : Nat) :
    G.climbFrom (fuel + 1) p e rest = some (e, rest) := by
  cases rest with
  | nil => rfl
  | cons t rest =>
      rw [climbFrom]
      cases hoperator : G.operator t with
      | none => rfl
      | some op =>
          have hq := h.loose t rfl op.1 op.2 hoperator
          exact if_neg (Nat.not_le.mpr (hq.trans_lt hp))

theorem Reads.complete (h : G.Reads k ts e) (hrest : G.Stops j rest) (hjk : j ≤ k) (hp : j < p)
    (hpk : p ≤ k) {fuel : Nat} (hfuel : 3 * ts.length + 2 ≤ fuel) :
    G.climb fuel p (ts ++ rest) = some (e, rest) := by
  refine h p hpk rest (hrest.mono hjk) 1 _ (fun fuel hle => ?_) fuel (by omega)
  obtain ⟨fuel, rfl⟩ := Nat.exists_eq_add_of_le' hle
  exact climbFrom_stops hrest hp fuel

theorem Reads.mono (h : G.Reads k ts e) (hq : q ≤ k) : G.Reads q ts e :=
  fun p hp rest hrest => h p (hp.trans hq) rest (hrest.mono hq)

theorem IsOperand.reads (h : G.IsOperand ts e) (k : Nat) : G.Reads k ts e := by
  intro p _ rest hrest m r hr fuel hfuel
  obtain ⟨fuel, rfl⟩ : ∃ n, fuel = n + 1 := ⟨fuel - 1, by omega⟩
  rw [climb, h rest hrest.closed fuel (by omega)]
  exact hr fuel (by omega)

/-- An operator between two expressions that bind at least as tightly, the right one
more tightly. -/
theorem Reads.operator (h : G.Reads j ts e) (h' : G.Reads j' ts' e')
    (ht : G.operator t = some (q, node)) (hclosed : G.continues t = false) (hk : k ≤ q)
    (hj : q ≤ j) (hj' : q < j') : G.Reads k (ts ++ t :: ts') (node e e') := by
  intro p hp rest hrest m r hr fuel hfuel
  rw [List.length_append, List.length_cons] at hfuel
  rw [List.append_assoc, List.cons_append]
  have hstops : G.Stops j (t :: (ts' ++ rest)) := by
    refine ⟨fun u hu => ?_, fun u hu q' node' hq' => ?_⟩
    · cases hu
      exact hclosed
    · cases hu
      rw [ht] at hq'
      cases hq'
      exact hj
  refine h p (by omega) _ hstops (m + 3 * ts'.length + 3) r (fun fuel hle => ?_) fuel (by omega)
  obtain ⟨fuel, rfl⟩ : ∃ n, fuel = n + 1 := ⟨fuel - 1, by omega⟩
  have hmore : 3 * ts'.length + 2 ≤ fuel := by omega
  have hright := h'.complete hrest (by omega) (Nat.lt_succ_of_le hk) hj' hmore
  rw [climbFrom, ht]
  dsimp only
  rw [if_pos (by omega), hright]
  exact hr fuel (by omega)

end Grammar

end VidhiArena.Foundation
