import Mathlib.Data.List.Sort
import Mathlib.Data.Prod.Lex

/-!
# Selecting rows

`orderBy key rows` lists the rows by a key (`ORDER BY`), `distinctOn group rows` keeps the
first row of each group (`DISTINCT ON`). Together they keep the least row of each group.
-/

namespace VidhiArena.Foundation.Rows

variable {α γ κ : Type}

section Order

variable [LinearOrder κ] (key : α → κ) (rows : List α)

def orderBy : List α :=
  rows.insertionSort fun a b => key a ≤ key b

theorem orderBy_perm : (orderBy key rows).Perm rows := List.perm_insertionSort _ rows

@[simp] theorem mem_orderBy {a : α} : a ∈ orderBy key rows ↔ a ∈ rows :=
  (orderBy_perm key rows).mem_iff

theorem pairwise_orderBy : (orderBy key rows).Pairwise fun a b => key a ≤ key b := by
  have : Std.Total fun a b : α => key a ≤ key b := ⟨fun a b => le_total (key a) (key b)⟩
  have : IsTrans α fun a b => key a ≤ key b := ⟨fun _ _ _ => le_trans⟩
  exact List.pairwise_insertionSort _ rows

/-- Rows may be cut down to columns that hold the key before they are listed or after. -/
theorem map_orderBy {β : Type} (key : β → κ) (f : α → β) (rows : List α) :
    (orderBy (key ∘ f) rows).map f = orderBy key (rows.map f) :=
  List.map_insertionSort _ _ _ _ fun _ _ _ _ => Iff.rfl

end Order

/-- Two listings of the same rows by a key that tells them apart. -/
theorem eq_of_perm [LinearOrder κ] (key : α → κ) {l l' : List α} (hperm : l.Perm l')
    (hkey : ∀ a ∈ l, ∀ b ∈ l, key a = key b → a = b)
    (hl : l.Pairwise fun a b => key a ≤ key b) (hl' : l'.Pairwise fun a b => key a ≤ key b) :
    l = l' := by
  refine List.Perm.eq_of_pairwise (fun a b ha hb hab hba => ?_) hl hl' hperm
  exact hkey a ha b (hperm.mem_iff.mpr hb) (le_antisymm hab hba)

section Groups

variable [DecidableEq γ] {group : α → γ}

variable (group) in
/-- The first row of each group, in the order of the rows. -/
def distinctOn : List α → List α
  | [] => []
  | a :: l => a :: (distinctOn l).filter fun b => group b ≠ group a

theorem distinctOn_sublist : ∀ l : List α, (distinctOn group l).Sublist l
  | [] => List.Sublist.slnil
  | _ :: l => (List.filter_sublist.trans (distinctOn_sublist l)).cons_cons _

theorem nodup_distinctOn : ∀ l : List α, ((distinctOn group l).map group).Nodup
  | [] => List.nodup_nil
  | a :: l => by
      rw [distinctOn, List.map_cons, List.nodup_cons]
      constructor
      · intro h
        obtain ⟨b, hb, heq⟩ := List.mem_map.mp h
        exact of_decide_eq_true (List.mem_filter.mp hb).2 heq
      · exact (nodup_distinctOn l).sublist (List.filter_sublist.map group)

theorem exists_distinctOn : ∀ {l : List α} {a : α}, a ∈ l →
    ∃ b ∈ distinctOn group l, group b = group a
  | c :: l, a, ha => by
      by_cases hgroup : group c = group a
      · exact ⟨c, List.mem_cons_self, hgroup⟩
      · rcases List.mem_cons.mp ha with rfl | ha
        · exact absurd rfl hgroup
        · obtain ⟨b, hb, heq⟩ := exists_distinctOn ha
          refine ⟨b, List.mem_cons_of_mem _ (List.mem_filter.mpr ⟨hb, ?_⟩), heq⟩
          exact decide_eq_true fun h => hgroup (h.symm.trans heq)

/-- In rows that are listed by a relation, the row kept of a group stands before the others. -/
theorem distinctOn_first {r : α → α → Prop} (hrefl : ∀ a, r a a) : ∀ {l : List α},
    l.Pairwise r → ∀ {a b : α}, a ∈ distinctOn group l → b ∈ l → group b = group a → r a b
  | c :: l, hl, a, b, ha, hb, hgroup => by
      obtain ⟨hhead, htail⟩ := List.pairwise_cons.mp hl
      rcases List.mem_cons.mp ha with rfl | ha
      · rcases List.mem_cons.mp hb with rfl | hb
        · exact hrefl b
        · exact hhead b hb
      · obtain ⟨ha, hne⟩ := List.mem_filter.mp ha
        rcases List.mem_cons.mp hb with rfl | hb
        · exact absurd hgroup.symm (of_decide_eq_true hne)
        · exact distinctOn_first hrefl htail ha hb hgroup

end Groups

section Least

variable [LinearOrder γ] [LinearOrder κ] (group : α → γ) (key : α → κ) (rows : List α)

/-- By group, and inside a group by the key. -/
def groupKey (a : α) : γ ×ₗ κ := toLex (group a, key a)

/-- `SELECT DISTINCT ON (group) … ORDER BY group, key`. -/
def leastOfGroups : List α :=
  distinctOn group (orderBy (groupKey group key) rows)

variable {group key rows}

theorem mem_of_leastOfGroups {a : α} (h : a ∈ leastOfGroups group key rows) : a ∈ rows :=
  (mem_orderBy _ rows).mp ((distinctOn_sublist _).subset h)

theorem le_of_leastOfGroups {a b : α} (ha : a ∈ leastOfGroups group key rows) (hb : b ∈ rows)
    (hgroup : group b = group a) : key a ≤ key b := by
  have hrefl : ∀ c, groupKey group key c ≤ groupKey group key c := fun _ => le_rfl
  have hle := distinctOn_first hrefl (pairwise_orderBy (groupKey group key) rows) ha
    ((mem_orderBy _ rows).mpr hb) hgroup
  rcases Prod.Lex.toLex_le_toLex.mp hle with hlt | ⟨-, hkey⟩
  · exact absurd hgroup.symm hlt.ne
  · exact hkey

theorem pairwise_leastOfGroups :
    (leastOfGroups group key rows).Pairwise fun a b => group a ≤ group b := by
  refine ((pairwise_orderBy _ rows).sublist (distinctOn_sublist _)).imp fun {a b} hle => ?_
  rcases Prod.Lex.toLex_le_toLex.mp hle with hlt | ⟨heq, -⟩
  · exact hlt.le
  · exact heq.le

variable (group key) in
theorem exists_leastOfGroups {a : α} (ha : a ∈ rows) :
    ∃ b ∈ leastOfGroups group key rows, group b = group a :=
  exists_distinctOn ((mem_orderBy _ rows).mpr ha)

/-- A row is selected exactly when it is the least of its group. -/
theorem mem_leastOfGroups {a : α} (ha : a ∈ rows)
    (hkey : ∀ b ∈ rows, group b = group a → key b = key a → b = a) :
    a ∈ leastOfGroups group key rows ↔ ∀ b ∈ rows, group b = group a → key a ≤ key b := by
  constructor
  · exact fun h b hb hgroup => le_of_leastOfGroups h hb hgroup
  · intro hleast
    obtain ⟨b, hb, hgroup⟩ := exists_leastOfGroups group key ha
    have hle : key b ≤ key a := le_of_leastOfGroups hb ha hgroup.symm
    have hmem := mem_of_leastOfGroups hb
    obtain rfl := hkey b hmem hgroup (le_antisymm hle (hleast b hmem hgroup))
    exact hb

end Least

end VidhiArena.Foundation.Rows
