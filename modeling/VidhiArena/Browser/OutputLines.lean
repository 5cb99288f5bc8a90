import VidhiArena.Browser.SourceLines

/-!
# Lines of the output

No replacement writes a line break, so that the output has the lines that were pushed.
-/

namespace VidhiArena.Browser.Transpile

open Foundation.BracedLines

variable {t a b : Text}

/-! ## Nothing but what was there -/

theorem literal_subset {word rest : Text} (h : literal word t = some rest) : rest ⊆ t := by
  rw [eq_of_literal h]
  exact List.subset_append_right word rest

theorem some1_subset {p : Char → Bool} {rest : Text} (h : some1 p t = some rest) : rest ⊆ t := by
  unfold some1 at h
  split at h
  · rw [← Option.some.inj h]
    exact (List.dropWhile_suffix p).subset
  · cases h

theorem trim_subset (t : Text) : trim t ⊆ t := fun _ hc =>
  (List.dropWhile_suffix _).subset ((List.rdropWhile_prefix _ _).subset hc)

theorem stripComment_subset (t : Text) : stripComment t ⊆ t := by
  induction t with
  | nil => exact List.Subset.refl _
  | cons c t ih =>
      rw [stripComment]
      split
      · exact List.nil_subset _
      · exact List.cons_subset_cons c ih

theorem cleaned_subset (t : Text) : cleaned t ⊆ t := fun _ hc =>
  trim_subset t (stripComment_subset _ ((List.rdropWhile_prefix _ _).subset hc))

theorem dropWord_subset (word t : Text) : dropWord word t ⊆ t := by
  unfold dropWord
  cases hrest : (literal word t).bind (some1 isSpace) with
  | none => exact List.Subset.refl t
  | some rest =>
      obtain ⟨t', ht', hsome⟩ := Option.bind_eq_some_iff.mp hrest
      exact List.Subset.trans (some1_subset hsome) (literal_subset ht')

theorem dropColon_subset (t : Text) : dropColon t ⊆ t := by
  unfold dropColon
  split
  · exact List.dropLast_subset t
  · exact List.Subset.refl t

theorem forName_subset {name rest : Text} (h : forName t = some (name, rest)) :
    name ⊆ t ∧ rest ⊆ t := by
  obtain ⟨t₁, ht₁, h⟩ := Option.bind_eq_some_iff.mp h
  obtain ⟨t₀, ht₀, ht₁⟩ := Option.bind_eq_some_iff.mp ht₁
  obtain ⟨t₂, ht₂, h⟩ := Option.bind_eq_some_iff.mp h
  obtain ⟨t₃, ht₃, ht₂⟩ := Option.bind_eq_some_iff.mp ht₂
  obtain ⟨rest', hrest', h⟩ := Option.bind_eq_some_iff.mp h
  have h₁ : t₁ ⊆ t := List.Subset.trans (some1_subset ht₁) (literal_subset ht₀)
  split at h
  · obtain ⟨rfl, rfl⟩ := Prod.mk.inj (Option.some.inj h)
    exact ⟨List.Subset.trans (List.takeWhile_prefix isWord).subset h₁,
      List.Subset.trans (literal_subset hrest') <| List.Subset.trans (some1_subset ht₂) <|
        List.Subset.trans (some1_subset ht₃) h₁⟩
  · cases h

theorem forRange_subset {name n : Text} (h : forRange t = some (name, n)) :
    name ⊆ t ∧ n ⊆ t := by
  obtain ⟨⟨name', rest⟩, hname, h⟩ := Option.bind_eq_some_iff.mp h
  obtain ⟨hx, hrest⟩ := forName_subset hname
  obtain ⟨t₁, ht₁, h⟩ := Option.bind_eq_some_iff.mp h
  obtain ⟨t₂, -, h⟩ := Option.bind_eq_some_iff.mp h
  split at h
  · obtain ⟨rfl, rfl⟩ := Prod.mk.inj (Option.some.inj h)
    exact ⟨hx, List.Subset.trans (List.takeWhile_prefix _).subset <|
      List.Subset.trans (literal_subset ht₁) <|
        List.Subset.trans (List.dropWhile_suffix isSpace).subset hrest⟩
  · cases h

theorem forEach_subset {name items : Text} (h : forEach t = some (name, items)) :
    name ⊆ t ∧ items ⊆ t := by
  obtain ⟨⟨name', rest⟩, hname, h⟩ := Option.bind_eq_some_iff.mp h
  obtain ⟨hx, hrest⟩ := forName_subset hname
  dsimp only at h
  split at h
  · obtain ⟨c, hc, h⟩ := Option.bind_eq_some_iff.mp h
    obtain ⟨rfl, rfl⟩ := Prod.mk.inj (Option.some.inj h)
    have hmem := (List.mem_filter.mp (List.mem_of_getLast? hc)).1
    refine ⟨hx, fun d hd => hrest ?_⟩
    rw [List.mem_singleton.mp hd]
    exact (List.takeWhile_prefix isSpace).subset (List.mem_of_mem_tail hmem)
  · split at h
    · obtain ⟨rfl, rfl⟩ := Prod.mk.inj (Option.some.inj h)
      exact ⟨hx, List.Subset.trans (List.takeWhile_prefix isDot).subset <|
        List.Subset.trans (List.dropWhile_suffix isSpace).subset hrest⟩
    · cases h

/-- A loop ends with its brace, behind characters of the line and some of its own. -/
theorem forText_cases (t : Text) : forText t = "\x7b /* for */ ".toList ∨
    ∃ a, forText t = a ++ ") \x7b".toList ∧ ∀ c ∈ a, c ∈ t ∨ c ∈ "forletcns(=0;<+ ".toList := by
  have hmem : ∀ {a b : Text} (hb : b ⊆ t) (ha : ∀ c ∈ a, c ∈ t ∨ c ∈ "forletcns(=0;<+ ".toList),
      ∀ c ∈ a ++ b, c ∈ t ∨ c ∈ "forletcns(=0;<+ ".toList := fun hb ha c hc =>
    (List.mem_append.mp hc).elim (ha c) fun hc => .inl (hb hc)
  have hown : ∀ {a b : Text} (hb : ∀ c ∈ b, c ∈ "forletcns(=0;<+ ".toList)
      (ha : ∀ c ∈ a, c ∈ t ∨ c ∈ "forletcns(=0;<+ ".toList),
      ∀ c ∈ a ++ b, c ∈ t ∨ c ∈ "forletcns(=0;<+ ".toList := fun hb ha c hc =>
    (List.mem_append.mp hc).elim (ha c) fun hc => .inr (hb c hc)
  have hnil : ∀ c ∈ ([] : Text), c ∈ t ∨ c ∈ "forletcns(=0;<+ ".toList := nofun
  unfold forText
  cases hrange : forRange t with
  | some q =>
      obtain ⟨hx, hn⟩ := forRange_subset hrange
      refine .inr ⟨[] ++ "for (let ".toList ++ q.1 ++ " = 0; ".toList ++ q.1 ++ " < ".toList ++
        q.2 ++ "; ".toList ++ q.1 ++ "++".toList, ?_, ?_⟩
      · simp only [List.append_assoc]
        rfl
      · exact hown (forall_of_all (by decide)) <| hmem hx <| hown (forall_of_all (by decide)) <| hmem hn <| hown (forall_of_all (by decide)) <|
          hmem hx <| hown (forall_of_all (by decide)) <| hmem hx <| hown (forall_of_all (by decide)) hnil
  | none =>
      cases heach : forEach t with
      | none => exact .inl rfl
      | some q =>
          obtain ⟨hx, hitems⟩ := forEach_subset heach
          refine .inr ⟨[] ++ "for (const ".toList ++ q.1 ++ " of ".toList ++ q.2, rfl, ?_⟩
          exact hmem hitems <| hown (forall_of_all (by decide)) <| hmem hx <| hown (forall_of_all (by decide)) hnil

def OneLine (t : Text) : Prop := '\n' ∉ t

namespace OneLine

theorem mono (h : OneLine b) (hab : a ⊆ b) : OneLine a := fun hmem => h (hab hmem)

theorem append (ha : OneLine a) (hb : OneLine b) : OneLine (a ++ b) := fun hmem =>
  (List.mem_append.mp hmem).elim ha hb

theorem of_all (h : t.all (· ≠ '\n') = true) : OneLine t := fun hmem =>
  of_decide_eq_true (List.all_eq_true.mp h _ hmem) rfl

theorem all (h : OneLine t) : t.all (· ≠ '\n') = true :=
  List.all_eq_true.mpr fun _ hc => decide_eq_true fun heq => h (heq ▸ hc)

theorem keywords (h : OneLine t) : OneLine (keywords t) :=
  .of_all (all_keywords (by decide) h.all)

theorem calls (h : OneLine t) : OneLine (calls t) := by
  have hcall : ∀ {name replacement : String} {t : Text},
      replacement.toList.all (· ≠ '\n') = true → t.all (· ≠ '\n') = true →
        (replaceCall name replacement t).all (· ≠ '\n') = true := fun hr ht =>
    all_replaceCallFrom hr _ rfl rfl ht
  exact .of_all <| hcall (by decide) <| hcall (by decide) <| hcall (by decide) <|
    hcall (by decide) <| hcall (by decide) h.all

theorem printText (h : OneLine t) : OneLine (printText t) := by
  unfold Transpile.printText printCall
  cases hprint : Transpile.literal "print".toList t with
  | none => exact h
  | some rest =>
      have hrest := List.Subset.trans (List.dropWhile_suffix isSpace).subset (literal_subset hprint)
      rw [Option.bind_some]
      cases hcall : Transpile.literal ['('] (rest.dropWhile isSpace) with
      | none => exact h
      | some rest' =>
          have hline : OneLine ("/* print(".toList ++ rest') :=
            (OneLine.of_all (by decide)).append (h.mono (List.Subset.trans (literal_subset hcall) hrest))
          dsimp only
          split
          · exact (hline.mono (List.dropLast_subset _)).append (.of_all (by decide))
          · exact hline

theorem statementText (h : OneLine t) : OneLine (statementText t) := by
  unfold Transpile.statementText
  dsimp only
  split
  · exact h.printText.calls.append (.of_all (by decide))
  · exact h.printText.calls

theorem elifText (h : OneLine t) : OneLine (elifText t) := by
  have hcond := h.mono (List.Subset.trans (trim_subset _) <|
    List.Subset.trans (dropColon_subset _) (dropWord_subset "elif".toList t))
  exact ((OneLine.of_all (by decide)).append hcond).append (.of_all (by decide))

theorem exceptText (h : OneLine t) : OneLine (exceptText t) := by
  have hspec : OneLine (((Transpile.literal "except".toList t).map
      (·.dropWhile isSpace)).getD t) := by
    cases hrest : Transpile.literal "except".toList t with
    | none => exact h
    | some rest =>
        exact h.mono (List.Subset.trans (List.dropWhile_suffix isSpace).subset
          (literal_subset hrest))
  have htrim := hspec.mono (List.Subset.trans (trim_subset _) (dropColon_subset _))
  unfold Transpile.exceptText
  dsimp only
  split
  · exact .of_all (by decide)
  · exact ((OneLine.of_all (by decide)).append htrim).append (.of_all (by decide))

theorem forText (h : OneLine t) : OneLine (forText t) := by
  rcases forText_cases t with hother | ⟨a, ha, hmem⟩
  · rw [hother]
    exact .of_all (by decide)
  · rw [ha]
    refine append (fun hnewline => ?_) (.of_all (by decide))
    exact (hmem _ hnewline).elim h fun hconst => absurd hconst (by decide)

theorem openerText (h : OneLine t) : OneLine (openerText t) := by
  unfold Transpile.openerText
  have hcond : ∀ word, OneLine (Transpile.trim (dropWord word t)) := fun word =>
    h.mono (List.Subset.trans (trim_subset _) (dropWord_subset word t))
  have hconst : ∀ {t : Text}, t.all (· ≠ '\n') = true → OneLine t := of_all
  repeat' split
  · exact ((hconst (by decide)).append (hcond _)).append (hconst (by decide))
  · exact h.forText
  · exact ((hconst (by decide)).append (hcond _)).append (hconst (by decide))
  · exact hconst (by decide)
  · exact hconst (by decide)
  · exact hconst (by decide)
  · exact h.append (hconst (by decide))

theorem emitted (h : OneLine t) : OneLine (emitted t).text := by
  unfold Transpile.emitted
  repeat' split
  · exact h.elifText
  · exact .of_all (by decide)
  · exact h.exceptText
  · exact .of_all (by decide)
  · exact OneLine.openerText (h.mono (List.dropLast_subset t))
  · exact h.statementText

theorem spaces (n : Nat) : OneLine (List.replicate n ' ') := fun hmem =>
  absurd (List.eq_of_mem_replicate hmem) (by decide)

end OneLine

/-! ## The loop -/

def State.OneLine (st : State) : Prop := ∀ l ∈ st.out, Transpile.OneLine l

theorem oneLine_closer (n : Nat) : OneLine (closer n) := (OneLine.spaces n).append (.of_all (by decide))

theorem closeBlocks_oneLine (indent : Nat) : ∀ (stack : List Nat) (out : List Text),
    (∀ l ∈ out, OneLine l) → (closeBlocks indent out stack).OneLine
  | [], _, h => h
  | [_], _, h => h
  | top :: next :: rest, out, h => by
      rw [closeBlocks]
      split
      · exact closeBlocks_oneLine indent (next :: rest) (closer next :: out)
          (List.forall_mem_cons.mpr ⟨oneLine_closer next, h⟩)
      · exact h

theorem closeAll_oneLine : ∀ (stack : List Nat) (out : List Text),
    (∀ l ∈ out, OneLine l) → ∀ l ∈ closeAll out stack, OneLine l
  | [], _, h => h
  | [_], _, h => h
  | _ :: next :: rest, out, h => closeAll_oneLine (next :: rest) (closer next :: out)
      (List.forall_mem_cons.mpr ⟨oneLine_closer next, h⟩)

theorem pushContinued_oneLine {pfx text : Text} (hpfx : OneLine pfx) (htext : OneLine text)
    {out : List Text} (h : ∀ l ∈ out, OneLine l) :
    ∀ l ∈ pushContinued pfx text out, OneLine l := by
  have hnew : OneLine (pfx ++ "\x7d ".toList ++ text) :=
    (hpfx.append (.of_all (by decide))).append htext
  cases out with
  | nil => exact List.forall_mem_cons.mpr ⟨hnew, h⟩
  | cons last out =>
      rw [pushContinued]
      obtain ⟨hlast, hout⟩ := List.forall_mem_cons.mp h
      split
      · exact List.forall_mem_cons.mpr
          ⟨hlast.append ((OneLine.of_all (t := [' ']) (by decide)).append htext), hout⟩
      · exact List.forall_mem_cons.mpr ⟨hnew, h⟩

theorem push_oneLine (indent : Nat) {st : State} (h : st.OneLine) {e : Emitted}
    (he : OneLine e.text) : (push indent st e).OneLine := by
  cases e with
  | continues t => exact pushContinued_oneLine (.spaces indent) he h
  | opens t => exact List.forall_mem_cons.mpr ⟨(OneLine.spaces indent).append he, h⟩
  | statement t => exact List.forall_mem_cons.mpr ⟨(OneLine.spaces indent).append he, h⟩

theorem step_oneLine {st : State} (h : st.OneLine) {l : Text} (hl : OneLine l) :
    (step st l).OneLine := by
  have hcleaned : OneLine (cleaned l) := hl.mono (cleaned_subset l)
  have hnil : OneLine [] := List.not_mem_nil
  rw [step]
  split
  · exact List.forall_mem_cons.mpr ⟨hnil, h⟩
  · have hclosed := closeBlocks_oneLine (getIndent l) st.indentStack st.out h
    dsimp only
    split
    · exact List.forall_mem_cons.mpr ⟨hnil, hclosed⟩
    · exact push_oneLine _ hclosed hcleaned.keywords.emitted

theorem out_oneLine {lines : List Text} (h : ∀ l ∈ lines, OneLine l) :
    ∀ l ∈ out lines, OneLine l := by
  have hrun : ∀ {st : State}, st.OneLine → (lines.foldl step st).OneLine := by
    induction lines with
    | nil => exact fun hst => hst
    | cons l lines ih =>
        obtain ⟨hl, hlines⟩ := List.forall_mem_cons.mp h
        exact fun hst => ih hlines (step_oneLine hst hl)
  have hstart : State.OneLine ⟨[], [0]⟩ := fun l hl => absurd hl List.not_mem_nil
  exact fun l hl => closeAll_oneLine _ _ (hrun hstart) l (List.mem_reverse.mp hl)

end VidhiArena.Browser.Transpile
