import VidhiArena.Forge.NativeStrategy

/-!
# Runs of a transpiled strategy

A strategy in Python, tick after tick, in the fragment `Stmt`: plain assignments to names and to
fields of `state`, calls of `orders`, `if` and `for … in range`, with no call inside an
expression. As its author reads it, it sees the fields of the snapshot and the fields of its
own, which keep what it has assigned to them in whole millionths, and calls `orders`. What runs
is the array program under one of the hosts, with the arrays of the last tick.

Both give the same run (`transpiled_strategy_refines`), if every answer comes in time and the
strategy reads of the market what the host serves: every field of its own holds what it would
hold, and step 6 executes the calls that are left in the slots. If no call stands in a loop and
there are four at most in the text, that is all of them under the loader.
-/

namespace VidhiArena.Forge

open VidhiArena.Foundation VidhiArena.GameMaster VidhiArena.Sandbox

/-! ## What a program reads -/

section Reading

variable {M : Machine} {q : StateName → Bool}

def OrderCall.readsAll (q : StateName → Bool) : OrderCall M → Bool
  | .limitBuy price volume | .limitSell price volume => price.readsAll q && volume.readsAll q
  | .marketBuy e | .marketSell e | .cancel e => e.readsAll q

/-- Every name that is read on `state` is one that `q` allows. -/
def Stmt.readsAll (q : StateName → Bool) : Stmt M → Bool
  | .pass => true
  | .assign _ e => e.readsAll q
  | .assignState _ e => e.readsAll q
  | .order call => call.readsAll q
  | .seq s t => s.readsAll q && t.readsAll q
  | .ite test body orelse => test.readsAll q && (body.readsAll q && orelse.readsAll q)
  | .forRange _ args body => Expr.readsAllOf q args && body.readsAll q

section

variable {A : Type} {r : A → Bool} {value value' : A → M.Value}

mutual

theorem Expr.eval_congr (h : ∀ a, r a = true → value a = value' a) (locals : String → M.Value) :
    ∀ e : Expr M A, e.readsAll r = true → e.eval value locals = e.eval value' locals
  | .const _, _ => rfl
  | .var _, _ => rfl
  | .read a, ha => h a ha
  | .op o args, hargs => congrArg (M.apply o) (Expr.evalAll_congr h locals args hargs)

theorem Expr.evalAll_congr (h : ∀ a, r a = true → value a = value' a)
    (locals : String → M.Value) : ∀ es : List (Expr M A), Expr.readsAllOf r es = true →
      Expr.evalAll value locals es = Expr.evalAll value' locals es
  | [], _ => rfl
  | e :: es, hes => by
      obtain ⟨he, hrest⟩ := Bool.and_eq_true_iff.mp hes
      exact congrArg₂ List.cons (Expr.eval_congr h locals e he)
        (Expr.evalAll_congr h locals es hrest)

end

end

/-- Two states that differ in attributes nobody asks for. -/
structure Env.Agrees (q : StateName → Bool) (env env' : Env M) : Prop where
  locals : env.locals = env'.locals
  attrs : ∀ name, q name = true → env.attrs name = env'.attrs name
  calls : env.calls = env'.calls

variable {env env' : Env M}

theorem Env.Agrees.eval (h : env.Agrees q env') {e : Expr M StateName} (he : e.readsAll q = true) :
    env.eval e = env'.eval e := by
  unfold Env.eval
  rw [h.locals]
  exact Expr.eval_congr h.attrs _ e he

theorem Env.Agrees.bind (h : env.Agrees q env') (x : String) (v : M.Value) :
    Env.Agrees q { env with locals := Function.update env.locals x v }
      { env' with locals := Function.update env'.locals x v } :=
  ⟨congrArg (Function.update · x v) h.locals, h.attrs, h.calls⟩

theorem Env.Agrees.orderWord (h : env.Agrees q env') {call : OrderCall M}
    (hcall : call.readsAll q = true) : env.orderWord call = env'.orderWord call := by
  cases call with
  | limitBuy price volume | limitSell price volume =>
      obtain ⟨hprice, hvolume⟩ := Bool.and_eq_true_iff.mp hcall
      simp only [Env.orderWord, h.eval hprice, h.eval hvolume]
  | marketBuy e | marketSell e | cancel e =>
      have he : e.readsAll q = true := hcall
      simp only [Env.orderWord, h.eval he]

theorem Stmt.run_congr : ∀ {s : Stmt M} {site : Nat} {env env' : Env M}, s.readsAll q = true →
    env.Agrees q env' → (s.run site env).Agrees q (s.run site env') := by
  intro s
  induction s with
  | pass => exact fun _ h => h
  | assign x e =>
      intro site env env' hreads h
      simp only [Stmt.run]
      rw [h.eval hreads]
      exact h.bind x _
  | assignState name e =>
      intro site env env' hreads h
      simp only [Stmt.run]
      rw [h.eval hreads]
      refine ⟨h.locals, fun name' hname' => ?_, h.calls⟩
      dsimp only
      rw [Function.update_apply, Function.update_apply, h.attrs name' hname']
  | order call =>
      intro site env env' hreads h
      simp only [Stmt.run]
      rw [h.orderWord hreads, h.calls]
      exact ⟨h.locals, h.attrs, rfl⟩
  | seq s t ihs iht =>
      intro site env env' hreads h
      obtain ⟨hs, ht⟩ := Bool.and_eq_true_iff.mp hreads
      exact iht ht (ihs hs h)
  | ite test body orelse ihb iho =>
      intro site env env' hreads h
      obtain ⟨htest, hbranches⟩ := Bool.and_eq_true_iff.mp hreads
      obtain ⟨hb, ho⟩ := Bool.and_eq_true_iff.mp hbranches
      simp only [Stmt.run, h.eval htest]
      split
      · exact ihb hb h
      · exact iho ho h
  | forRange x args body ih =>
      intro site env env' hreads h
      obtain ⟨hargs, hbody⟩ := Bool.and_eq_true_iff.mp hreads
      have hrange : Expr.evalAll env.attrs env.locals args =
          Expr.evalAll env'.attrs env'.locals args := by
        rw [h.locals]
        exact Expr.evalAll_congr h.attrs _ args hargs
      simp only [Stmt.run, hrange]
      exact List.foldl_rel h fun v _ env env' h => ih hbody (h.bind x v)

end Reading

/-! ## The order of the calls -/

section Order

variable {M : Machine}

/-- No call of `orders` stands in a loop. -/
def Stmt.unlooped : Stmt M → Bool
  | .pass | .assign _ _ | .assignState _ _ | .order _ => true
  | .seq s t => s.unlooped && t.unlooped
  | .ite _ body orelse => body.unlooped && orelse.unlooped
  | .forRange _ _ body => body.sites = 0

theorem Stmt.calls_of_sites : ∀ {s : Stmt M} {site : Nat} {env : Env M}, s.sites = 0 →
    (s.run site env).calls = env.calls := by
  intro s
  induction s with
  | pass => exact fun _ => rfl
  | assign x e => exact fun _ => rfl
  | assignState name e => exact fun _ => rfl
  | order call => exact fun h => absurd h Nat.one_ne_zero
  | seq s t ihs iht =>
      intro site env h
      obtain ⟨hs, ht⟩ := Nat.add_eq_zero_iff.mp h
      exact (iht ht).trans (ihs hs)
  | ite test body orelse ihb iho =>
      intro site env h
      obtain ⟨hb, ho⟩ := Nat.add_eq_zero_iff.mp h
      unfold Stmt.run
      split
      · exact ihb hb
      · exact iho ho
  | forRange x args body ih =>
      intro site env h
      unfold Stmt.run
      refine List.foldlRecOn (motive := fun env' : Env M => env'.calls = env.calls) _ _ rfl ?_
      exact fun env' henv v _ => (ih h).trans henv

/-- The calls of a part of the text: each once at most, in its order. -/
def Stmt.CallsWithin (site sites : Nat) (calls : List (Nat × OrderWord)) : Prop :=
  calls.Pairwise (fun c d => c.1 < d.1) ∧ ∀ c ∈ calls, site ≤ c.1 ∧ c.1 < site + sites

theorem Stmt.calls_unlooped : ∀ {s : Stmt M} {site : Nat} {env : Env M}, s.unlooped = true →
    ∃ calls, (s.run site env).calls = env.calls ++ calls ∧ CallsWithin site s.sites calls := by
  have hnone : ∀ {site sites : Nat}, CallsWithin site sites [] :=
    ⟨List.Pairwise.nil, fun _ hc => absurd hc List.not_mem_nil⟩
  intro s
  induction s with
  | pass => exact fun _ => ⟨[], (List.append_nil _).symm, hnone⟩
  | assign x e => exact fun _ => ⟨[], (List.append_nil _).symm, hnone⟩
  | assignState name e => exact fun _ => ⟨[], (List.append_nil _).symm, hnone⟩
  | order call =>
      intro site env _
      refine ⟨[(site, env.orderWord call)], rfl, List.pairwise_singleton _ _, fun c hc => ?_⟩
      rw [List.mem_singleton.mp hc]
      exact ⟨le_rfl, Nat.lt_succ_self site⟩
  | seq s t ihs iht =>
      intro site env h
      obtain ⟨hs, ht⟩ := Bool.and_eq_true_iff.mp h
      obtain ⟨calls, hcalls, hsorted, hwithin⟩ := @ihs site env hs
      obtain ⟨calls', hcalls', hsorted', hwithin'⟩ := @iht (site + s.sites) (s.run site env) ht
      refine ⟨calls ++ calls', ?_, ?_, fun c hc => ?_⟩
      · rw [Stmt.run, hcalls', hcalls, List.append_assoc]
      · refine List.pairwise_append.mpr ⟨hsorted, hsorted', fun c hc d hd => ?_⟩
        exact Nat.lt_of_lt_of_le (hwithin c hc).2 (hwithin' d hd).1
      · rw [Stmt.sites]
        rcases List.mem_append.mp hc with hc | hc
        · have := hwithin c hc
          omega
        · have := hwithin' c hc
          omega
  | ite test body orelse ihb iho =>
      intro site env h
      obtain ⟨hb, ho⟩ := Bool.and_eq_true_iff.mp h
      unfold Stmt.run
      rw [Stmt.sites]
      split
      · obtain ⟨calls, hcalls, hsorted, hwithin⟩ := @ihb site env hb
        refine ⟨calls, hcalls, hsorted, fun c hc => ?_⟩
        have := hwithin c hc
        omega
      · obtain ⟨calls, hcalls, hsorted, hwithin⟩ := @iho (site + body.sites) env ho
        refine ⟨calls, hcalls, hsorted, fun c hc => ?_⟩
        have := hwithin c hc
        omega
  | forRange x args body ih =>
      intro site env h
      have hsites : (Stmt.forRange x args body).sites = 0 := of_decide_eq_true h
      exact ⟨[], (Stmt.calls_of_sites hsites).trans (List.append_nil _).symm, hnone⟩

theorem Stmt.ascending_unlooped {p : Stmt M} {locals : String → M.Value}
    {attrs : StateName → M.Value} (h : p.unlooped = true) (hsites : p.sites ≤ 4) :
    Ascending (p.run 0 ⟨locals, attrs, []⟩).calls := by
  obtain ⟨calls, hcalls, hsorted, hwithin⟩ := @Stmt.calls_unlooped M p 0 ⟨locals, attrs, []⟩ h
  rw [hcalls, List.nil_append]
  refine hsorted.imp_of_mem fun {c d} hc hd hlt => ?_
  have hc := (hwithin c hc).2
  have hd := (hwithin d hd).2
  rwa [Nat.mod_eq_of_lt (by omega), Nat.mod_eq_of_lt (by omega)]

end Order

/-! ## Ticks -/

section Ticks

variable {M : Machine}

/-- A tick that is answered in time: the words that step 6 finds, and the state. -/
def Host.onPythonTick (host : Host) (code : Code M) (locals : String → M.Value) (s : HostState)
    (p : Publication) : List OrderWord × HostState :=
  let page := p.publish s.page
  let md := host.view page s.md
  let out := Forge.onTick code locals md (host.orderOut page s.out)
  let page := host.answered page out
  ((sharedMem page).pending, ⟨page, md, out⟩)

/-- What a contestant is told about `state`: the snapshot, and the fields of his own. -/
def told (M : Machine) (sm : SharedMem) (own : Fin 12 → M.Value) : StateName → M.Value
  | .market f => meaning M.toNumerals sm f
  | .out (.persistent j) => own j
  | .out .orderCount | .out (.order _ _) | .other _ => M.zero

/-- A tick of the program as it is written: its calls, and what it leaves in its fields. -/
def Stmt.tick (p : Stmt M) (locals : String → M.Value) (own : Fin 12 → M.Value)
    (publication : Publication) : List (Nat × OrderWord) × (Fin 12 → M.Value) :=
  let env := p.run 0 ⟨locals, told M (sharedMem (publication.publish .zero)) own, []⟩
  (env.calls, fun j => env.attrs (.out (.persistent j)))

/-- The names that mean under a host what they say. -/
def Host.lends (host : Host) : StateName → Bool
  | .market f => host.serves f
  | .out (.persistent _) => true
  | .out .orderCount | .out (.order _ _) | .other _ => false

/-- The calls that a host hands over: those that are left in the slots; of these the runner
hides the ones behind the count. -/
def Host.keeps : Host → List (Nat × OrderWord) → List (Nat × OrderWord)
  | loader, calls => survivors calls
  | sandboxRunner, calls => (survivors calls).filter fun c =>
      ((c.1 % 4 : Nat) : Int) < (Int64.ofNat calls.length).toInt

/-! ### One tick -/

theorem Host.agrees (host : Host) {f : Field} (h : host.serves f = true) :
    Agrees M.toNumerals host f := by
  cases host with
  | loader => exact loader_agrees_iff.mpr h
  | sandboxRunner => exact sandboxRunner_agrees_iff.mpr h

/-- No host serves the number of the fills; the other fields are in the market block. -/
theorem meaning_served (host : Host) {f : Field} (h : host.serves f = true) (p : Publication)
    (page : Page) : meaning M.toNumerals (sharedMem (p.publish page)) f =
      meaning M.toNumerals (sharedMem (p.publish .zero)) f := by
  cases f with
  | fillCount => cases host <;> cases h
  | _ => rfl

variable {p : Stmt M} {code : Code M} {idx : Nat} {locals : String → M.Value}

/-- Under the runner the Game Master executes those of the surviving calls that it sees. -/
theorem executed_sandboxRunner (hproper : p.proper = true)
    (hcode : p.transpile 0 = .ok (code, idx)) (md oo : Slots) (page : Page) :
    executed .sandboxRunner page (onTick code locals md oo) =
      (Host.sandboxRunner.keeps (callsOf p locals md oo)).map Prod.snd := by
  obtain ⟨hcount, hslots⟩ := onTick_slots hproper hcode locals md oo
  have hwords : (List.range 4).map (orderAt (onTick code locals md oo)) =
      (List.range 4).map (placed (callsOf p locals md oo)) :=
    List.map_congr_left fun i hi => hslots i (List.mem_range.mp hi)
  have hseen : ∀ n, (List.range 4).take n = (List.range 4).filter (· < n) := by
    intro n
    by_cases hn : n ≤ 4
    · revert n
      decide
    · rw [List.take_of_length_le (by rw [List.length_range]; omega)]
      refine (List.filter_eq_self.mpr fun i hi => decide_eq_true ?_).symm
      have := List.mem_range.mp hi
      omega
  unfold executed
  rw [pending_sandboxRunner, hwords, ← List.map_take, filter_placed callsOf_isOrder rfl, hcount,
    hseen, List.filterMap_filter, Host.keeps, survivors, List.filter_filterMap]
  refine congrArg _ (List.filterMap_congr fun i hi => ?_)
  have hlt := lt_min_count (Int64.ofNat (callsOf p locals md oo).length) (List.mem_range.mp hi)
  cases hlast : lastCall (callsOf p locals md oo) i with
  | none => simp
  | some c =>
      rw [← (lastCall_mem hlast).2] at hlt ⊢
      simp only [hlt, Option.filter_some, decide_eq_true_eq]

variable (locals) in
theorem executed_keeps (host : Host) (hproper : p.proper = true)
    (hcode : p.transpile 0 = .ok (code, idx)) (md oo : Slots) (page : Page) :
    executed host page (onTick code locals md oo) =
      (host.keeps (callsOf p locals md oo)).map Prod.snd := by
  cases host with
  | loader => exact executed_loader hproper hcode locals md oo page
  | sandboxRunner => exact executed_sandboxRunner hproper hcode md oo page

/-- The host's arrays hold what the program has left. -/
structure HostState.Carries (host : Host) (s : HostState) (own : Fin 12 → M.Value) : Prop where
  market : ∃ history, ∀ page, host.view page s.md = host.marketData history page
  own : ∀ j : Fin 12, M.scaled (host.orderOut s.page s.out (48 + j)) = own j

theorem carries_init (host : Host) : HostState.Carries host .init fun _ => M.scaled 0 := by
  refine ⟨⟨[], fun page => ?_⟩, fun j => congrArg M.scaled ?_⟩
  · cases host <;> rfl
  · cases host with
    | loader => exact if_neg (by omega)
    | sandboxRunner => rfl

theorem view_marketData {host : Host} {md : Slots} {history : List Page}
    (h : ∀ page, host.view page md = host.marketData history page) (page page' : Page) :
    host.view page' (host.view page md) = host.marketData (history ++ [page]) page' := by
  cases host with
  | sandboxRunner => rfl
  | loader =>
      have hpage := h page
      simp only [Host.view, Host.marketData, List.foldl_append, List.foldl_cons,
        List.foldl_nil] at hpage ⊢
      rw [hpage]

variable (locals) in
theorem HostState.Carries.onPythonTick {host : Host} {s : HostState} {own : Fin 12 → M.Value}
    (h : s.Carries host own) (hproper : p.proper = true) (hreads : p.readsAll host.lends = true)
    (hcode : p.transpile 0 = .ok (code, idx)) (publication : Publication) :
    (host.onPythonTick code locals s publication).1.filter isOrder =
        (host.keeps (p.tick locals own publication).1).map Prod.snd ∧
      (host.onPythonTick code locals s publication).2.Carries host
        (p.tick locals own publication).2 := by
  let page := publication.publish s.page
  let md := host.view page s.md
  let oo := host.orderOut page s.out
  let env : Env M := ⟨locals, attrsOf M md oo, []⟩
  let written : Env M := ⟨locals, told M (sharedMem (publication.publish .zero)) own, []⟩
  obtain ⟨history, hview⟩ := h.market
  have hstart : env.Agrees host.lends written := by
    refine ⟨rfl, fun name hname => ?_, rfl⟩
    cases name with
    | market f =>
        refine Eq.trans ?_ ((host.agrees hname history page).trans
          (meaning_served host hname publication s.page))
        exact congrArg (fun md => (marketRead f).eval M.toNumerals md) (hview page)
    | other name => cases hname
    | out o =>
        cases o with
        | orderCount => cases hname
        | order i k => cases hname
        | persistent j =>
            refine Eq.trans (congrArg M.scaled ?_) (h.own j)
            exact congrFun (orderOut_publish host publication s.page s.out) _
  have hend := @Stmt.run_congr _ _ _ 0 _ _ hreads hstart
  have hidx : p.transpile (0 % 4) = .ok (code, idx) := hcode
  have hsim := transpile_simulates hproper hidx (simulates_start locals md oo)
  constructor
  · have hexecuted := executed_keeps locals host hproper hcode md oo page
    rw [show callsOf p locals md oo = (p.tick locals own publication).1 from hend.calls]
      at hexecuted
    exact hexecuted
  · refine ⟨⟨history ++ [page], view_marketData hview page⟩, fun j => ?_⟩
    have hkept : host.orderOut (host.answered page (onTick code locals md oo))
        (onTick code locals md oo) (48 + j) = onTick code locals md oo (48 + j) := by
      cases host with
      | loader => exact if_neg (by omega)
      | sandboxRunner => rfl
    refine (congrArg M.scaled hkept).trans ?_
    exact (hsim.attrs (.out (.persistent j)) _ rfl rfl).trans (hend.attrs _ rfl)

end Ticks

/-! ## Runs -/

/-- A transpiled strategy runs as it is written. It reads of the market what the host
serves, names no order slot and assigns to its own fields only. Then, whatever the Game Master
publishes, if every answer comes in time: step 6 executes in every tick the calls that the
strategy makes, as far as the host keeps them, and the fields of the strategy hold what it has
left in them, cut to whole millionths. The loader keeps every call, if there are four at most
in the text and none in a loop. -/
theorem transpiled_strategy_refines {M : Machine} {p : Stmt M} {code : Code M} {idx : Nat}
    (host : Host) (hproper : p.proper = true) (hreads : p.readsAll host.lends = true)
    (hcode : p.transpile 0 = .ok (code, idx)) (locals : String → M.Value)
    (ps : List Publication) :
    let hosted := traceFrom (host.onPythonTick code locals) .init ps
    let written := traceFrom (p.tick locals) (fun _ => M.scaled 0) ps
    hosted.1.map processOrders =
        written.1.map (fun calls => processOrders ((host.keeps calls).map Prod.snd)) ∧
      (∀ j : Fin 12, M.scaled (host.orderOut hosted.2.page hosted.2.out (48 + j)) = written.2 j) ∧
      (host = .loader → p.unlooped = true → p.sites ≤ 4 →
        hosted.1.map processOrders =
          written.1.map fun calls => processOrders (calls.map Prod.snd)) := by
  intro hosted written
  have hstep : ∀ (s : HostState) (own : Fin 12 → M.Value) (publication : Publication),
      s.Carries host own →
        processOrders (host.onPythonTick code locals s publication).1 =
            processOrders ((host.keeps (p.tick locals own publication).1).map Prod.snd) ∧
          (host.onPythonTick code locals s publication).2.Carries host
            (p.tick locals own publication).2 := by
    intro s own publication h
    obtain ⟨hwords, hnext⟩ := h.onPythonTick locals hproper hreads hcode publication
    refine ⟨?_, hnext⟩
    rw [← processOrders_filter, hwords]
  obtain ⟨horders, hfields⟩ := traceFrom_sim (HostState.Carries host) processOrders
    (fun calls : List (Nat × OrderWord) => processOrders ((host.keeps calls).map Prod.snd)) hstep ps
    (carries_init host)
  refine ⟨horders, hfields.own, fun hhost hunlooped hsites => ?_⟩
  subst hhost
  refine (traceFrom_sim (HostState.Carries .loader) processOrders
    (fun calls : List (Nat × OrderWord) => processOrders (calls.map Prod.snd))
    (fun s own publication h => ?_) ps (carries_init .loader)).1
  obtain ⟨htick, hnext⟩ := hstep s own publication h
  refine ⟨?_, hnext⟩
  -- every call has a slot of its own
  have hslots : Ascending (p.tick locals own publication).1 :=
    Stmt.ascending_unlooped hunlooped hsites
  rw [htick, Host.keeps, hslots.survivors_eq]

/-- `state.s0 = state.s0 + 1`, an offer of two shares at the ask, and from the second tick on
`orders.market_buy(state.s0)`. -/
def countAndBuy : Stmt Machine.exact :=
  let own : Expr Machine.exact StateName := .read (.out (.persistent 4))
  .seq (.assignState (.out (.persistent 4)) (.op ExactOp.add [own, lit 1]))
    (.seq (.order (.limitSell (.read (.market .askPrice)) (lit 2)))
      (.ite (.op ExactOp.less [lit 1, own]) (.order (.marketBuy own)) .pass))

/-- The second answer buys two shares: the field has kept the count. -/
theorem transpiled_strategy_refines_count :
    ∃ code idx, countAndBuy.transpile 0 = .ok (code, idx) ∧
      let hosted := traceFrom (Host.loader.onPythonTick code noLocals) .init twoTicks
      hosted.1.map processOrders =
        [processOrders [⟨2, 100500000, 2, 0⟩],
          processOrders [⟨2, 100500000, 2, 0⟩, ⟨3, 0, 2, 0⟩]] ∧
        (Machine.exact.scaled (hosted.2.out 52)).toRat = 2 := by
  obtain ⟨⟨code, idx⟩, hcode⟩ : ∃ r, countAndBuy.transpile 0 = .ok r := ⟨_, rfl⟩
  obtain ⟨-, hfields, hcalls⟩ := transpiled_strategy_refines .loader (by decide) (by decide) hcode
    noLocals twoTicks
  refine ⟨code, idx, hcode, (hcalls rfl (by decide) (by decide)).trans ?_, ?_⟩
  · have hcalls : (traceFrom (countAndBuy.tick noLocals) (fun _ => Machine.exact.scaled 0)
        twoTicks).1.map (List.map Prod.snd) =
          [[⟨2, 100500000, 2, 0⟩], [⟨2, 100500000, 2, 0⟩, ⟨3, 0, 2, 0⟩]] := by
      decide +kernel
    exact (List.map_map ..).symm.trans (congrArg (List.map processOrders) hcalls)
  · refine (congrArg Exact.toRat (hfields 4)).trans ?_
    decide +kernel

end VidhiArena.Forge
