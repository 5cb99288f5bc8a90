import VidhiArena.Forge.MarketView
import VidhiArena.Foundation.Faulting

/-!
# The transpiler

`transpile` of `backend/forge/transpiler.py`, from the strategies that a contestant
writes to the array program that `forge.py` compiles. The source language has
assignments, branches, loops over `range` and the calls of `orders`; `elif` is an `if`
in the `else`. The operators of Python are left alone by the transpiler, so they and
the numbers are parameters (`Machine`).

The calls of `orders` are numbered in the order of the source text, and that number,
not the time of the call, decides which order slot a call writes (`visit_Call`). Source
and target are both given a meaning by recursion on the program; `Simulates` relates
their states, and `transpile_simulates` is the simulation.
-/

namespace VidhiArena.Forge

open VidhiArena.Foundation VidhiArena.GameMaster VidhiArena.Sandbox

/-! ## Expressions -/

/-- The arithmetic of the compiled program. -/
structure Machine extends Numerals where
  /-- the literal `0.0` -/
  zero : Value
  /-- `int(v * 1000000.0)` -/
  fixed : Value → Int64
  /-- `int(v)`, and the word that a slot keeps of `v` -/
  whole : Value → Int64
  fixed_zero : fixed zero = 0
  /-- the truth of a test -/
  truth : Value → Bool
  /-- the values of `range(...)` -/
  range : List Value → List Value
  /-- operators, comparisons, functions -/
  Op : Type
  apply : Op → List Value → Value

/-- Expressions over reads of kind `A`. -/
inductive Expr (M : Machine) (A : Type) where
  | const (v : M.Value)
  | var (x : String)
  | read (a : A)
  | op (o : M.Op) (args : List (Expr M A))

section Expressions

variable {M : Machine} {A B : Type}

mutual

def Expr.eval (value : A → M.Value) (locals : String → M.Value) : Expr M A → M.Value
  | .const v => v
  | .var x => locals x
  | .read a => value a
  | .op o args => M.apply o (Expr.evalAll value locals args)

def Expr.evalAll (value : A → M.Value) (locals : String → M.Value) : List (Expr M A) → List M.Value
  | [] => []
  | e :: es => e.eval value locals :: Expr.evalAll value locals es

end

mutual

/-- Every read is one that `p` allows. -/
def Expr.readsAll (p : A → Bool) : Expr M A → Bool
  | .const _ => true
  | .var _ => true
  | .read a => p a
  | .op _ args => Expr.readsAllOf p args

def Expr.readsAllOf (p : A → Bool) : List (Expr M A) → Bool
  | [] => true
  | e :: es => e.readsAll p && Expr.readsAllOf p es

end

mutual

/-- `generic_visit`, with `visit` for the reads. -/
def Expr.transpile (visit : A → Except String B) : Expr M A → Except String (Expr M B)
  | .const v => .ok (.const v)
  | .var x => .ok (.var x)
  | .read a => return .read (← visit a)
  | .op o args => return .op o (← Expr.transpileAll visit args)

def Expr.transpileAll (visit : A → Except String B) :
    List (Expr M A) → Except String (List (Expr M B))
  | [] => .ok []
  | e :: es => return (← e.transpile visit) :: (← Expr.transpileAll visit es)

end

end Expressions

/-! ## The names on `state` -/

/-- The names of `ORDER_OUT_SLOTS`: `order_count`, word `k` of order `i`, and the fields
that persist, from `ema_fast` to `s7`. -/
inductive OutField where
  | orderCount
  | order (i k : Fin 4)
  | persistent (j : Fin 12)
deriving DecidableEq

/-- `ORDER_OUT_SLOTS`. -/
def OutField.slot : OutField → Nat
  | orderCount => 0
  | order i k => 1 + 4 * i + k
  | persistent j => 48 + j

inductive StateName where
  | market (f : Field)
  | out (o : OutField)
  | other (name : String)
deriving DecidableEq

/-- A read of one of the two arrays. -/
inductive Read where
  | market (r : MarketRead)
  /-- `_oo[slot] / 1000000.0` -/
  | out (slot : Nat)
deriving DecidableEq

/-- `_market_read`. -/
def visitAttribute : StateName → Except String Read
  | .market f => .ok (.market (marketRead f))
  | .out o => .ok (.out o.slot)
  | .other name => .error ("Unknown state field: '" ++ name ++ "'")

def Read.eval (M : Machine) (md oo : Slots) : Read → M.Value
  | .market r => r.eval M.toNumerals md
  | .out slot => M.scaled (oo slot)

/-! ## Source programs -/

inductive OrderCall (M : Machine) where
  | limitBuy (price volume : Expr M StateName)
  | limitSell (price volume : Expr M StateName)
  | marketBuy (volume : Expr M StateName)
  | marketSell (volume : Expr M StateName)
  | cancel (orderId : Expr M StateName)

inductive Stmt (M : Machine) where
  | pass
  | assign (x : String) (e : Expr M StateName)
  /-- `state.name = e` -/
  | assignState (name : StateName) (e : Expr M StateName)
  | order (call : OrderCall M)
  | seq (s t : Stmt M)
  | ite (test : Expr M StateName) (body orelse : Stmt M)
  /-- `for x in range(args)` -/
  | forRange (x : String) (args : List (Expr M StateName)) (body : Stmt M)

/-- The state of a source program: its variables, the attributes of `state`, and the
calls of `orders` so far, each with its number in the source text. -/
structure Env (M : Machine) where
  locals : String → M.Value
  attrs : StateName → M.Value
  calls : List (Nat × OrderWord)

namespace Env

variable {M : Machine}

def eval (env : Env M) (e : Expr M StateName) : M.Value := e.eval env.attrs env.locals

def orderWord (env : Env M) : OrderCall M → OrderWord
  | .limitBuy price volume => ⟨1, M.fixed (env.eval price), M.whole (env.eval volume), 0⟩
  | .limitSell price volume => ⟨2, M.fixed (env.eval price), M.whole (env.eval volume), 0⟩
  | .marketBuy volume => ⟨3, 0, M.whole (env.eval volume), 0⟩
  | .marketSell volume => ⟨4, 0, M.whole (env.eval volume), 0⟩
  | .cancel orderId => ⟨5, 0, 0, M.whole (env.eval orderId)⟩

/-- What an attribute holds after an assignment: the persistent fields are words in
fixed point. -/
def kept (M : Machine) : StateName → M.Value → M.Value
  | .out (.persistent _), v => M.scaled (M.fixed v)
  | _, v => v

end Env

namespace Stmt

variable {M : Machine}

/-- The number of calls of `orders` in the text. -/
def sites : Stmt M → Nat
  | pass | assign _ _ | assignState _ _ => 0
  | order _ => 1
  | seq s t => s.sites + t.sites
  | ite _ body orelse => body.sites + orelse.sites
  | forRange _ _ body => body.sites

/-- The source program; `site` is the number of the first call in it. -/
def run (site : Nat) : Stmt M → Env M → Env M
  | pass, env => env
  | assign x e, env => { env with locals := Function.update env.locals x (env.eval e) }
  | assignState name e, env =>
      { env with attrs := Function.update env.attrs name (Env.kept M name (env.eval e)) }
  | order call, env => { env with calls := env.calls ++ [(site, env.orderWord call)] }
  | seq s t, env => t.run (site + s.sites) (s.run site env)
  | ite test body orelse, env =>
      if M.truth (env.eval test) then body.run site env else orelse.run (site + body.sites) env
  | forRange x args body, env =>
      (M.range (Expr.evalAll env.attrs env.locals args)).foldl
        (fun env v => body.run site { env with locals := Function.update env.locals x v }) env

end Stmt

/-! ## Array programs -/

/-- What is stored into a slot. -/
inductive Stored (M : Machine) where
  | const (w : Int64)
  /-- `int(e * 1000000.0)` -/
  | fixed (e : Expr M Read)
  /-- `int(e)`, or `e` itself -/
  | whole (e : Expr M Read)

inductive Code (M : Machine) where
  | pass
  | assign (x : String) (e : Expr M Read)
  /-- `_oo[slot] = w` -/
  | store (slot : Nat) (w : Stored M)
  /-- `_oo[0] += 1` -/
  | count
  | seq (s t : Code M)
  | ite (test : Expr M Read) (body orelse : Code M)
  | forRange (x : String) (args : List (Expr M Read)) (body : Code M)

structure Frame (M : Machine) where
  locals : String → M.Value
  oo : Slots

namespace Frame

variable {M : Machine}

def eval (frame : Frame M) (md : Slots) (e : Expr M Read) : M.Value :=
  e.eval (Read.eval M md frame.oo) frame.locals

def word (frame : Frame M) (md : Slots) : Stored M → Int64
  | .const w => w
  | .fixed e => M.fixed (frame.eval md e)
  | .whole e => M.whole (frame.eval md e)

@[simp] theorem word_const (frame : Frame M) (md : Slots) (w : Int64) :
    frame.word md (.const w) = w := rfl

def store (frame : Frame M) (slot : Nat) (w : Int64) : Frame M :=
  { frame with oo := Function.update frame.oo slot w }

end Frame

/-- The array program, in a call with the array `md`. -/
def Code.exec {M : Machine} (md : Slots) : Code M → Frame M → Frame M
  | pass, frame => frame
  | assign x e, frame => { frame with locals := Function.update frame.locals x (frame.eval md e) }
  | store slot w, frame => frame.store slot (frame.word md w)
  | count, frame => frame.store 0 (frame.oo 0 + 1)
  | seq s t, frame => t.exec md (s.exec md frame)
  | ite test body orelse, frame =>
      if M.truth (frame.eval md test) then body.exec md frame else orelse.exec md frame
  | forRange x args body, frame =>
      (M.range (Expr.evalAll (Read.eval M md frame.oo) frame.locals args)).foldl
        (fun frame v => body.exec md { frame with locals := Function.update frame.locals x v }) frame

/-! ## The translation -/

section Translation

variable {M : Machine}

/-- `_emit_order` and `_emit_cancel`, after the increment of `order_count`: the four words
from slot `base` on. -/
def emit (base : Nat) (type : Int64) (price volume orderId : Stored M) : Code M :=
  .seq .count (.seq (.store base (.const type)) (.seq (.store (base + 1) price)
    (.seq (.store (base + 2) volume) (.store (base + 3) orderId))))

/-- `visit_Call`, for the order slot `idx`. -/
def OrderCall.transpile (idx : Nat) : OrderCall M → Except String (Code M)
  | .limitBuy price volume => do
      let price ← price.transpile visitAttribute
      let volume ← volume.transpile visitAttribute
      return emit (1 + idx * 4) 1 (.fixed price) (.whole volume) (.const 0)
  | .limitSell price volume => do
      let price ← price.transpile visitAttribute
      let volume ← volume.transpile visitAttribute
      return emit (1 + idx * 4) 2 (.fixed price) (.whole volume) (.const 0)
  | .marketBuy volume => do
      let volume ← volume.transpile visitAttribute
      return emit (1 + idx * 4) 3 (.fixed (.const M.zero)) (.whole volume) (.const 0)
  | .marketSell volume => do
      let volume ← volume.transpile visitAttribute
      return emit (1 + idx * 4) 4 (.fixed (.const M.zero)) (.whole volume) (.const 0)
  | .cancel orderId => do
      let orderId ← orderId.transpile visitAttribute
      return emit (1 + idx * 4) 5 (.const 0) (.const 0) (.whole orderId)

/-- `TranspilerVisitor`: the array program and the next `order_idx`. -/
def Stmt.transpile : Stmt M → Nat → Except String (Code M × Nat)
  | .pass, idx => return (.pass, idx)
  | .assign x e, idx => return (.assign x (← e.transpile visitAttribute), idx)
  | .assignState name e, idx => do
      let e ← e.transpile visitAttribute
      match name with
      | .out o => return (.store o.slot (.fixed e), idx)
      -- a name without a slot: the statement is dropped
      | _ => return (.pass, idx)
  | .order call, idx => return (← call.transpile idx, (idx + 1) % 4)
  | .seq s t, idx => do
      let (s, idx) ← s.transpile idx
      let (t, idx) ← t.transpile idx
      return (.seq s t, idx)
  | .ite test body orelse, idx => do
      let test ← test.transpile visitAttribute
      let (body, idx) ← body.transpile idx
      let (orelse, idx) ← orelse.transpile idx
      return (.ite test body orelse, idx)
  | .forRange x args body, idx => do
      let args ← Expr.transpileAll visitAttribute args
      let (body, idx) ← body.transpile idx
      return (.forRange x args body, idx)

/-- The wrapper of `forge.py`: the order slots are cleared and the program is called. -/
def onTick (code : Code M) (locals : String → M.Value) (md oo : Slots) : Slots :=
  (code.exec md ⟨locals, fun slot => if slot ≤ 16 then 0 else oo slot⟩).oo

/-- `state` at the start of a call: the market view, and the words that persist. -/
def attrsOf (M : Machine) (md oo : Slots) : StateName → M.Value
  | .market f => (marketRead f).eval M.toNumerals md
  | .out o => M.scaled (oo o.slot)
  | .other _ => M.zero

end Translation

/-! ## Expressions are preserved -/

section Preserved

variable {M : Machine} {A B : Type} {visit : A → Except String B} {p : A → Bool}
  {value : A → M.Value} {value' : B → M.Value}

mutual

theorem Expr.eval_transpile
    (h : ∀ a b, p a = true → visit a = .ok b → value' b = value a) (locals : String → M.Value) :
    ∀ (e : Expr M A) (e' : Expr M B), e.readsAll p = true → e.transpile visit = .ok e' →
      e'.eval value' locals = e.eval value locals
  | .const v, e', _, he => by
      cases he
      rfl
  | .var x, e', _, he => by
      cases he
      rfl
  | .read a, e', hp, he => by
      obtain ⟨b, hb, hok⟩ := bind_eq_ok.mp he
      cases hok
      exact h a b hp hb
  | .op o args, e', hp, he => by
      obtain ⟨args', hargs, hok⟩ := bind_eq_ok.mp he
      cases hok
      exact congrArg (M.apply o) (Expr.evalAll_transpile h locals args args' hp hargs)

theorem Expr.evalAll_transpile
    (h : ∀ a b, p a = true → visit a = .ok b → value' b = value a) (locals : String → M.Value) :
    ∀ (es : List (Expr M A)) (es' : List (Expr M B)), Expr.readsAllOf p es = true →
      Expr.transpileAll visit es = .ok es' →
      Expr.evalAll value' locals es' = Expr.evalAll value locals es
  | [], es', _, hes => by
      cases hes
      rfl
  | e :: es, es', hp, hes => by
      obtain ⟨e', he, hrest⟩ := bind_eq_ok.mp hes
      obtain ⟨es'', htail, hok⟩ := bind_eq_ok.mp hrest
      cases hok
      obtain ⟨hpe, hpes⟩ := Bool.and_eq_true_iff.mp hp
      exact congrArg₂ List.cons (Expr.eval_transpile h locals e e' hpe he)
        (Expr.evalAll_transpile h locals es es'' hpes htail)

end

end Preserved

/-! ## Proper programs -/

def StateName.readable : StateName → Bool
  | market _ | out (.persistent _) | other _ => true
  | out .orderCount | out (.order _ _) => false

/-- The fields that are the contestant's own. -/
def StateName.assignable : StateName → Bool
  | out (.persistent _) => true
  | market _ | out .orderCount | out (.order _ _) | other _ => false

section Proper

variable {M : Machine}

def OrderCall.proper : OrderCall M → Bool
  | .limitBuy price volume | .limitSell price volume =>
      price.readsAll StateName.readable && volume.readsAll StateName.readable
  | .marketBuy e | .marketSell e | .cancel e => e.readsAll StateName.readable

/-- The program names no order slot on `state`, and assigns to its persistent fields only. -/
def Stmt.proper : Stmt M → Bool
  | .pass => true
  | .assign _ e => e.readsAll StateName.readable
  | .assignState name e => name.assignable && e.readsAll StateName.readable
  | .order call => call.proper
  | .seq s t => s.proper && t.proper
  | .ite test body orelse => test.readsAll StateName.readable && (body.proper && orelse.proper)
  | .forRange _ args body => Expr.readsAllOf StateName.readable args && body.proper

end Proper

/-! ## The simulation -/

/-- The order in slot `i` of `order_out`. -/
def orderAt (oo : Slots) (i : Nat) : OrderWord :=
  ⟨oo (1 + i * 4), oo (1 + i * 4 + 1), oo (1 + i * 4 + 2), oo (1 + i * 4 + 3)⟩

theorem orderAt_congr {oo oo' : Slots} {i : Nat}
    (h : ∀ k < 4, oo (1 + i * 4 + k) = oo' (1 + i * 4 + k)) : orderAt oo i = orderAt oo' i := by
  unfold orderAt
  rw [h 1 (by omega), h 2 (by omega), h 3 (by omega)]
  exact congrArg (OrderWord.mk · _ _ _) (h 0 (by omega))

/-- The order of the last call that went to slot `i`. -/
def placed (calls : List (Nat × OrderWord)) (i : Nat) : OrderWord :=
  ((calls.filter fun c => c.1 % 4 = i).getLast?.map Prod.snd).getD ⟨0, 0, 0, 0⟩

theorem placed_append (calls : List (Nat × OrderWord)) (site : Nat) (w : OrderWord) (i : Nat) :
    placed (calls ++ [(site, w)]) i = if site % 4 = i then w else placed calls i := by
  unfold placed
  rw [List.filter_append, List.filter_singleton]
  by_cases h : site % 4 = i <;> simp [h]

section Simulation

variable {M : Machine} {md : Slots} {env : Env M} {frame : Frame M}

/-- The array program sees the variables and the attributes of the source program. -/
structure Views (md : Slots) (env : Env M) (frame : Frame M) : Prop where
  locals : frame.locals = env.locals
  attrs : ∀ name r, name.readable = true → visitAttribute name = .ok r →
    r.eval M md frame.oo = env.attrs name

/-- The two states: beside that, the order slots hold the last call of each slot, and
`order_count` is the number of calls. -/
structure Simulates (md : Slots) (env : Env M) (frame : Frame M) : Prop extends
    Views md env frame where
  count : frame.oo 0 = Int64.ofNat env.calls.length
  slots : ∀ i < 4, orderAt frame.oo i = placed env.calls i

theorem Views.eval (h : Views md env frame) {e : Expr M StateName} {e' : Expr M Read}
    (hp : e.readsAll StateName.readable = true) (he : e.transpile visitAttribute = .ok e') :
    frame.eval md e' = env.eval e := by
  unfold Frame.eval Env.eval
  rw [h.locals]
  exact Expr.eval_transpile h.attrs _ e e' hp he

theorem Views.evalAll (h : Views md env frame) {es : List (Expr M StateName)}
    {es' : List (Expr M Read)} (hp : Expr.readsAllOf StateName.readable es = true)
    (hes : Expr.transpileAll visitAttribute es = .ok es') :
    Expr.evalAll (Read.eval M md frame.oo) frame.locals es' =
      Expr.evalAll env.attrs env.locals es := by
  rw [h.locals]
  exact Expr.evalAll_transpile h.attrs _ es es' hp hes

theorem readable_slot {name : StateName} {slot : Nat} (hname : name.readable = true)
    (hvisit : visitAttribute name = .ok (.out slot)) : 48 ≤ slot := by
  cases name with
  | market f => cases hvisit
  | other name => cases hvisit
  | out o =>
      cases o with
      | orderCount => cases hname
      | order i k => cases hname
      | persistent j =>
          cases hvisit
          exact Nat.le_add_right 48 j

theorem Views.store_order (h : Views md env frame) (slot : Nat) (hslot : slot < 48) (w : Int64) :
    Views md env (frame.store slot w) := by
  refine ⟨h.locals, fun name r hname hvisit => ?_⟩
  refine Eq.trans ?_ (h.attrs name r hname hvisit)
  cases r with
  | market r => rfl
  | out slot' =>
      have := readable_slot hname hvisit
      exact congrArg M.scaled (Function.update_of_ne (by omega) ..)

/-- A call of `orders`: its number and its words go to the order slots. -/
theorem Simulates.emit (h : Simulates md env frame) {site : Nat} {w : OrderWord}
    {price volume orderId : Stored M}
    (hprice : ∀ frame, Views md env frame → frame.word md price = w.priceFp)
    (hvolume : ∀ frame, Views md env frame → frame.word md volume = w.volume)
    (horderId : ∀ frame, Views md env frame → frame.word md orderId = w.orderId) :
    Simulates md { env with calls := env.calls ++ [(site, w)] }
      ((Forge.emit (1 + site % 4 * 4) w.type price volume orderId).exec md frame) := by
  generalize hbase : 1 + site % 4 * 4 = base
  have hlt : base + 3 < 17 := by omega
  have h₁ : Views md env (frame.store 0 (frame.oo 0 + 1)) := h.store_order 0 (by omega) _
  have h₂ := h₁.store_order base (by omega) w.type
  have h₃ := h₂.store_order (base + 1) (by omega) w.priceFp
  have h₄ := h₃.store_order (base + 2) (by omega) w.volume
  have h₅ := h₄.store_order (base + 3) (by omega) w.orderId
  have hexec : (Forge.emit base w.type price volume orderId).exec md frame =
      ((((frame.store 0 (frame.oo 0 + 1)).store base w.type).store (base + 1) w.priceFp).store
        (base + 2) w.volume).store (base + 3) w.orderId := by
    simp only [Forge.emit, Code.exec, Frame.word_const]
    rw [hprice _ h₂, hvolume _ h₃, horderId _ h₄]
  rw [hexec]
  refine ⟨⟨h₅.locals, h₅.attrs⟩, ?_, fun i hi => ?_⟩
  · simp only [Frame.store]
    rw [Function.update_of_ne (by omega), Function.update_of_ne (by omega),
      Function.update_of_ne (by omega), Function.update_of_ne (by omega), Function.update_self,
      h.count, List.length_append, List.length_singleton, Int64.ofNat_add]
    rfl
  · rw [placed_append]
    split
    · next hsite =>
        rw [hsite] at hbase
        subst hbase
        simp [orderAt, Frame.store]
    · next hsite =>
        have hkeep : ∀ k < 4, (((((frame.store 0 (frame.oo 0 + 1)).store base w.type).store (base + 1)
            w.priceFp).store (base + 2) w.volume).store (base + 3) w.orderId).oo (1 + i * 4 + k) =
              frame.oo (1 + i * 4 + k) := by
          intro k hk
          simp only [Frame.store]
          rw [Function.update_of_ne (by omega), Function.update_of_ne (by omega),
            Function.update_of_ne (by omega), Function.update_of_ne (by omega),
            Function.update_of_ne (by omega)]
        rw [← h.slots i hi]
        exact orderAt_congr hkeep

theorem Simulates.order (h : Simulates md env frame) {call : OrderCall M} {site : Nat}
    {code : Code M} (hproper : call.proper = true) (hcode : call.transpile (site % 4) = .ok code) :
    Simulates md { env with calls := env.calls ++ [(site, env.orderWord call)] }
      (code.exec md frame) := by
  have hfixed : ∀ {e e'}, e.readsAll StateName.readable = true → e.transpile visitAttribute = .ok e' →
      ∀ frame : Frame M, Views md env frame → frame.word md (.fixed e') = M.fixed (env.eval e) :=
    fun hp he frame hviews => congrArg M.fixed (hviews.eval hp he)
  have hwhole : ∀ {e e'}, e.readsAll StateName.readable = true → e.transpile visitAttribute = .ok e' →
      ∀ frame : Frame M, Views md env frame → frame.word md (.whole e') = M.whole (env.eval e) :=
    fun hp he frame hviews => congrArg M.whole (hviews.eval hp he)
  have hmarket : ∀ frame : Frame M, Views md env frame →
      frame.word md (.fixed (.const M.zero)) = 0 := fun _ _ => M.fixed_zero
  cases call with
  | limitBuy price volume =>
      obtain ⟨price', hprice, hrest⟩ := bind_eq_ok.mp hcode
      obtain ⟨volume', hvolume, hok⟩ := bind_eq_ok.mp hrest
      cases hok
      obtain ⟨hp, hv⟩ := Bool.and_eq_true_iff.mp hproper
      exact h.emit (hfixed hp hprice) (hwhole hv hvolume) fun _ _ => rfl
  | limitSell price volume =>
      obtain ⟨price', hprice, hrest⟩ := bind_eq_ok.mp hcode
      obtain ⟨volume', hvolume, hok⟩ := bind_eq_ok.mp hrest
      cases hok
      obtain ⟨hp, hv⟩ := Bool.and_eq_true_iff.mp hproper
      exact h.emit (hfixed hp hprice) (hwhole hv hvolume) fun _ _ => rfl
  | marketBuy volume =>
      obtain ⟨volume', hvolume, hok⟩ := bind_eq_ok.mp hcode
      cases hok
      exact h.emit hmarket (hwhole hproper hvolume) fun _ _ => rfl
  | marketSell volume =>
      obtain ⟨volume', hvolume, hok⟩ := bind_eq_ok.mp hcode
      cases hok
      exact h.emit hmarket (hwhole hproper hvolume) fun _ _ => rfl
  | cancel orderId =>
      obtain ⟨orderId', horderId, hok⟩ := bind_eq_ok.mp hcode
      cases hok
      exact h.emit (fun _ _ => rfl) (fun _ _ => rfl) (hwhole hproper horderId)

theorem Simulates.assignState (h : Simulates md env frame) {j : Fin 12} {w : Int64}
    {v : M.Value} (hw : w = M.fixed v) :
    Simulates md { env with
      attrs := Function.update env.attrs (.out (.persistent j)) (M.scaled (M.fixed v)) }
      (frame.store (48 + j) w) := by
  refine ⟨⟨h.locals, fun name r hname hvisit => ?_⟩, ?_, fun i hi => ?_⟩
  · by_cases hsame : name = .out (.persistent j)
    · subst hsame
      cases hvisit
      simp [Read.eval, Frame.store, OutField.slot, hw]
    · refine Eq.trans ?_ ((h.attrs name r hname hvisit).trans (Function.update_of_ne hsame ..).symm)
      cases r with
      | market r => rfl
      | out slot =>
          refine congrArg M.scaled (Function.update_of_ne ?_ ..)
          rintro rfl
          cases name with
          | market f => cases hvisit
          | other name => cases hvisit
          | out o =>
              cases o with
              | orderCount => cases hname
              | order i k => cases hname
              | persistent j' =>
                  have hslot : 48 + j'.val = 48 + j.val := by
                    simpa [visitAttribute, OutField.slot] using hvisit
                  exact hsame (by rw [Fin.ext (Nat.add_left_cancel hslot)])
  · exact (Function.update_of_ne (by omega) ..).trans h.count
  · refine Eq.trans (orderAt_congr fun k hk => ?_) (h.slots i hi)
    exact Function.update_of_ne (by omega) ..

theorem Simulates.bind (h : Simulates md env frame) (x : String) (v : M.Value) :
    Simulates md { env with locals := Function.update env.locals x v }
      { frame with locals := Function.update frame.locals x v } :=
  ⟨⟨congrArg (Function.update · x v) h.locals, h.attrs⟩, h.count, h.slots⟩

/-- The next `order_idx` is the number of the next call, modulo 4. -/
theorem Stmt.transpile_idx : ∀ {s : Stmt M} {site idx : Nat} {code : Code M},
    s.transpile (site % 4) = .ok (code, idx) → idx = (site + s.sites) % 4 := by
  intro s
  induction s with
  | pass =>
      intro site idx code h
      cases h
      rfl
  | assign x e =>
      intro site idx code h
      obtain ⟨e', -, hok⟩ := bind_eq_ok.mp h
      cases hok
      rfl
  | assignState name e =>
      intro site idx code h
      obtain ⟨e', -, hok⟩ := bind_eq_ok.mp h
      cases name <;> (cases hok; rfl)
  | order call =>
      intro site idx code h
      obtain ⟨code', -, hok⟩ := bind_eq_ok.mp h
      cases hok
      exact Nat.mod_add_mod site 4 1
  | seq s t ihs iht =>
      intro site idx code h
      obtain ⟨⟨s', idx'⟩, hs, hrest⟩ := bind_eq_ok.mp h
      obtain ⟨⟨t', idx''⟩, ht, hok⟩ := bind_eq_ok.mp hrest
      cases hok
      rw [ihs hs] at ht
      rw [iht ht, Nat.add_assoc, Stmt.sites]
  | ite test body orelse ihb iho =>
      intro site idx code h
      obtain ⟨test', -, hrest⟩ := bind_eq_ok.mp h
      obtain ⟨⟨body', idx'⟩, hb, hrest⟩ := bind_eq_ok.mp hrest
      obtain ⟨⟨orelse', idx''⟩, ho, hok⟩ := bind_eq_ok.mp hrest
      cases hok
      rw [ihb hb] at ho
      rw [iho ho, Nat.add_assoc, Stmt.sites]
  | forRange x args body ih =>
      intro site idx code h
      obtain ⟨args', -, hrest⟩ := bind_eq_ok.mp h
      obtain ⟨⟨body', idx'⟩, hb, hok⟩ := bind_eq_ok.mp hrest
      cases hok
      exact ih hb

/-- The transpiler is right about everything but the slots: the array program
computes what the source program computes, and leaves in each order slot the last call
that has been numbered into it. -/
theorem transpile_simulates : ∀ {s : Stmt M} {site idx : Nat} {code : Code M} {env : Env M}
    {frame : Frame M}, s.proper = true → s.transpile (site % 4) = .ok (code, idx) →
    Simulates md env frame → Simulates md (s.run site env) (code.exec md frame) := by
  intro s
  induction s with
  | pass =>
      intro site idx code env frame _ hcode h
      cases hcode
      exact h
  | assign x e =>
      intro site idx code env frame hproper hcode h
      obtain ⟨e', he, hok⟩ := bind_eq_ok.mp hcode
      cases hok
      simp only [Stmt.run, Code.exec]
      rw [h.eval hproper he]
      exact h.bind x _
  | assignState name e =>
      intro site idx code env frame hproper hcode h
      obtain ⟨hname, hreads⟩ := Bool.and_eq_true_iff.mp hproper
      obtain ⟨e', he, hok⟩ := bind_eq_ok.mp hcode
      cases name with
      | market f => cases hname
      | other name => cases hname
      | out o =>
          cases o with
          | orderCount => cases hname
          | order i k => cases hname
          | persistent j =>
              cases hok
              exact h.assignState (congrArg M.fixed (h.eval hreads he))
  | order call =>
      intro site idx code env frame hproper hcode h
      obtain ⟨code', hcall, hok⟩ := bind_eq_ok.mp hcode
      cases hok
      exact h.order hproper hcall
  | seq s t ihs iht =>
      intro site idx code env frame hproper hcode h
      obtain ⟨hps, hpt⟩ := Bool.and_eq_true_iff.mp hproper
      obtain ⟨⟨s', idx'⟩, hs, hrest⟩ := bind_eq_ok.mp hcode
      obtain ⟨⟨t', idx''⟩, ht, hok⟩ := bind_eq_ok.mp hrest
      cases hok
      rw [Stmt.transpile_idx hs] at ht
      simp only [Stmt.run, Code.exec]
      exact iht hpt ht (ihs hps hs h)
  | ite test body orelse ihb iho =>
      intro site idx code env frame hproper hcode h
      obtain ⟨htest, hbranches⟩ := Bool.and_eq_true_iff.mp hproper
      obtain ⟨hpb, hpo⟩ := Bool.and_eq_true_iff.mp hbranches
      obtain ⟨test', ht, hrest⟩ := bind_eq_ok.mp hcode
      obtain ⟨⟨body', idx'⟩, hb, hrest⟩ := bind_eq_ok.mp hrest
      obtain ⟨⟨orelse', idx''⟩, ho, hok⟩ := bind_eq_ok.mp hrest
      cases hok
      rw [Stmt.transpile_idx hb] at ho
      simp only [Stmt.run, Code.exec, h.eval htest ht]
      split
      · exact ihb hpb hb h
      · exact iho hpo ho h
  | forRange x args body ih =>
      intro site idx code env frame hproper hcode h
      obtain ⟨hargs, hpb⟩ := Bool.and_eq_true_iff.mp hproper
      obtain ⟨args', ha, hrest⟩ := bind_eq_ok.mp hcode
      obtain ⟨⟨body', idx'⟩, hb, hok⟩ := bind_eq_ok.mp hrest
      cases hok
      simp only [Stmt.run, Code.exec, h.evalAll hargs ha]
      exact List.foldl_rel h fun v _ env frame h => ih hpb hb (h.bind x v)

theorem simulates_start (locals : String → M.Value) (md oo : Slots) :
    Simulates md ⟨locals, attrsOf M md oo, []⟩
      (⟨locals, fun slot => if slot ≤ 16 then 0 else oo slot⟩ : Frame M) := by
  refine ⟨⟨rfl, fun name r hname hvisit => ?_⟩, rfl, fun i hi => ?_⟩
  · cases name with
    | market f =>
        cases hvisit
        rfl
    | other name => cases hvisit
    | out o =>
        have hslot : ¬ o.slot ≤ 16 := by
          have hvisit : visitAttribute (.out o) = .ok (.out o.slot) := rfl
          have := readable_slot hname hvisit
          omega
        cases hvisit
        simp only [Read.eval, attrsOf, if_neg hslot]
  · unfold orderAt
    dsimp only
    rw [if_pos (by omega), if_pos (by omega), if_pos (by omega), if_pos (by omega)]
    rfl

end Simulation

end VidhiArena.Forge
