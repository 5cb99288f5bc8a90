import VidhiArena.Forge.Python.Ast
import VidhiArena.Foundation.Visits

/-!
# The transpiler on whole programs

`transpile` of `backend/forge/transpiler.py`, from the tree that `ast.parse` gives to the
tree that goes to `ast.unparse`. All of the grammar is in it: what the visitor has no rule
for is left to `generic_visit`.

Every rule visits the children first. The visitor carries the next `order_idx`, and gives
up at an unknown field of `state`.
-/

namespace VidhiArena.Forge.Python

open VidhiArena.Foundation

/-! ## The two tables -/

/-- `MARKET_DATA_SLOTS`. -/
def marketDataSlots : List (String × Int) :=
  [("bid_price", 0), ("ask_price", 1), ("mid_price", 2), ("spread", 3), ("last_trade_price", 4),
    ("last_trade_volume", 5), ("underlying_signal", 6), ("volatility", 7), ("position", 29),
    ("cash", 30), ("pnl", 31), ("fill_count", 33), ("fill0_price", 35), ("fill0_volume", 36),
    ("fill0_side", 37), ("fill1_price", 39), ("fill1_volume", 40), ("fill1_side", 41),
    ("fill2_price", 43), ("fill2_volume", 44), ("fill2_side", 45), ("fill3_price", 47),
    ("fill3_volume", 48), ("fill3_side", 49)]

/-- `ORDER_OUT_SLOTS`. -/
def orderOutSlots : List (String × Int) :=
  [("order_count", 0), ("o0_type", 1), ("o0_price", 2), ("o0_volume", 3), ("o0_id", 4),
    ("o1_type", 5), ("o1_price", 6), ("o1_volume", 7), ("o1_id", 8), ("o2_type", 9),
    ("o2_price", 10), ("o2_volume", 11), ("o2_id", 12), ("o3_type", 13), ("o3_price", 14),
    ("o3_volume", 15), ("o3_id", 16), ("ema_fast", 48), ("ema_slow", 49), ("tick_count", 50),
    ("my_position", 51), ("s0", 52), ("s1", 53), ("s2", 54), ("s3", 55), ("s4", 56), ("s5", 57),
    ("s6", 58), ("s7", 59)]

/-- `float(FIXED_POINT)`. -/
def fixedPoint : Expr := .constant (.float "1000000.0")

def load (id : String) : Expr := .name id .load

def int (n : Int) : Expr := .constant (.int n)

/-- `array[slot] / 1000000.0`. -/
def quotient (array : String) (slot : Int) : Expr :=
  ((load array).subscript (int slot) "Load").binOp "Div" fixedPoint

/-- The error of `_market_read`. -/
def unknownField (field : String) : String := "Unknown state field: '" ++ field ++ "'"

/-- `_market_read`. -/
def marketRead (field : String) : Except String Expr :=
  if field = "bid_depth" then .ok (.call (load "get_bid_depth") [load "_md"] [])
  else if field = "ask_depth" then .ok (.call (load "get_ask_depth") [load "_md"] [])
  else
    match marketDataSlots.lookup field with
    | some slot => .ok (quotient "_md" slot)
    | none =>
        match orderOutSlots.lookup field with
        | some slot => .ok (quotient "_oo" slot)
        | none => .error (unknownField field)

/-- `_oo[slot]`, assigned to. -/
def outSlot (slot : Int) : Expr := (Expr.name "_oo" .store).subscript (int slot) "Store"

/-- `_oo[slot] = value`. -/
def makeAssign (slot : Int) (value : Expr) : Stmt := .assign [outSlot slot] value

/-- `int(value * 1000000.0)`. -/
def fixed (value : Expr) : Expr := .call (load "int") [value.binOp "Mult" fixedPoint] []

def pass : Stmt := .compound "Pass" [] []

/-- `_state_write`. -/
def stateWrite (field : String) (value : Expr) : Stmt :=
  match orderOutSlots.lookup field with
  | some slot => makeAssign slot (fixed value)
  -- a field without a slot: the assignment is dropped
  | none => pass

/-! ## Orders -/

/-- The calls of `orders` for which `visit_Call` has statements. -/
inductive OrderCall where
  | limit (type : Int) (price volume : Expr)
  | market (type : Int) (volume : Expr)
  | cancel (orderId : Expr)

namespace OrderCall

/-- `len(node.args) >= 2`. -/
def limit? (type : Int) : List Expr → Option OrderCall
  | price :: volume :: _ => some (.limit type price volume)
  | _ => none

/-- `len(node.args) >= 1`. -/
def market? (type : Int) : List Expr → Option OrderCall
  | volume :: _ => some (.market type volume)
  | [] => none

def cancel? : List Expr → Option OrderCall
  | orderId :: _ => some (.cancel orderId)
  | [] => none

def args : OrderCall → List Expr
  | limit _ price volume => [price, volume]
  | market _ volume => [volume]
  | cancel orderId => [orderId]

end OrderCall

/-- The methods that `visit_Call` knows. -/
def orderCall? (method : String) (args : List Expr) : Option OrderCall :=
  if method = "limit_buy" then OrderCall.limit? 1 args
  else if method = "limit_sell" then OrderCall.limit? 2 args
  else if method = "market_buy" then OrderCall.market? 3 args
  else if method = "market_sell" then OrderCall.market? 4 args
  else if method = "cancel" then OrderCall.cancel? args
  else none

/-- `_emit_order`. -/
def emitOrder (base type : Int) (price volume : Expr) : List Stmt :=
  [makeAssign base (int type), makeAssign (base + 1) (fixed price),
    makeAssign (base + 2) (.call (load "int") [volume] []), makeAssign (base + 3) (int 0)]

/-- `_emit_cancel`. -/
def emitCancel (base : Int) (orderId : Expr) : List Stmt :=
  [makeAssign base (int 5), makeAssign (base + 1) (int 0), makeAssign (base + 2) (int 0),
    makeAssign (base + 3) orderId]

def OrderCall.emit (base : Int) : OrderCall → List Stmt
  | limit type price volume => emitOrder base type price volume
  | market type volume => emitOrder base type (.constant (.float "0.0")) volume
  | cancel orderId => emitCancel base orderId

/-- `_oo[0] += 1`. -/
def increment : Stmt := .compound "AugAssign" ["Add"] [.expr (outSlot 0), .expr (int 1)]

/-! ## `TranspilerVisitor` -/

/-- A method of the visitor; the number is `order_idx`. -/
abbrev Visit := StateT (Fin 4) (Except String)

/-- `visit_Attribute`, after `generic_visit`. -/
def visitAttribute (node : Expr) : Visit Expr :=
  match node.field? with
  | some (field, .load) => StateT.lift (marketRead field)
  | _ => return node

/-- `visit_Call`, after `generic_visit`: the node, and its `_transpiled_stmts`. -/
def visitCall (func : Expr) (args keywords : List Expr) : Visit (Expr × Option (List Stmt)) :=
  match func.method? with
  | some method => do
      let idx ← get
      set (idx + 1)
      let stmts := (orderCall? method args).map fun call => increment :: call.emit (1 + idx.val * 4)
      return (.call func args keywords, stmts)
  | none => return (.call func args keywords, none)

mutual

def visitExpr : Expr → Visit Expr
  | .name id ctx => return .name id ctx
  | .constant value => return .constant value
  | .attribute value attr ctx => do
      let value ← visitExpr value
      visitAttribute (.attribute value attr ctx)
  | .call func args keywords => do
      let func ← visitExpr func
      let args ← visitExprs args
      let keywords ← visitExprs keywords
      return (← visitCall func args keywords).1
  | .node cls values children => return .node cls values (← visitExprs children)

def visitExprs : List Expr → Visit (List Expr)
  | [] => return []
  | e :: es => return (← visitExpr e) :: (← visitExprs es)

end

def visitArguments (a : Arguments) : Visit Arguments := do
  let posonlyargs ← visitExprs a.posonlyargs
  let args ← visitExprs a.args
  let vararg ← visitExprs a.vararg
  let kwonlyargs ← visitExprs a.kwonlyargs
  let kwDefaults ← visitExprs a.kwDefaults
  let kwarg ← visitExprs a.kwarg
  let defaults ← visitExprs a.defaults
  return { posonlyargs, args, vararg, kwonlyargs, kwDefaults, kwarg, defaults }

/-- `visit_Assign`, after `generic_visit`. Targets stand in a store context. -/
def visitAssign (targets : List Expr) (value : Expr) : Stmt :=
  match targets with
  | [target] =>
      match target.field? with
      | some (field, .store) => stateWrite field value
      | _ => .assign targets value
  | _ => .assign targets value

/-- `visit_Expr`, for a call. -/
def visitCallStmt (func : Expr) (args keywords : List Expr) : Visit (List Stmt) := do
  let func ← visitExpr func
  let args ← visitExprs args
  let keywords ← visitExprs keywords
  let (node, stmts) ← visitCall func args keywords
  return stmts.getD [.expr node]

/-- `_md[first + _f_idx * 6]`. -/
def fillWord (first : Int) : Expr :=
  (load "_md").subscript ((int first).binOp "Add" ((load "_f_idx").binOp "Mult" (int 6))) "Load"

/-- `fill = Fill(...)`. -/
def fillAssign (fill : String) : Stmt :=
  .assign [.name fill .store]
    (.call (load "Fill") [(fillWord 12).binOp "Div" fixedPoint, fillWord 14, fillWord 16] [])

/-- `range(int(_md[11]))`. -/
def fillRange : Expr :=
  .call (load "range") [.call (load "int") [(load "_md").subscript (int 11) "Load"] []] []

/-- `visit_For`, after `generic_visit`. What is iterated over stands in a load context. -/
def visitFor (target iter : Expr) (body orelse : List Stmt) : Stmt :=
  match target, iter.field? with
  | .name fill _, some ("fills", .load) =>
      .forLoop (.name "_f_idx" .store) fillRange (fillAssign fill :: body) orelse
  | _, _ => .forLoop target iter body orelse

mutual

def visitStmt : Stmt → Visit (List Stmt)
  | .functionDef name args body decorators returns => do
      let args ← visitArguments args
      let body ← visitStmts body
      let decorators ← visitExprs decorators
      let returns ← visitExprs returns
      return [.functionDef name args body decorators returns]
  | .assign targets value => do
      let targets ← visitExprs targets
      let value ← visitExpr value
      return [visitAssign targets value]
  | .expr (.call func args keywords) => visitCallStmt func args keywords
  | .expr value => return [.expr (← visitExpr value)]
  | .forLoop target iter body orelse => do
      let target ← visitExpr target
      let iter ← visitExpr iter
      let body ← visitStmts body
      let orelse ← visitStmts orelse
      return [visitFor target iter body orelse]
  | .declare d => return [.declare d]
  | .compound cls values parts => return [.compound cls values (← visitParts parts)]

/-- A list of statements: what a rule gives for one is put in its place. -/
def visitStmts : List Stmt → Visit (List Stmt)
  | [] => return []
  | s :: ss => return (← visitStmt s) ++ (← visitStmts ss)

def visitParts : List Part → Visit (List Part)
  | [] => return []
  | .expr e :: parts => return .expr (← visitExpr e) :: (← visitParts parts)
  | .stmts ss :: parts => return .stmts (← visitStmts ss) :: (← visitParts parts)

end

/-! ## `transpile` -/

/-- The parameters `(_md, _oo)`; `*` and `**` parameters stay. The renaming of the old ones
is overwritten. -/
def implArguments (a : Arguments) : Arguments :=
  { posonlyargs := [], args := [.node "arg" ["_md"] [], .node "arg" ["_oo"] []], vararg := a.vararg
    kwonlyargs := [], kwDefaults := [], kwarg := a.kwarg, defaults := [] }

/-- `@numba.njit(inline='always')`. -/
def njit : Expr :=
  .call (.attribute (load "numba") "njit" .load) []
    [.node "keyword" ["inline"] [.constant (.other "'always'")]]

/-- `_make_assign(name, name)`. -/
def identity (name : String) : Stmt := .assign [.name name .store] (load name)

/-- Steps 1 to 3, at `on_tick`. -/
def implement : Stmt → Stmt
  | .functionDef _ args body decorators returns =>
      .functionDef "on_tick__impl" (implArguments args)
        ([identity "_md", identity "_oo"] ++ body) (njit :: decorators) returns
  | s => s

def prepare (p : Program) : Except String Program :=
  match findFunction "on_tick" p with
  | some hole => .ok (hole.put (implement hole.node))
  | none => .error "Required function 'on_tick(state, orders)' not found"

/-- `transpile`. -/
def transpile (p : Program) : Except String Program := do
  let tree ← prepare p
  let (body, _) ← visitStmts tree 0
  return body

end VidhiArena.Forge.Python
