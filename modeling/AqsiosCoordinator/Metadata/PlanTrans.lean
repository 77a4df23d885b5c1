import AqsiosCoordinator.Metadata.GenPhysicalPlan

/-! # Transformations of the global plan

The loops over the used operators follow the list as it is while operators are
taken out of it or put in front.
-/
namespace AqsiosCoordinator.Physical
open Common Foundation

/-- The position of the first output that is `parent`, 0 when there is none. -/
def getOutputIndex (child : Operator) (parent : OpId) : ℕ := (child.outputs.findIdx? (fun o => o == parent)).getD 0

/-- The position of the first input that is `child`, 0 when there is none. -/
def getInputIndex (parent : Operator) (child : OpId) : ℕ := (parent.inputs.findIdx? (fun o => o == child)).getD 0

/-- Makes the operators of the list read from `inOp` where they read from `op`. -/
def redirectOutputs (op inOp : OpId) : List OpId → M Unit
  | [] => pure ()
  | q :: qs => do
    modifyOp q (fun o => { o with inputs := o.inputs.set (getInputIndex o op) inOp })
    addOutput inOp q
    redirectOutputs op inOp qs

/-- Removes an operator from a plan and connects its input to all its outputs. The
last output of the input takes the place that the operator had there. -/
def shortCircuitInputOutput (op : OpId) : M Unit := do
  let o ← getOp op
  match o.inputs with
  | [] => throw .nullDeref
  | inOp :: _ =>
    let outputIdx := getOutputIndex (← getOp inOp) op
    redirectOutputs op inOp o.outputs
    match (← getOp inOp).outputs.getLast? with
    | none => throw .outOfBounds
    | some last => modifyOp inOp (fun i => { i with outputs := (i.outputs.set outputIdx last).dropLast })

def nextOp (op : OpId) : M (Option OpId) := do return (← get).links.next op

/-- Removes `op` from the plan; the result is the operator behind it. -/
def removeOp (op : OpId) : M (Option OpId) := do
  shortCircuitInputOutput op
  let next ← nextOp op
  freeOp op
  return next

/-- The loop over the used operators from `op` on, with a body that removes some of them. -/
def removeWhere (merged : OpId → M Bool) : ℕ → Option OpId → M Unit
  | _, none => pure ()
  | 0, some _ => throw .nonTermination
  | fuel+1, some op => do
    if ← merged op then removeWhere merged fuel (← removeOp op)
    else removeWhere merged fuel (← nextOp op)

def isQuerySource (op : OpId) : M Bool := do return (← getOp op).body.kind = .querySource

def removeQuerySources : M Unit := do removeWhere isQuerySource (MAX_OPS + 1) (← get).usedOps

/-- An operator that nobody reads from and that is neither an output nor the system stream. -/
def needsSink (o : Operator) : Bool := o.outputs.length = 0 && o.body.kind ≠ .output && o.body.kind ≠ .ssGen

def addSinksFrom : ℕ → Option OpId → M Unit
  | _, none => pure ()
  | 0, some _ => throw .nonTermination
  | fuel+1, some op => do
    if needsSink (← getOp op) then
      let _ ← mkSink op
    addSinksFrom fuel (← nextOp op)

def addSinks : M Unit := do addSinksFrom (MAX_OPS + 1) (← get).usedOps

/-- An attribute of an operator above a join as an attribute within the join. -/
def transToJoinAttr (numOuterAttrs : ℕ) (a : Attr) : Attr :=
  if numOuterAttrs ≤ a.pos then ⟨1,a.pos - numOuterAttrs⟩ else a

def transToJoinExpr (numOuterAttrs : ℕ) (e : Expr) : Expr := e.map (transToJoinAttr numOuterAttrs)

def transToJoinPred (numOuterAttrs : ℕ) (pred : List BExpr) : List BExpr :=
  pred.map (fun b => ⟨b.op,transToJoinExpr numOuterAttrs b.left,transToJoinExpr numOuterAttrs b.right⟩)

/-- The body of the child after a select above it has been merged into it. -/
def selectInto (pred : List BExpr) : Body → Option Body
  | .select p => some (.select (p ++ pred))
  | .join outer inner p => some (.join outer inner (p ++ transToJoinPred outer pred))
  | .strJoin outer inner p => some (.strJoin outer inner (p ++ transToJoinPred outer pred))
  | _ => none

def mergeSelect (op : OpId) : M Bool := do
  let o ← getOp op
  match o.body, o.inputs with
  | .select pred, inOp :: _ => do
    let i ← getOp inOp
    if i.outputs.length ≠ 1 then return false
    match selectInto pred i.body with
    | none => return false
    | some body =>
      modifyOp inOp (fun i => { i with body := body })
      return true
  | .select _, [] => throw .nullDeref
  | _, _ => return false

def mergeSelects : M Unit := do removeWhere mergeSelect (MAX_OPS + 1) (← get).usedOps

/-- The body of the join after a project above it has been merged into it. -/
def projectInto (projs : List Expr) : Body → Option Body
  | .join outer _ p => some (.joinProject (projs.map (transToJoinExpr outer)) p)
  | .strJoin outer _ p => some (.strJoinProject (projs.map (transToJoinExpr outer)) p)
  | _ => none

def mergeProject (op : OpId) : M Bool := do
  let o ← getOp op
  match o.body, o.inputs with
  | .project projs, inOp :: _ => do
    let i ← getOp inOp
    if i.outputs.length > 1 then return false
    match projectInto (projs.take o.attrs.length) i.body with
    | none => return false
    | some body =>
      failIf (projs.length < o.attrs.length) .nullDeref
      modifyOp inOp (fun i => { i with body := body, attrs := o.attrs })
      return true
  | .project _, [] => throw .nullDeref
  | _, _ => return false

def mergeProjectsToJoin : M Unit := do removeWhere mergeProject (MAX_OPS + 1) (← get).usedOps

end AqsiosCoordinator.Physical
