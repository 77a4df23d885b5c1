import AqsiosCoordinator.Metadata.PhysicalOperator
import AqsiosCoordinator.Querygen.LogicalOperator

/-! # Physical plans of logical plans -/
namespace AqsiosCoordinator.Physical
open Common Foundation

/-- What a call reads where the code reads memory that it has not set: the attribute
that `transformAttr` returns at its end, and a column outside a schema. -/
structure Uninit where
  attr : Logical.Attr → Attr
  column : Column

/-- The first attribute among the schemas of the inputs that is the same as `a`. -/
def findAttr (a : Logical.Attr) : ℕ → List (List Logical.Attr) → Option Attr
  | _, [] => none
  | i, attrs :: rest =>
    match attrs.findIdx? (fun b => a.same b) with
    | some pos => some ⟨i,pos⟩
    | none => findAttr a (i + 1) rest

def transformAttr (u : Uninit) (schemas : List (List Logical.Attr)) (a : Logical.Attr) : Attr :=
  (findAttr a 0 schemas).getD (u.attr a)

def transformExpr (u : Uninit) (schemas : List (List Logical.Attr)) (e : Logical.Expr) : M Expr := do
  newExprs e.size
  return e.map (transformAttr u schemas)

def transformBExpr (u : Uninit) (schemas : List (List Logical.Attr)) (b : Logical.BExpr) : M BExpr := do
  newExprs (b.left.size + b.right.size)
  newBExpr
  return ⟨b.op,b.left.map (transformAttr u schemas),b.right.map (transformAttr u schemas)⟩

/-- The physical plan of child `i`; there is no pointer in the array behind the last one. -/
def phyChild (phyChildPlans : List OpId) (i : ℕ) : M OpId :=
  match phyChildPlans[i]? with
  | some c => pure c
  | none => throw .nullDeref

def connect (op : OpId) (body : Body) (attrs : List Column) (bStream : Bool) (inputs : List OpId) : M Unit := do
  modifyOp op (fun o => { o with body := body, attrs := attrs, bStream := bStream, outputs := [], inputs := inputs })
  addOutputs inputs op

/-- The operators with one input whose output schema is that of the input. -/
def mkUnary (body : Body) (bStream : Bool → Bool) (child : OpId) : M OpId := do
  let op ← newOp body
  let c ← getOp child
  connect op body c.attrs (bStream c.bStream) [child]
  return op

def lookupSource (tableId : ℕ) (sourceOps : List (ℕ × OpId)) : OpId :=
  ((sourceOps.find? (fun e => e.1 == tableId)).map Prod.snd).getD ⟨0,maxOps_pos⟩

/-- The source operator of the table, and operator 0 when the table has none. -/
def mkStreamSource (strId : ℕ) : M OpId := do return lookupSource strId (← get).sourceOps
def mkRelnSource (relId : ℕ) : M OpId := do return lookupSource relId (← get).sourceOps

def mkRowWin (numRows : ℕ) (children : List OpId) : M OpId := do
  mkUnary (.rowWin numRows) (fun _ => false) (← phyChild children 0)

def mkRangeWin (timeUnits : ℕ) (children : List OpId) : M OpId := do
  mkUnary (.rangeWin timeUnits) (fun _ => false) (← phyChild children 0)

def mkNowWin (children : List OpId) : M OpId := do
  mkUnary (.rangeWin 1) (fun _ => false) (← phyChild children 0)

def mkPartnWin (u : Uninit) (schemas : List (List Logical.Attr)) (partnAttrs : List Logical.Attr) (numRows : ℕ)
    (children : List OpId) : M OpId := do
  failIf (partnAttrs.length > MAX_GROUP_ATTRS) .outOfBounds
  mkUnary (.partnWin (partnAttrs.map (transformAttr u schemas)) numRows) (fun _ => false) (← phyChild children 0)

/-- A select on top of a physical select adds its predicate to that one. -/
def mkSelect (u : Uninit) (schemas : List (List Logical.Attr)) (bexpr : Logical.BExpr) (children : List OpId) :
    M OpId := do
  let pred ← transformBExpr u schemas bexpr
  let child ← phyChild children 0
  let c ← getOp child
  match c.body with
  | .select preds =>
    modifyOp child (fun c => { c with body := .select (pred :: preds) })
    return child
  | _ => mkUnary (.select [pred]) (fun b => b) child

def attrColumn (u : Uninit) (child : Operator) (a : Attr) : Column := child.attrs.getD a.pos u.column

def typeLen (u : Uninit) : DataType → ℕ
  | .int => INT_SIZE
  | .float => FLOAT_SIZE
  | .byte => BYTE_SIZE
  | .char => u.column.2

def projColumn (u : Uninit) (child : Operator) (e : Expr) : Column :=
  match e.type, e with
  | .char, .attrRef _ a => (.char,(attrColumn u child a).2)
  | t, _ => (t,typeLen u t)

def mkProject (u : Uninit) (schemas : List (List Logical.Attr)) (projExprs : List Logical.Expr)
    (numOutAttrs : ℕ) (children : List OpId) : M OpId := do
  let op ← newOp (.project [])
  failIf (numOutAttrs > MAX_ATTRS) .outOfBounds
  failIf (projExprs.length < numOutAttrs) .nullDeref
  let projs ← (projExprs.take numOutAttrs).mapM (transformExpr u schemas)
  let child ← phyChild children 0
  let c ← getOp child
  connect op (.project projs) (projs.map (projColumn u c)) c.bStream [child]
  return op

/-- The two joins: a join of relations is a stream iff both inputs are, a stream join always. -/
def mkBinaryJoin (body : ℕ → ℕ → List BExpr → Body) (bStream : Bool → Bool → Bool) (children : List OpId) :
    M OpId := do
  let op ← newOp (body 0 0 [])
  let outer ← phyChild children 0
  let inner ← phyChild children 1
  let o ← getOp outer
  let i ← getOp inner
  failIf (o.attrs.length + i.attrs.length > MAX_ATTRS) .outOfBounds
  connect op (body o.attrs.length i.attrs.length []) (o.attrs ++ i.attrs) (bStream o.bStream i.bStream) [outer, inner]
  return op

def mkJoin (children : List OpId) : M OpId := mkBinaryJoin .join (fun l r => l && r) children
def mkStrJoin (children : List OpId) : M OpId := mkBinaryJoin .strJoin (fun _ _ => true) children

def aggrColumn (u : Uninit) (child : Operator) (a : AggrFn × Attr) : Column :=
  let t := getOutputType a.1 (attrColumn u child a.2).1
  (t,typeLen u t)

/-- An aggregated attribute; that of a count does not matter. -/
def transformAggr (u : Uninit) (schemas : List (List Logical.Attr)) (a : AggrFn × Logical.Attr) : AggrFn × Attr :=
  (a.1,if a.1 ≠ .count then transformAttr u schemas a.2 else ⟨0,0⟩)

def mkGroupAggr (u : Uninit) (schemas : List (List Logical.Attr)) (groupAttrs : List Logical.Attr)
    (aggrs : List (AggrFn × Logical.Attr)) (children : List OpId) : M OpId := do
  let op ← newOp (.groupAggr [] [])
  failIf (groupAttrs.length > MAX_GROUP_ATTRS ∨ aggrs.length > MAX_AGGR_ATTRS ∨
    groupAttrs.length + aggrs.length > MAX_ATTRS) .outOfBounds
  let gs := groupAttrs.map (transformAttr u schemas)
  let as := aggrs.map (transformAggr u schemas)
  let child ← phyChild children 0
  let c ← getOp child
  connect op (.groupAggr gs as) (gs.map (attrColumn u c) ++ as.map (aggrColumn u c)) false [child]
  return op

def mkDistinct (children : List OpId) : M OpId := do mkUnary .distinct (fun b => b) (← phyChild children 0)
def mkIstream (children : List OpId) : M OpId := do mkUnary .istream (fun _ => true) (← phyChild children 0)
def mkDstream (children : List OpId) : M OpId := do mkUnary .dstream (fun _ => true) (← phyChild children 0)
def mkRstream (children : List OpId) : M OpId := do mkUnary .rstream (fun _ => true) (← phyChild children 0)

/-- The schema of the left input, with strings of the greater length. -/
def unionColumns (u : Uninit) : List Column → List Column → List Column
  | [], _ => []
  | l :: ls, rs =>
    (l.1,if l.1 = .char then max l.2 (rs.headD u.column).2 else l.2) :: unionColumns u ls rs.tail

def mkSetOp (body : Body) (bStream : Bool → Bool → Bool) (u : Uninit) (children : List OpId) : M OpId := do
  let op ← newOp body
  let leftPlan ← phyChild children 0
  let rightPlan ← phyChild children 1
  let l ← getOp leftPlan
  let r ← getOp rightPlan
  connect op body (unionColumns u l.attrs r.attrs) (bStream l.bStream r.bStream) [leftPlan, rightPlan]
  return op

def mkUnion (u : Uninit) (children : List OpId) : M OpId := mkSetOp .union (fun l r => l && r) u children
def mkExcept (u : Uninit) (children : List OpId) : M OpId := mkSetOp .except (fun _ _ => false) u children

def mkQrySrc (phyPlan : OpId) : M OpId := mkUnary .querySource (fun b => b) phyPlan
def mkOutput (phyPlan : OpId) : M OpId := mkUnary (.output 0 0) (fun b => b) phyPlan
def mkSink (op : OpId) : M OpId := mkUnary .sink (fun b => b) op

/-- The switch of `genPhysicalPlan`; `schemas` are the output schemas of the logical inputs. -/
def mkOperator (u : Uninit) (kind : Logical.Kind) (numOutAttrs : ℕ) (schemas : List (List Logical.Attr))
    (children : List OpId) : M OpId :=
  match kind with
  | .streamSource _ strId => mkStreamSource strId
  | .relnSource _ relId => mkRelnSource relId
  | .rowWin numRows => mkRowWin numRows children
  | .rangeWin timeUnits => mkRangeWin timeUnits children
  | .nowWin => mkNowWin children
  | .partnWin partnAttrs numRows => mkPartnWin u schemas partnAttrs numRows children
  | .select bexpr => mkSelect u schemas bexpr children
  | .project projExprs => mkProject u schemas projExprs numOutAttrs children
  | .cross => if schemas.length ≠ 2 then throw (.code (-1)) else mkJoin children
  | .streamCross => if schemas.length ≠ 2 then throw (.code (-1)) else mkStrJoin children
  | .groupAggr groupAttrs aggrs => mkGroupAggr u schemas groupAttrs aggrs children
  | .distinct => mkDistinct children
  | .istream => mkIstream children
  | .dstream => mkDstream children
  | .rstream => mkRstream children
  | .union => mkUnion u children
  | .except => mkExcept u children

mutual

def genPhysicalPlan (u : Uninit) : Logical.Plan → M OpId
  | .node kind outAttrs _ inputs => do
    let children ← genChildPlans u inputs
    mkOperator u kind outAttrs.length (inputs.map Logical.Plan.outAttrs) children

def genChildPlans (u : Uninit) : List Logical.Plan → M (List OpId)
  | [] => pure []
  | p :: ps => do
    let c ← genPhysicalPlan u p
    let cs ← genChildPlans u ps
    return c :: cs

end

end AqsiosCoordinator.Physical
