import AqsiosCoordinator.Querygen.LogNaivePlanGen

/-! # Transforming logical plans

The transformations walk down from the root through operators with one input, and
back up along the `output` pointers. Here the way back is the list of the operators
passed, the last one first.
-/
namespace AqsiosCoordinator.Logical
open Common Foundation Metadata

structure Passed where
  kind : Kind
  outAttrs : List Attr
  bStream : Bool

namespace Plan

def above (o : Passed) (input : Plan) : Plan := .node o.kind o.outAttrs o.bStream [input]

def rebuild (p : Plan) : List Passed → Plan
  | [] => p
  | o :: passed => rebuild (above o p) passed

def walk (through : Kind → Bool) : Plan → List Passed → List Passed × Plan
  | .node kind outAttrs bStream [input], passed =>
    if through kind then walk through input (⟨kind,outAttrs,bStream⟩ :: passed)
    else (passed,.node kind outAttrs bStream [input])
  | p, passed => (passed,p)

def isSelectProjectDistinct : Kind → Bool
  | .select _ | .project _ | .distinct => true
  | _ => false

/-- Removes RSTREAM and NOW when only selects, projects and distincts are between them. -/
def tRstreamNow (plan : Plan) : Plan :=
  match plan with
  | .node .rstream _ _ [input] =>
    match walk isSelectProjectDistinct input [] with
    | (passed,.node .nowWin _ _ [source]) => rebuild source (passed.map fun o => { o with bStream := true })
    | _ => plan
  | _ => plan

def schemaStops : Kind → Bool
  | .project _ | .groupAggr _ _ | .streamSource _ _ | .relnSource _ _ => true
  | _ => false

/-- Gives the operators above `input` the schema of their input, up to the first that has its own. -/
def updateSchemaRecursive (input : Plan) : List Passed → Gen (List Passed)
  | [] => pure []
  | o :: passed => do
    if schemaStops o.kind then return o :: passed
    if o.kind = .union ∨ o.kind = .except then throw (.code (-1))
    let o := { o with outAttrs := appendSchema [] input.outAttrs }
    return o :: (← updateSchemaRecursive (above o input) passed)

/-- Gives the operators above `input` the flag of their input, up to the first that has its own. -/
def updateStreamPropertyRecursive (input : Plan) : List Passed → Gen (List Passed)
  | [] => pure []
  | o :: passed => do
    match o.kind with
    | .project _ | .select _ | .distinct | .cross =>
      let o := { o with bStream := input.bStream }
      return o :: (← updateStreamPropertyRecursive (above o input) passed)
    -- a union has two inputs and is not among the operators passed
    | .union => throw .outOfBounds
    | _ => return o :: passed

def isAboveCross : Kind → Bool
  | .project _ | .distinct | .groupAggr _ _ | .select _ => true
  | _ => false

def isNowWin (p : Plan) : Bool := decide (p.kind = .nowWin)

def streamCrossAddInputs (cross : Plan) (inputs : List Plan) : Gen Plan :=
  inputs.foldlM (fun cross i => do orFail (← streamCrossAddInput (some cross) (some i))) cross

/-- Replaces a CROSS with a NOW below an RSTREAM by a STREAM CROSS without either. -/
def tStreamCross (plan : Plan) : Gen Plan :=
  match plan with
  | .node .rstream outAttrs bStream [input] =>
    match walk isAboveCross input [⟨.rstream,outAttrs,bStream⟩] with
    | (passed,.node .cross _ _ inputs) =>
      match inputs.findIdx? isNowWin with
      | none => pure plan
      | some nowIndex => do
        let now ← deref inputs[nowIndex]?
        let streamSource ← deref now.inputs[0]?
        let streamCross ← orFail (← mkStreamCross (some streamSource))
        let streamCross ← streamCrossAddInputs streamCross (inputs.eraseIdx nowIndex)
        let passed ← updateSchemaRecursive streamCross passed
        let passed ← updateStreamPropertyRecursive streamCross passed
        -- the last of the operators passed is the rstream
        return rebuild streamCross passed.dropLast
    | _ => pure plan
  | _ => pure plan

def isUselessProject (project input : Plan) : Bool :=
  project.outAttrs.length == input.outAttrs.length &&
    (project.outAttrs.zip input.outAttrs).all (fun a => a.1.same a.2)

def isSelectDistinctXStream : Kind → Bool
  | .select _ | .distinct | .rstream | .dstream | .istream => true
  | _ => false

def tRemoveProject (plan : Plan) : Plan :=
  match walk isSelectDistinctXStream plan [] with
  | (passed,.node (.project projExprs) outAttrs bStream [input]) =>
    if isUselessProject (.node (.project projExprs) outAttrs bStream [input]) input then rebuild input passed else plan
  | _ => plan

def isUnaryAboveCross : Kind → Bool
  | .select _ | .project _ | .groupAggr _ _ | .distinct | .istream | .dstream | .rstream => true
  | _ => false

def binaryCross (left right : Plan) : Gen Plan := do
  let cross ← orFail (← mkCross)
  let cross ← orFail (← crossAddInput (some cross) (some left))
  orFail (← crossAddInput (some cross) (some right))

def binaryStreamCross (left right : Plan) : Gen Plan := do
  let cross ← orFail (← mkStreamCross (some left))
  orFail (← streamCrossAddInput (some cross) (some right))

/-- The loop that makes an operator with several inputs a sequence of binary ones. -/
def makeBinary (binary : Plan → Plan → Gen Plan) (isCross : Kind → Bool) (plan : Plan) : Gen Plan :=
  match walk isUnaryAboveCross plan [] with
  | (passed,.node kind _ _ inputs) =>
    if isCross kind then
      match inputs with
      | [_, _] => pure plan
      | first :: second :: rest => do
        let cross ← binary first second
        return rebuild (← rest.foldlM binary cross) passed
      | _ => throw .outOfBounds
    else pure plan

def tMakeCrossBinary (plan : Plan) : Gen Plan := makeBinary binaryCross (fun kind => decide (kind = .cross)) plan

def tMakeStreamCrossBinary (plan : Plan) : Gen Plan :=
  makeBinary binaryStreamCross (fun kind => decide (kind = .streamCross)) plan

def checkReference (p : Plan) : Expr → Bool
  | .constVal _ => true
  | .attrRef _ attr => p.outAttrs.any (fun a => attr.same a)
  | .compExpr _ _ left right => checkReference p left && checkReference p right

def checkReferences (p : Plan) (bexpr : BExpr) : Bool := checkReference p bexpr.left && checkReference p bexpr.right

/-- The copy of the select above the operator that it cannot be pushed below. -/
def copyAbove (bexpr : BExpr) (bUsefulPush : Bool) (op : Plan) : Gen (Option Plan) := do
  if bUsefulPush then return some (← deref (← mkSelect (some op) bexpr))
  return none

mutual

/-- Puts a copy of the select below the crosses that it can be pushed below. Nothing is
returned when it stays above all crosses; `bUsefulPush` tells that there is one above `p`. -/
def pushSelect (bexpr : BExpr) (bUsefulPush : Bool) : Plan → Gen (Option Plan)
  | .node (.select pred) outAttrs bStream inputs => do
    match ← pushBelow bexpr (fun _ => true) bUsefulPush inputs with
    | some (some inputs) => return some (.node (.select pred) outAttrs bStream inputs)
    | _ => return none
  | .node kind outAttrs bStream inputs => do
    if kind = .cross ∨ kind = .streamCross then
      match ← pushBelow bexpr (fun input => checkReferences input bexpr) true inputs with
      | some (some inputs) => return some (.node kind outAttrs bStream inputs)
      | some none => return none
      | none => copyAbove bexpr bUsefulPush (.node kind outAttrs bStream inputs)
    else copyAbove bexpr bUsefulPush (.node kind outAttrs bStream inputs)

/-- Pushes the select to the first input that fits, if there is one. -/
def pushBelow (bexpr : BExpr) (fits : Plan → Bool) (bUsefulPush : Bool) : List Plan → Gen (Option (Option (List Plan)))
  | [] => pure none
  | input :: inputs => do
    if fits input then
      match ← pushSelect bexpr bUsefulPush input with
      | some input => return some (some (input :: inputs))
      | none => return some none
    else
      match ← pushBelow bexpr fits bUsefulPush inputs with
      | some (some inputs) => return some (some (input :: inputs))
      | r => return r

end

/-- Pushes `n` selects that stand on top of each other, from the topmost on. -/
def pushSelects : ℕ → Plan → Gen Plan
  | n+1, .node (.select bexpr) outAttrs bStream [input] => do
    match ← pushSelect bexpr false input with
    | some input => pushSelects n input
    | none => return .node (.select bexpr) outAttrs bStream [← pushSelects n input]
  | _, p => pure p

def isSelect : Kind → Bool
  | .select _ => true
  | _ => false

def isUnaryAboveSelect : Kind → Bool
  | .istream | .dstream | .rstream | .project _ | .distinct | .groupAggr _ _ => true
  | _ => false

/-- Pushes the selects above a cross below it, each to the input that has all its attributes. -/
def tPushSelect (plan : Plan) : Gen Plan :=
  match walk isUnaryAboveSelect plan [] with
  | (passed,p) =>
    let selects := (walk isSelect p []).1
    if selects.isEmpty then pure plan else do return rebuild (← pushSelects selects.length p) passed

end Plan

def genLogPlan (tableMgr : TableManager) (query : Semantic.Query) : Gen Plan := do
  let plan ← Plan.deref (← Plan.genPlan tableMgr query)
  let plan := Plan.tRstreamNow plan
  let plan ← Plan.tStreamCross plan
  let plan := Plan.tRemoveProject plan
  let plan ← Plan.tMakeCrossBinary plan
  let plan ← Plan.tMakeStreamCrossBinary plan
  Plan.tPushSelect plan

end AqsiosCoordinator.Logical
