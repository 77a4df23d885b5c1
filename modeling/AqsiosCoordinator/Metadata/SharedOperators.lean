import AqsiosCoordinator.Metadata.PlanTrans

/-! # Finding shared operators

Operators are compared and merged level by level, from the sources on.
-/
namespace AqsiosCoordinator.Physical
open Common Foundation

/-- Equality of expressions; types are compared for constants only. -/
def exprEq : Expr → Expr → Bool
  | .constVal c, .constVal d => c = d
  | .attrRef _ a, .attrRef _ b => a = b
  | .compExpr _ op l r, .compExpr _ op' l' r' => op = op' && exprEq l l' && exprEq r r'
  | _, _ => false

def bexprEq (b c : BExpr) : Bool := b.op = c.op && exprEq b.left c.left && exprEq b.right c.right

def predEq : List BExpr → List BExpr → Bool
  | [], [] => true
  | b :: bs, c :: cs => bexprEq b c && predEq bs cs
  | _, _ => false

/-- Compares the predicates two pointers lead to; neither may be null. -/
def comparePreds (p q : List BExpr) : Except Failure Bool :=
  if p = [] ∨ q = [] then .error .nullDeref else .ok (predEq p q)

def compareProjs : ℕ → List Expr → List Expr → Except Failure Bool
  | 0, _, _ => .ok true
  | n+1, e :: es, f :: fs => if exprEq e f then compareProjs n es fs else .ok false
  | _+1, _, _ => .error .nullDeref

/-- The comparisons of the parameters of two operators with equal inputs and equal
schemas of `numAttrs` columns. -/
def compareBodies (numAttrs : ℕ) : Body → Body → Except Failure Bool
  | .select p, .select q => comparePreds p q
  | .project es, .project fs => compareProjs numAttrs es fs
  | .join o i p, .join o' i' q => if o ≠ o' ∨ i ≠ i' then .ok false else comparePreds p q
  | .strJoin o i p, .strJoin o' i' q => if o ≠ o' ∨ i ≠ i' then .ok false else comparePreds p q
  | .joinProject es p, .joinProject fs q => do
    if ← comparePreds p q then compareProjs numAttrs es fs else return false
  | .strJoinProject es p, .strJoinProject fs q => do
    if ← comparePreds p q then compareProjs numAttrs es fs else return false
  | .groupAggr gs as, .groupAggr hs bs => .ok (gs = hs && as = bs)
  | .distinct, .distinct => .ok true
  | .rowWin n, .rowWin m => .ok (n = m)
  | .rangeWin t, .rangeWin u => .ok (t = u)
  | .partnWin as n, .partnWin bs m => .ok (as = bs && n = m)
  | .istream, .istream => .ok true
  | .dstream, .dstream => .ok true
  | .rstream, .rstream => .ok true
  | .union, .union => .ok true
  | .except, .except => .ok true
  | _, _ => .ok false

def compareInputs (compare : OpId → OpId → Except Failure Bool) : List OpId → List OpId → Except Failure Bool
  | a :: as, b :: bs => do if ← compare a b then compareInputs compare as bs else return false
  | _, _ => .ok true

def compareOperators (ops : OpId → Operator) : ℕ → OpId → OpId → Except Failure Bool
  | 0, _, _ => .error .nonTermination
  | fuel+1, op1, op2 => do
    let o1 := ops op1
    let o2 := ops op2
    if op1 = op2 then return true
    if o1.body.kind ≠ o2.body.kind ∨ o1.attrs ≠ o2.attrs ∨ o1.bStream ≠ o2.bStream ∨
      o1.inputs.length ≠ o2.inputs.length then return false
    if ← compareInputs (compareOperators ops fuel) o1.inputs o2.inputs
    then compareBodies o1.attrs.length o1.body o2.body else return false

def lastIdx (a : OpId) : List OpId → Option ℕ
  | [] => none
  | b :: l => match lastIdx a l with
    | some i => some (i + 1)
    | none => if b = a then some 0 else none

/-- Copies the outputs of `op2` behind the `i` outputs of `op1` and makes them read
from `op1`; false when one does not read from `op2`. -/
def moveOutputs (op1 op2 : OpId) : ℕ → List OpId → M Bool
  | _, [] => return true
  | i, q :: qs => do
    failIf (i ≥ MAX_OUT_BRANCHING) .outOfBounds
    match lastIdx op2 (← getOp q).inputs with
    | none => return false
    | some l =>
      modifyOp q (fun o => { o with inputs := o.inputs.set l op1 })
      moveOutputs op1 op2 (i + 1) qs

/-- Removes `op` from the outputs of its inputs; false when one does not have it. -/
def dropFromInputs (op : OpId) : List OpId → M Bool
  | [] => return true
  | c :: cs => do
    match lastIdx op (← getOp c).outputs with
    | none => return false
    | some k =>
      modifyOp c (fun o => { o with outputs := o.outputs.eraseIdx k })
      dropFromInputs op cs

/-- Takes an operator that has both neighbours off the list of used operators. -/
def unlinkOp (op : OpId) : M Unit := do
  let s ← get
  match s.links.prev op, s.links.next op with
  | some p, some n => set { s with links := (s.links.setNext p (some n)).setPrev n (some p) }
  | _, _ => throw .nullDeref

/-- Combines two operators into `op1`; false when the merge is given up. -/
def mergeOperators (op1 op2 : OpId) (sharingAmongClass : Bool) : M Bool := do
  let o1 ← getOp op1
  let o2 ← getOp op2
  if o1.queryClassId ≠ o2.queryClassId && !sharingAmongClass then return false
  if o2.queryClassId < o1.queryClassId then
    modifyOp op1 (fun o => { o with queryClassId := o2.queryClassId })
  if !(← moveOutputs op1 op2 o1.outputs.length o2.outputs) then return false
  modifyOp op1 (fun o => { o with outputs := o.outputs ++ o2.outputs })
  if !(← dropFromInputs op2 o2.inputs) then return false
  unlinkOp op2
  return true

/-- A merge of the run, by survivor and operator merged away. -/
abbrev Merge := OpId × OpId

def compare (op1 op2 : OpId) : M Bool := do
  match compareOperators (← get).ops (MAX_OPS + 1) op1 op2 with
  | .ok same => return same
  | .error e => throw e

/-- Compares `x` with the operators behind it and merges the equal ones into it. The
result is what is left of these operators, and the merges that were not given up. -/
def mergeInto (sharing : Bool) (x : OpId) : List OpId → M (List OpId × List Merge)
  | [] => return ([],[])
  | y :: ys => do
    if ← compare x y then
      let merged ← mergeOperators x y sharing
      let r ← mergeInto sharing x ys
      return (r.1,if merged then (x,y) :: r.2 else r.2)
    else
      let r ← mergeInto sharing x ys
      return (y :: r.1,r.2)

/-- One level: the operators of the level in turn. The result is `next_ops`, and the merges. -/
def shareLevel (sharing : Bool) : ℕ → List OpId → M (List OpId × List Merge)
  | _, [] => return ([],[])
  | 0, _ :: _ => throw .nonTermination
  | fuel+1, x :: ys => do
    let r ← mergeInto sharing x ys
    let outs := (← getOp x).outputs
    let next ← shareLevel sharing fuel r.1
    return (outs ++ next.1,r.2 ++ next.2)

def firstOccurrences (ops : List OpId) : List OpId :=
  ops.foldl (fun cur o => if o ∈ cur then cur else cur ++ [o]) []

/-- The levels from `currentOps` on; the result is the merges of each level. -/
def shareLevels (sharing : Bool) : ℕ → List OpId → M (List (List Merge))
  | _, [] => return []
  | 0, _ :: _ => throw .nonTermination
  | fuel+1, currentOps => do
    let r ← shareLevel sharing currentOps.length currentOps
    let rest ← shareLevels sharing fuel (firstOccurrences r.1)
    return r.2 :: rest

/-- The sources in use, which are the first work list. -/
def PlanState.dataSources (s : PlanState) : List OpId :=
  s.used.filter (fun o => (s.ops o).body.kind = .streamSource || (s.ops o).body.kind = .relnSource)

def findSharedOps (sharingAmongClasses : Bool) : M (List (List Merge)) := do
  shareLevels sharingAmongClasses (MAX_OPS + 1) (← get).dataSources

def optimizePlan (sharingAmongClasses : Bool) : M Unit := do
  removeQuerySources
  addSinks
  mergeSelects
  let _ ← findSharedOps sharingAmongClasses
  mergeProjectsToJoin

end AqsiosCoordinator.Physical
