import AqsiosCoordinator.Metadata.TableManager
import AqsiosCoordinator.Foundation.Outcome
import Mathlib.Logic.Function.Basic

/-! # Logical operators

Logical operators live in a pool and are linked to a tree by `output` and
`inputs`. The constructors return null when the pool is used up.
-/
namespace AqsiosCoordinator.Logical
open Common Metadata

/-- Attributes of a logical plan: traced to a table, produced by an aggregation, or neither. -/
inductive Attr where
  | unnamed (type : DataType)
  | named (varId tableId attrId : ℕ)
  | aggr (varId tableId attrId : ℕ) (fn : AggrFn)
  deriving DecidableEq

/-- The equality of the source, which no unnamed attribute has with anything. -/
def Attr.same : Attr → Attr → Bool
  | .named v t a, .named v' t' a' => v = v' && t = t' && a = a'
  | .aggr v t a f, .aggr v' t' a' f' => v = v' && t = t' && a = a' && f = f'
  | _, _ => false

abbrev Expr := Common.Expr Attr
abbrev BExpr := Common.BExpr Attr

def MAX_INPUT_OPS : ℕ := 10
def MAX_GROUP_ATTRS : ℕ := 10
def MAX_AGGR_ATTRS : ℕ := 10
def MAXOPERATOR : ℕ := 500

inductive Kind where
  | streamSource (varId strId : ℕ)
  | relnSource (varId relId : ℕ)
  | rowWin (numRows : ℕ)
  | rangeWin (timeUnits : ℕ)
  | nowWin
  | partnWin (partnAttrs : List Attr) (numRows : ℕ)
  | select (bexpr : BExpr)
  | project (projExprs : List Expr)
  | cross
  | groupAggr (groupAttrs : List Attr) (aggrs : List (AggrFn × Attr))
  | distinct
  | istream
  | dstream
  | rstream
  | streamCross
  | union
  | except
  deriving DecidableEq

/-- The flag `bStream` that the constructors give an operator whose inputs have these. -/
def Kind.streams (kind : Kind) (inputs : List Bool) : Bool :=
  match kind with
  | .streamSource _ _ | .istream | .dstream | .rstream | .streamCross => true
  | .relnSource _ _ | .rowWin _ | .rangeWin _ | .nowWin | .partnWin _ _ | .groupAggr _ _ | .except => false
  | .select _ | .project _ | .distinct => inputs.headD false
  | .cross | .union => inputs.all id

abbrev OpId := ℕ

structure Operator where
  kind : Kind
  outAttrs : List Attr
  bStream : Bool
  output : Option OpId
  inputs : List OpId

/-- A logical plan as the tree that the operators below its root form. -/
inductive Plan where
  | node (kind : Kind) (outAttrs : List Attr) (bStream : Bool) (inputs : List Plan)

namespace Plan

def kind : Plan → Kind
  | node kind _ _ _ => kind
def outAttrs : Plan → List Attr
  | node _ outAttrs _ _ => outAttrs
def bStream : Plan → Bool
  | node _ _ bStream _ => bStream
def inputs : Plan → List Plan
  | node _ _ _ inputs => inputs

end Plan

/-- The pool of operators, of which the first `operatorPtr` are in use. -/
structure Pool where
  ops : OpId → Operator
  operatorPtr : ℕ

abbrev M := EStateM Failure Pool

namespace Pool

def set (p : Pool) (o : OpId) (op : Operator) : Pool := { p with ops := Function.update p.ops o op }

def setOutput (p : Pool) (o : OpId) (output : Option OpId) : Pool := p.set o { p.ops o with output := output }

def setInputs (p : Pool) (o : OpId) (inputs : List OpId) : Pool := p.set o { p.ops o with inputs := inputs }

variable (p : Pool) (o i : OpId) (op : Operator) (output : Option OpId) (inputs : List OpId)

@[simp] theorem set_self : (p.set o op).ops o = op := Function.update_self ..
@[simp] theorem setOutput_self : (p.setOutput o output).ops o = { p.ops o with output := output } := Function.update_self ..
@[simp] theorem setInputs_self : (p.setInputs o inputs).ops o = { p.ops o with inputs := inputs } := Function.update_self ..

variable {p o i op output inputs}

theorem set_of_ne (h : i ≠ o) : (p.set o op).ops i = p.ops i := Function.update_of_ne h ..
theorem setOutput_of_ne (h : i ≠ o) : (p.setOutput o output).ops i = p.ops i := Function.update_of_ne h ..
theorem setInputs_of_ne (h : i ≠ o) : (p.setInputs o inputs).ops i = p.ops i := Function.update_of_ne h ..

/-- The link to the output is all that `setOutput` changes. -/
theorem setOutput_fields : ((p.setOutput o output).ops i).kind = (p.ops i).kind ∧
    ((p.setOutput o output).ops i).outAttrs = (p.ops i).outAttrs ∧
    ((p.setOutput o output).ops i).bStream = (p.ops i).bStream ∧
    ((p.setOutput o output).ops i).inputs = (p.ops i).inputs := by
  by_cases h : i = o
  · subst h
    simp
  · simp [setOutput_of_ne h]

theorem eq_of_ops {q : Pool} (hptr : p.operatorPtr = q.operatorPtr) (h : ∀ o, p.ops o = q.ops o) : p = q := by
  obtain ⟨ops,ptr⟩ := p
  obtain rfl : ptr = q.operatorPtr := hptr
  exact congrArg (fun f => Pool.mk f q.operatorPtr) (funext h)

@[simp] theorem setOutput_kind : ((p.setOutput o output).ops i).kind = (p.ops i).kind := setOutput_fields.1
@[simp] theorem setOutput_outAttrs : ((p.setOutput o output).ops i).outAttrs = (p.ops i).outAttrs := setOutput_fields.2.1
@[simp] theorem setOutput_bStream : ((p.setOutput o output).ops i).bStream = (p.ops i).bStream := setOutput_fields.2.2.1
@[simp] theorem setOutput_inputs : ((p.setOutput o output).ops i).inputs = (p.ops i).inputs := setOutput_fields.2.2.2

end Pool

def getOp (o : OpId) : M Operator := do return (← get).ops o

def setOp (o : OpId) (op : Operator) : M Unit := modify (fun p => p.set o op)

/-- Dereferences a pointer that the code takes to be non-null. -/
def deref (o : Option OpId) : M OpId :=
  match o with
  | some x => pure x
  | none => throw .nullDeref

/-- Allocates an operator with the given fields and makes it the output of its inputs. -/
def newop (kind : Kind) (outAttrs : List Attr) (bStream : Bool) (inputs : List OpId) : M (Option OpId) := do
  let p ← get
  if p.operatorPtr = MAXOPERATOR then return none
  let op := p.operatorPtr
  set ({ p with operatorPtr := op + 1 }.set op ⟨kind,outAttrs,bStream,none,inputs⟩)
  for i in inputs do modify (fun p => p.setOutput i (some op))
  return some op

def tableAttrs (tableMgr : TableManager) (varId tableId : ℕ) : List Attr :=
  (List.range (tableMgr.getNumAttrs tableId)).map (fun a => .named varId tableId a)

def mkCross : M (Option OpId) := newop .cross [] true []

def crossAddInput (cross input : OpId) : M (Option OpId) := do
  let c ← getOp cross
  let i ← getOp input
  if c.outAttrs.length + i.outAttrs.length > MAX_ATTRS then return none
  if c.inputs.length = MAX_INPUT_OPS then return none
  setOp cross ⟨c.kind,c.outAttrs ++ i.outAttrs,c.bStream && i.bStream,c.output,c.inputs ++ [input]⟩
  modify (fun p => p.setOutput input (some cross))
  return some cross

def mkStreamCross (streamInput : OpId) : M (Option OpId) := do
  let i ← getOp streamInput
  newop .streamCross i.outAttrs true [streamInput]

/-- The input is added before the attributes are counted. -/
def streamCrossAddInput (op input : OpId) : M (Option OpId) := do
  let c ← getOp op
  if c.inputs.length = MAX_INPUT_OPS then return none
  modify (fun p => p.setInputs op (c.inputs ++ [input]))
  modify (fun p => p.setOutput input (some op))
  let c ← getOp op
  let i ← getOp input
  if c.outAttrs.length + i.outAttrs.length > MAX_ATTRS then return none
  setOp op { c with outAttrs := c.outAttrs ++ i.outAttrs }
  return some op

end AqsiosCoordinator.Logical
