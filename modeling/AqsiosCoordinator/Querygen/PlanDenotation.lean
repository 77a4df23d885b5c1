import AqsiosCoordinator.Querygen.PlanSchemas
import AqsiosCoordinator.Common.Interpretation
import AqsiosCoordinator.Foundation.CrossProduct

/-! # What logical plans compute

An attribute of an operator is looked up by name in the schema of the input: the first
column with the same attribute counts.
-/
namespace AqsiosCoordinator.Logical
open Common Foundation Metadata
variable {α : Type}

section Lookup
variable (I : Interp α)

def lookup (schema : List Attr) (r : Row α) (a : Attr) : α :=
  match schema.findIdx? (fun b => a.same b) with
  | some k => r.getD k I.null
  | none => I.null

def exprRow (schema : List Attr) (exprs : List Expr) (r : Row α) : Row α := exprs.map (I.value (lookup I schema r))

/-- The aggregations of the rows of a group; column `k` of `rows` has what is aggregated `k`-th. -/
def aggrRow (aggrs : List (AggrFn × Attr)) (rows : Multiset (Row α)) : Row α :=
  aggrs.zipIdx.map fun a => I.aggr a.1.1 (rows.map fun r => r.getD a.2 I.null)

variable {I} {l r : List Attr} {x y : Row α} {a : Attr}

theorem lookup_append_left (h : l.any (fun b => a.same b) = true) :
    lookup I (l ++ r) (fit I.null l.length x ++ y) a = lookup I l x a := by
  obtain ⟨k,hk⟩ : ∃ k, l.findIdx? (fun b => a.same b) = some k := by
    rw [← Option.isSome_iff_exists, List.findIdx?_isSome]
    exact h
  have hlt : k < l.length := (List.findIdx?_eq_some_iff_getElem.mp hk).1
  simp only [lookup, List.findIdx?_append, hk, Option.some_or]
  rw [List.getD_append _ _ _ _ (by simpa using hlt), getD_fit hlt]

theorem lookup_append_right (h : l.any (fun b => a.same b) = false) (hr : r.any (fun b => a.same b) = true) :
    lookup I (l ++ r) (fit I.null l.length x ++ fit I.null r.length y) a = lookup I r y a := by
  have hl : l.findIdx? (fun b => a.same b) = none := by
    rw [List.findIdx?_eq_none_iff]
    simpa using h
  obtain ⟨k,hk⟩ : ∃ k, r.findIdx? (fun b => a.same b) = some k := by
    rw [← Option.isSome_iff_exists, List.findIdx?_isSome]
    exact hr
  have hlt : k < r.length := (List.findIdx?_eq_some_iff_getElem.mp hk).1
  simp only [lookup, List.findIdx?_append, hl, hk, Option.none_or, Option.map_some]
  rw [List.getD_append_right _ _ _ _ (by simp), length_fit, Nat.add_sub_cancel_right, getD_fit hlt]

end Lookup

section Denotation
variable [DecidableEq α] (I : Interp α) (S : Sources α)

/-- An operator of the kind on inputs with these schemas; `numAttrs` is the length of its own. -/
def Kind.denote (kind : Kind) (numAttrs : ℕ) (inputs : List (List Attr × TimeVarying α)) : TimeVarying α :=
  let schema := (inputs.headD ([],fun _ => 0)).1
  let input : TimeVarying α := (inputs.headD ([],fun _ => 0)).2
  let right : TimeVarying α := (inputs.getD 1 ([],fun _ => 0)).2
  let factors := inputs.map fun i => (i.1.length,i.2)
  match kind with
  | .streamSource _ tableId => (S.table tableId).map (fit I.null numAttrs)
  | .relnSource _ tableId => (S.table tableId).map (fit I.null numAttrs)
  | .rowWin numRows => input.partitionWindow S.order numRows fun _ => []
  | .rangeWin timeUnits => input.rangeWindow timeUnits
  | .nowWin => input.rangeWindow 1
  | .partnWin partnAttrs numRows => input.partitionWindow S.order numRows fun r => partnAttrs.map (lookup I schema r)
  | .select bexpr => input.filter fun r => I.compare (lookup I schema r) bexpr
  | .project projExprs => input.map (exprRow I schema projExprs)
  | .cross => .cross I.null factors
  | .streamCross => .streamCross I.null factors
  | .groupAggr groupAttrs aggrs =>
    input.group (!groupAttrs.isEmpty) (fun r => groupAttrs.map (lookup I schema r))
      (fun r => aggrs.map fun a => lookup I schema r a.2) (aggrRow I aggrs)
  | .distinct => input.distinct
  | .istream => input.istream
  | .dstream => input.dstream
  | .rstream => input.rstream
  | .union => input.union (right.map (fit I.null numAttrs))
  | .except => input.except (right.map (fit I.null numAttrs))

namespace Plan

mutual

def denote : Plan → TimeVarying α
  | .node kind outAttrs _ inputs => kind.denote I S outAttrs.length (denoteAll inputs)

def denoteAll : List Plan → List (List Attr × TimeVarying α)
  | [] => []
  | p :: ps => (p.outAttrs,denote p) :: denoteAll ps

end

variable {I S} {p q : Plan}

theorem denoteAll_eq_map (ps : List Plan) : denoteAll I S ps = ps.map fun p => (p.outAttrs,p.denote I S) := by
  induction ps with
  | nil => simp [denoteAll]
  | cons p ps ih => simp [denoteAll,ih]

@[simp] theorem denote_node (kind : Kind) (outAttrs : List Attr) (bStream : Bool) (inputs : List Plan) :
    (node kind outAttrs bStream inputs).denote I S =
      kind.denote I S outAttrs.length (inputs.map fun p => (p.outAttrs,p.denote I S)) := by
  rw [denote, denoteAll_eq_map]

structure Same (p q : Plan) : Prop where
  outAttrs : q.outAttrs = p.outAttrs
  bStream : q.bStream = p.bStream
  denote : ∀ (α : Type) [DecidableEq α] (I : Interp α) (S : Sources α), q.denote I S = p.denote I S

theorem Same.refl (p : Plan) : Same p p := ⟨rfl,rfl,fun _ _ _ _ => rfl⟩

theorem Same.trans {r : Plan} (h : Same p q) (h' : Same q r) : Same p r := by
  refine ⟨h'.outAttrs.trans h.outAttrs,h'.bStream.trans h.bStream,fun α _ I S => ?_⟩
  exact (h'.denote α I S).trans (h.denote α I S)

/-- An operator computes the same from inputs that are the same. -/
theorem Same.node {kind : Kind} {outAttrs : List Attr} {bStream : Bool} {inputs inputs' : List Plan}
    (h : List.Forall₂ Same inputs inputs') : Same (.node kind outAttrs bStream inputs) (.node kind outAttrs bStream inputs') := by
  refine ⟨rfl,rfl,fun α _ I S => ?_⟩
  have hinputs : (inputs'.map fun p => (p.outAttrs,p.denote I S)) = inputs.map fun p => (p.outAttrs,p.denote I S) := by
    induction h with
    | nil => rfl
    | cons h _ ih => simp only [List.map_cons, ih, h.outAttrs, h.denote α I S]
  rw [denote_node, denote_node, hinputs]

theorem Same.rebuild {passed : List Passed} (h : Same p q) : Same (rebuild p passed) (rebuild q passed) := by
  induction passed generalizing p q with
  | nil => exact h
  | cons o passed ih => exact ih (p := above o p) (q := above o q) (.node (.cons h .nil))

end Plan
end Denotation
end AqsiosCoordinator.Logical
