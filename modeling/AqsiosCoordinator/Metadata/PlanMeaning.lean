import AqsiosCoordinator.Metadata.SharedPlans
import AqsiosCoordinator.Common.Interpretation
import AqsiosCoordinator.Foundation.CrossProduct
import AqsiosCoordinator.Foundation.Valuation

/-! # What physical plans compute

The meaning of an operator is a function of the time-varying bags at its inputs. A
meaning of a plan gives every operator its bag; an acyclic plan has exactly one.
-/
namespace AqsiosCoordinator.Physical
open Common Foundation Foundation.Outcome
variable {α : Type}

section Rows
variable (I : Interp α)

def attrValue (rows : List (Row α)) (a : Attr) : α := (rows.getD a.input []).getD a.pos I.null

/-- The row of a join: the columns of the outer row, then the inner row. -/
def joinedRow (numOuterAttrs : ℕ) (outer inner : Row α) : Row α :=
  fit I.null numOuterAttrs outer ++ inner

def projectedRow (rows : List (Row α)) (projs : List Expr) : Row α := projs.map (I.value (attrValue I rows))

/-- The aggregations of the rows of a group; column `k` of `rows` has what is aggregated `k`-th. -/
def aggregatedRow (aggrs : List (AggrFn × Attr)) (rows : Multiset (Row α)) : Row α :=
  aggrs.zipIdx.map fun a => I.aggr a.1.1 (rows.map fun r => r.getD a.2 I.null)

end Rows

section Meaning
variable [DecidableEq α] (I : Interp α) (S : Sources α)

def Body.meaning (numAttrs : ℕ) (body : Body) (inputs : List (TimeVarying α)) : TimeVarying α :=
  let left := inputs.getD 0 fun _ => 0
  let right := inputs.getD 1 fun _ => 0
  let holds (pred : List BExpr) (l r : Row α) := I.holds (attrValue I [l, r]) pred
  match body with
  | .select pred => left.filter fun r => I.holds (attrValue I [r]) pred
  | .project projs => left.map fun r => projectedRow I [r] (projs.take numAttrs)
  | .join outer _ pred => .join (holds pred) (joinedRow I outer) left right
  | .strJoin outer _ pred => .streamJoin (holds pred) (joinedRow I outer) left right
  | .joinProject projs pred => .join (holds pred) (fun l r => projectedRow I [l, r] (projs.take numAttrs)) left right
  | .strJoinProject projs pred =>
    .streamJoin (holds pred) (fun l r => projectedRow I [l, r] (projs.take numAttrs)) left right
  | .groupAggr groupAttrs aggrs =>
    left.group (!groupAttrs.isEmpty) (fun r => groupAttrs.map (attrValue I [r]))
      (fun r => aggrs.map fun a => attrValue I [r] a.2) (aggregatedRow I aggrs)
  | .distinct => left.distinct
  | .rowWin numRows => left.partitionWindow S.order numRows fun _ => []
  | .rangeWin timeUnits => left.rangeWindow timeUnits
  | .partnWin partnAttrs numRows => left.partitionWindow S.order numRows fun r => partnAttrs.map (attrValue I [r])
  | .istream => left.istream
  | .dstream => left.dstream
  | .rstream => left.rstream
  | .union => left.union right
  | .except => left.except right
  | .streamSource strId _ => S.table strId
  | .relnSource relId _ => S.table relId
  | .ssGen => S.table SysStream.SS_ID
  | .querySource => left
  | .output _ _ => left
  | .sink => left

def Operator.meaning (o : Operator) : List (TimeVarying α) → TimeVarying α := o.body.meaning I S o.attrs.length

/-- `D` gives every operator in use the bag that it computes. -/
def PlanState.Meaning (s : PlanState) (D : OpId → TimeVarying α) : Prop :=
  IsValuation s.ports.inputs (fun o => (s.ops o).meaning I S) s.used D

end Meaning

def PlanState.received (s : PlanState) (D : OpId → TimeVarying α) (o : OpId) : List (TimeVarying α) :=
  (s.ops o).inputs.map D

variable [DecidableEq α] {I : Interp α} {S : Sources α} {s t u : PlanState} {op i : OpId}

theorem exists_meaning (I : Interp α) (S : Sources α) (hc : s.ports.Consistent s.used) (hac : s.ports.Acyclic s.used) :
    ∃ D, s.Meaning I S D :=
  exists_valuation _ hc.inputs_mem hac

theorem PlanState.Meaning.unique {D D' : OpId → TimeVarying α} (h : s.Meaning I S D) (h' : s.Meaning I S D')
    (hc : s.ports.Consistent s.used) (hac : s.ports.Acyclic s.used) : ∀ o ∈ s.used, D o = D' o :=
  IsValuation.unique h h' hc.inputs_mem hac

theorem PlanState.Meaning.received_eq {D D' : OpId → TimeVarying α} (h : s.Meaning I S D) (h' : s.Meaning I S D')
    (hc : s.ports.Consistent s.used) (hac : s.ports.Acyclic s.used) {o : OpId} (ho : o ∈ s.used) :
    s.received D o = s.received D' o :=
  List.map_congr_left fun c hcm => h.unique h' hc hac c (hc.inputs_mem o ho c hcm)

def SameElsewhere (op i : OpId) (s u : PlanState) (D D' : OpId → TimeVarying α) : Prop :=
  ∀ o ∈ s.used, o ≠ op → o ≠ i → u.received D' o = s.received D o

/-- Merging an operator into its input, which nobody else reads. -/
theorem PlanState.Meaning.merge {done rest : List OpId} {x : Operator} {D : OpId → TimeVarying α} (h : s.Meaning I S D)
    (hs : PoolInv s) (hc : s.ports.Consistent s.used) (hop : op ∈ s.used) (hin : (s.ops op).inputs = [i])
    (hout : (s.ops i).outputs = [op]) (hx : x.inputs = (s.ops i).inputs)
    (hr : Removed done rest op i (s.setOp i x) u)
    (hmeaning : ∀ vs, x.meaning I S vs = (s.ops op).meaning I S [(s.ops i).meaning I S vs]) :
    u.Meaning I S (mergedValue op i D) ∧ SameElsewhere op i s u D (mergedValue op i D) := by
  have hused : (s.setOp i x).used = s.used := rfl
  have hins (o : OpId) : (s.setOp i x).ports.inputs o = s.ports.inputs o := by
    by_cases ho : o = i
    · simp [ho,hx]
    · simp [setOp_ops_of_ne _ ho]
  have hD : IsValuation (s.setOp i x).ports.inputs (fun o => (s.ops o).meaning I S) s.used D := by
    intro o ho
    rw [hins]
    exact h o ho
  have hiV : i ∈ s.used := hc.inputs_mem op hop i (by simp [hin])
  have honly : ∀ o ∈ s.used, i ∈ (s.setOp i x).ports.inputs o → o = op := by
    intro o ho hmem
    rw [hins] at hmem
    have hread := (hc.mem_iff ho hiV).mp hmem
    rw [ports_outputs, hout] at hread
    exact List.mem_singleton.mp hread
  have hsame (o : OpId) : (u.ops o).meaning I S = ((s.setOp i x).ops o).meaning I S := by
    obtain ⟨ins,outs,-,heq⟩ := hr.fields o
    rw [heq]
    rfl
  have hby := hr.bypassed
  rw [hused] at hby
  constructor
  · unfold PlanState.Meaning
    rw [hr.erase ⟨hs.1,hs.2,hs.3⟩, hused]
    refine hD.bypass hby hs.nodup hop ((hins op).trans hin) honly (fun o _ hoi => ?_) ?_
    · rw [hsame, setOp_ops_of_ne _ hoi]
    · rw [hsame, setOp_ops_self]
      exact hmeaning _
  · intro o ho hoop hoi
    have hread : i ∉ (s.setOp i x).ports.inputs o := fun hmem => hoop (honly o ho hmem)
    have hvals := hby.values_eq (D := D) ho hoop hread
    rw [hins] at hvals
    exact hvals

/-- Every output and sink of `s₀` is in `s`, and receives there what it did. -/
def OutputsKept (s₀ s : PlanState) : Prop :=
  ∀ (α : Type) [DecidableEq α] (I : Interp α) (S : Sources α) (D : OpId → TimeVarying α), s₀.Meaning I S D →
    ∃ D', s.Meaning I S D' ∧ ∀ o ∈ s₀.used, (s₀.ops o).body.kind.isOutput = true →
      o ∈ s.used ∧ (s.ops o).body = (s₀.ops o).body ∧ s.received D' o = s₀.received D o

theorem OutputsKept.refl (s : PlanState) : OutputsKept s s :=
  fun _ _ _ _ D hD => ⟨D,hD,fun _ ho _ => ⟨ho,rfl,rfl⟩⟩

theorem OutputsKept.merge {s₀ : PlanState} {done rest : List OpId} {x : Operator} (h : OutputsKept s₀ s)
    (hs : PoolInv s) (hc : s.ports.Consistent s.used) (hop : op ∈ s.used) (hin : (s.ops op).inputs = [i])
    (hout : (s.ops i).outputs = [op]) (hx : x.inputs = (s.ops i).inputs)
    (hr : Removed done rest op i (s.setOp i x) u) (hkop : (s.ops op).body.kind.isOutput = false)
    (hki : (s.ops i).body.kind.isOutput = false)
    (hmeaning : ∀ (α : Type) [DecidableEq α] (I : Interp α) (S : Sources α) vs,
      x.meaning I S vs = (s.ops op).meaning I S [(s.ops i).meaning I S vs]) : OutputsKept s₀ u := by
  intro α _ I S D hD
  obtain ⟨D₁,hD₁,hsame⟩ := h α I S D hD
  obtain ⟨hD₂,helse⟩ := hD₁.merge hs hc hop hin hout hx hr (hmeaning α I S)
  refine ⟨_,hD₂,fun o ho hk => ?_⟩
  obtain ⟨hoV,hob,hrec⟩ := hsame o ho hk
  have hoop : o ≠ op := by
    rintro rfl
    rw [hob, hk] at hkop
    cases hkop
  have hoi : o ≠ i := by
    rintro rfl
    rw [hob, hk] at hki
    cases hki
  obtain ⟨ins,outs,-,heq⟩ := hr.fields o
  refine ⟨?_,?_,(helse o hoV hoop hoi).trans hrec⟩
  · rw [hr.erase ⟨hs.1,hs.2,hs.3⟩]
    exact (List.mem_erase_of_ne hoop).mpr hoV
  · rw [heq, setOp_ops_of_ne _ hoi]
    exact hob

/-- The plans have meanings, and by these every output and sink receives in `t` what it does in `s`. -/
def SameResults (α : Type) [DecidableEq α] (I : Interp α) (S : Sources α) (s t : PlanState) : Prop :=
  (∃ D, s.Meaning I S D) ∧ (∃ D', t.Meaning I S D') ∧ ∀ D D', s.Meaning I S D → t.Meaning I S D' →
    ∀ o ∈ s.used, (s.ops o).body.kind.isOutput = true →
      o ∈ t.used ∧ (t.ops o).body = (s.ops o).body ∧ t.received D' o = s.received D o

theorem OutputsKept.sameResults (h : OutputsKept s t) (hc : s.ports.Consistent s.used) (hac : s.ports.Acyclic s.used)
    (hc' : t.ports.Consistent t.used) (hac' : t.ports.Acyclic t.used) (I : Interp α) (S : Sources α) :
    SameResults α I S s t := by
  refine ⟨exists_meaning I S hc hac,exists_meaning I S hc' hac',fun D D' hD hD' o ho hk => ?_⟩
  obtain ⟨D₁,hD₁,hsame⟩ := h α I S D hD
  obtain ⟨hoV,hob,hrec⟩ := hsame o ho hk
  exact ⟨hoV,hob,(hD'.received_eq hD₁ hc' hac' hoV).trans hrec⟩

end AqsiosCoordinator.Physical
