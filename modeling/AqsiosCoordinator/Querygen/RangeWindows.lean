import AqsiosCoordinator.Metadata.MadeOperators
import AqsiosCoordinator.Querygen.NaivePlans
import AqsiosCoordinator.Querygen.SemInterp

/-! # The length of a range window

The seconds of a range window are a product of `int`s that becomes an `unsigned int` of
the semantic query. The logical and the physical window take it over.
-/
namespace AqsiosCoordinator
open Foundation Foundation.Outcome

def Parser.TimeUnit.seconds : Parser.TimeUnit → ℕ
  | .notimeunit | .second => 1
  | .minute => 60
  | .hour => 60 * 60
  | .day => 60 * 60 * 24

def Parser.TimeSpec.seconds (timeSpec : Parser.TimeSpec) : ℤ := timeSpec.len * timeSpec.unit.seconds

def Parser.TimeSpec.Scanned (timeSpec : Parser.TimeSpec) : Prop := 0 ≤ timeSpec.len ∧ timeSpec.len < 2 ^ 31

namespace Semantic

theorem toUnsigned_eq_iff {n : ℤ} (h : 0 ≤ n) : (toUnsigned n : ℤ) = n ↔ n < 2 ^ 32 := by
  unfold toUnsigned
  omega

/-- The product of the source, for each of the units. -/
theorem interpretRangeWin_eq (timeSpec : Parser.TimeSpec) : interpretRangeWin timeSpec = .range (toUnsigned timeSpec.seconds) := by
  obtain ⟨unit,len⟩ := timeSpec
  have hhour : len * 60 * 60 = len * 3600 := by omega
  have hday : len * 3600 * 24 = len * 86400 := by omega
  cases unit <;> simp [interpretRangeWin,Parser.TimeSpec.seconds,Parser.TimeUnit.seconds,hhour,hday]

theorem interpretWin_range {tableMgr : Metadata.TableManager} {symbolTable : SymbolTable} {timeSpec : Parser.TimeSpec}
    {n n' : ℕ} {win : WindowSpec} (h : interpretWin tableMgr symbolTable (some (.range timeSpec)) n = .ok win n') :
    win = .range (toUnsigned timeSpec.seconds) := by
  obtain ⟨rfl,-⟩ := pure_eq_ok.mp h
  exact interpretRangeWin_eq timeSpec

end Semantic

/-- The logical window has the length of the semantic one. -/
theorem Logical.Plan.applyWindow_range {query : Semantic.Query} {timeUnits : ℕ} {inputStr : Option Logical.Plan}
    {u u' : Logical.Usage} {plan : Logical.Plan}
    (h : Logical.Plan.applyWindow query (.range timeUnits) inputStr u = .ok (some plan) u') : plan.kind = .rangeWin timeUnits := by
  have hkind : Ensures (Logical.Plan.applyWindow query (.range timeUnits) inputStr)
      (Logical.Plan.Holds (fun p => p.kind = .rangeWin timeUnits)) := by
    apply Logical.Plan.ensures_newop
    exact Ensures.bind ensures_any fun i _ => ensures_pure rfl
  exact hkind _ _ _ h plan rfl

namespace Physical

theorem addOutputs_body {cs : List OpId} {parent : OpId} {s t : PlanState} {a : Unit} (h : addOutputs cs parent s = .ok a t)
    (o : OpId) : (t.ops o).body = (s.ops o).body := by
  rw [addOutputs_ok h]
  rfl

theorem mkUnary_body {body : Body} {f : Bool → Bool} {child op : OpId} {s t : PlanState} (h : mkUnary body f child s = .ok op t) :
    (t.ops op).body = body := by
  unfold mkUnary connect at h
  obtain ⟨op',r,-,h⟩ := bind_eq_ok.mp h
  obtain ⟨c,r',-,h⟩ := bind_eq_ok.mp h
  obtain ⟨_,r'',h1,h⟩ := bind_eq_ok.mp h
  obtain ⟨rfl,rfl⟩ := pure_eq_ok.mp h
  obtain ⟨_,r₁,h2,h3⟩ := bind_eq_ok.mp h1
  obtain rfl := modifyOp_ok.mp h2
  rw [addOutputs_body h3, setOp_ops_self]

/-- The physical window has the length of the logical one. -/
theorem mkOperator_range {v : Uninit} {timeUnits numOutAttrs : ℕ} {schemas : List (List Logical.Attr)} {children : List OpId}
    {op : OpId} {s t : PlanState} (h : mkOperator v (.rangeWin timeUnits) numOutAttrs schemas children s = .ok op t) :
    (t.ops op).body = .rangeWin timeUnits := by
  obtain ⟨child,_,-,h⟩ := bind_eq_ok.mp h
  exact mkUnary_body h

end Physical

/-- A window that is accepted has the length that the query says, in the semantic query, in the
logical plan and in the physical plan. -/
structure KeepsLength (timeSpec : Parser.TimeSpec) : Prop where
  semantic : ∀ tableMgr symbolTable n win n',
    Semantic.interpretWin tableMgr symbolTable (some (.range timeSpec)) n = .ok win n' →
    ∃ timeUnits : ℕ, win = .range timeUnits ∧ (timeUnits : ℤ) = timeSpec.seconds
  logical : ∀ tableMgr symbolTable n win n' query inputStr u plan u',
    Semantic.interpretWin tableMgr symbolTable (some (.range timeSpec)) n = .ok win n' →
    Logical.Plan.applyWindow query win inputStr u = .ok (some plan) u' →
    ∃ timeUnits : ℕ, plan.kind = .rangeWin timeUnits ∧ (timeUnits : ℤ) = timeSpec.seconds
  physical : ∀ tableMgr symbolTable n win n' query inputStr u plan u' v numOutAttrs schemas children s op t,
    Semantic.interpretWin tableMgr symbolTable (some (.range timeSpec)) n = .ok win n' →
    Logical.Plan.applyWindow query win inputStr u = .ok (some plan) u' →
    Physical.mkOperator v plan.kind numOutAttrs schemas children s = .ok op t →
    ∃ timeUnits : ℕ, (t.ops op).body = .rangeWin timeUnits ∧ (timeUnits : ℤ) = timeSpec.seconds

/-- A window keeps its length exactly if its seconds fit into 32 bits. -/
theorem keepsLength_iff {timeSpec : Parser.TimeSpec} (hscanned : timeSpec.Scanned) :
    KeepsLength timeSpec ↔ timeSpec.seconds < 2 ^ 32 := by
  have hnonneg : 0 ≤ timeSpec.seconds := Int.mul_nonneg hscanned.1 (Int.natCast_nonneg _)
  rw [← Semantic.toUnsigned_eq_iff hnonneg]
  constructor
  · intro h
    obtain ⟨timeUnits,hwin,hseconds⟩ := h.semantic ⟨[]⟩ [] 0 _ 0 rfl
    rw [Semantic.interpretRangeWin_eq, Semantic.WindowSpec.range.injEq] at hwin
    rw [hwin, hseconds]
  · intro hfits
    constructor
    · intro tableMgr symbolTable n win n' hwin
      exact ⟨_,Semantic.interpretWin_range hwin,hfits⟩
    · intro tableMgr symbolTable n win n' query inputStr u plan u' hwin hplan
      rw [Semantic.interpretWin_range hwin] at hplan
      exact ⟨_,Logical.Plan.applyWindow_range hplan,hfits⟩
    · intro tableMgr symbolTable n win n' query inputStr u plan u' v numOutAttrs schemas children s op t hwin hplan hop
      rw [Semantic.interpretWin_range hwin] at hplan
      rw [Logical.Plan.applyWindow_range hplan] at hop
      exact ⟨_,Physical.mkOperator_range hop,hfits⟩

theorem tenDays_kept : KeepsLength ⟨.day,10⟩ := by
  apply (keepsLength_iff ⟨by decide,by decide⟩).mpr
  decide

/-- The window of fifty thousand days becomes one of less than three hundred. -/
theorem longWindow_shortened : ¬ KeepsLength ⟨.day,50000⟩ := by
  intro h
  obtain ⟨timeUnits,hwin,hseconds⟩ := h.semantic ⟨[]⟩ [] 0 _ 0 rfl
  obtain rfl : timeUnits = 25032704 := by
    have hvalue : Semantic.interpretRangeWin ⟨.day,50000⟩ = .range 25032704 := rfl
    rw [hvalue] at hwin
    exact (Semantic.WindowSpec.range.inj hwin).symm
  exact absurd hseconds (by decide)

end AqsiosCoordinator
