import AqsiosCoordinator.Querygen.StreamFlags

/-! # The schemas of logical plans

Every operator has the schema that its constructor gives it from those of its inputs.
-/
namespace AqsiosCoordinator.Logical
open Common Foundation Metadata

def Attr.isNamed : Attr → Bool
  | .named _ _ _ => true
  | _ => false

theorem Attr.eq_of_same {a b : Attr} (h : a.same b = true) : a = b := by
  cases a <;> cases b <;> simp_all [Attr.same]

def Apart (l r : List Attr) : Prop := ∀ a ∈ l, r.any (fun b => a.same b) = false

/-- An attribute of one schema is not in a schema apart from it. -/
theorem Apart.not_any {l r : List Attr} {a : Attr} (h : Apart l r) (ha : r.any (fun b => a.same b) = true) :
    l.any (fun b => a.same b) = false := by
  rw [Bool.eq_false_iff]
  intro hl
  obtain ⟨b,hb,hab⟩ := List.any_eq_true.mp hl
  have hnone := h b hb
  rw [← Attr.eq_of_same hab, ha] at hnone
  cases hnone

abbrev Kind.IsCross (kind : Kind) : Prop := kind = .cross ∨ kind = .streamCross

/-- The schema of an operator of the kind on inputs with these schemas. The inputs of a
cross have no attribute in common, and what is grouped and aggregated are table attributes. -/
def Kind.Schema (tableMgr : TableManager) (kind : Kind) (inputs : List (List Attr)) (outAttrs : List Attr) : Prop :=
  match kind with
  | .streamSource varId tableId => inputs = [] ∧ outAttrs = tableAttrs tableMgr varId tableId
  | .relnSource varId tableId => inputs = [] ∧ outAttrs = tableAttrs tableMgr varId tableId
  | .project projExprs => inputs.length = 1 ∧ outAttrs = projExprs.map Plan.exprAttr
  | .groupAggr groupAttrs aggrs => inputs.length = 1 ∧
      outAttrs = groupAttrs ++ aggrs.map (fun a => Plan.aggrAttr a.1 a.2) ∧
      (∀ a ∈ groupAttrs, a.isNamed = true) ∧ ∀ a ∈ aggrs, a.2.isNamed = true
  | .cross => outAttrs = inputs.flatten ∧ inputs.Pairwise Apart
  | .streamCross => outAttrs = inputs.flatten ∧ inputs.Pairwise Apart
  | .union => ∃ l r, inputs = [l, r] ∧ outAttrs.length = l.length ∧ ∀ a ∈ outAttrs, ∀ b, a.same b = false
  | .except => ∃ l r, inputs = [l, r] ∧ outAttrs.length = l.length ∧ ∀ a ∈ outAttrs, ∀ b, a.same b = false
  | _ => inputs = [outAttrs]

theorem Kind.Schema.cross {tableMgr : TableManager} {kind : Kind} {inputs : List (List Attr)} {outAttrs : List Attr}
    (h : kind.Schema tableMgr inputs outAttrs) (hk : kind.IsCross) : outAttrs = inputs.flatten ∧ inputs.Pairwise Apart := by
  rcases hk with rfl | rfl
  · exact h
  · exact h

namespace Plan

@[simp] theorem kind_node (kind : Kind) (outAttrs : List Attr) (bStream : Bool) (inputs : List Plan) :
    (node kind outAttrs bStream inputs).kind = kind := rfl
@[simp] theorem outAttrs_node (kind : Kind) (outAttrs : List Attr) (bStream : Bool) (inputs : List Plan) :
    (node kind outAttrs bStream inputs).outAttrs = outAttrs := rfl
@[simp] theorem bStream_node (kind : Kind) (outAttrs : List Attr) (bStream : Bool) (inputs : List Plan) :
    (node kind outAttrs bStream inputs).bStream = bStream := rfl
@[simp] theorem inputs_node (kind : Kind) (outAttrs : List Attr) (bStream : Bool) (inputs : List Plan) :
    (node kind outAttrs bStream inputs).inputs = inputs := rfl

/-- Every operator has `P` with its schema and those of its inputs. -/
inductive Everywhere (P : Kind → List Attr → List (List Attr) → Prop) : Plan → Prop where
  | node {kind : Kind} {outAttrs : List Attr} {bStream : Bool} {inputs : List Plan}
      (here : P kind outAttrs (inputs.map Plan.outAttrs)) (inputs_mem : ∀ p ∈ inputs, Everywhere P p) :
      Everywhere P (.node kind outAttrs bStream inputs)

def Schemed (tableMgr : TableManager) : Plan → Prop :=
  Everywhere fun kind outAttrs inputs => kind.Schema tableMgr inputs outAttrs

def streamAndRelation : TableManager := ⟨[⟨['S'],true,[⟨['a'],.int,4⟩]⟩,⟨['R'],false,[⟨['b'],.int,4⟩]⟩]⟩

def Binary : Plan → Prop := Everywhere fun kind _ inputs => kind.IsCross → inputs.length = 2

section Everywhere
variable {P : Kind → List Attr → List (List Attr) → Prop} {p q : Plan}

theorem everywhere_node {kind : Kind} {outAttrs : List Attr} {bStream : Bool} {inputs : List Plan} :
    Everywhere P (.node kind outAttrs bStream inputs) ↔
      P kind outAttrs (inputs.map Plan.outAttrs) ∧ ∀ p ∈ inputs, Everywhere P p := by
  constructor
  · rintro (⟨h1,h2⟩)
    exact ⟨h1,h2⟩
  · rintro ⟨h1,h2⟩
    exact .node h1 h2

theorem everywhere_above {o : Passed} : Everywhere P (above o p) ↔ P o.kind o.outAttrs [p.outAttrs] ∧ Everywhere P p := by
  rw [above, everywhere_node]
  simp

theorem Everywhere.of_rebuild {passed : List Passed} (h : Everywhere P (rebuild p passed)) : Everywhere P p := by
  induction passed generalizing p with
  | nil => exact h
  | cons o passed ih => exact (everywhere_above.mp (ih h)).2

/-- A part of a plan may be replaced by one with the same schema. Flags do not matter. -/
theorem Everywhere.replace {passed passed' : List Passed}
    (hsame : List.Forall₂ (fun o o' : Passed => o'.kind = o.kind ∧ o'.outAttrs = o.outAttrs) passed passed')
    (h : Everywhere P (rebuild p passed)) (hq : Everywhere P q) (hout : q.outAttrs = p.outAttrs) :
    Everywhere P (rebuild q passed') := by
  induction hsame generalizing p q with
  | nil => exact hq
  | @cons o o' passed passed' hs _ ih =>
    have habove : Everywhere P (above o p) := Everywhere.of_rebuild (p := above o p) h
    refine ih (p := above o p) h (everywhere_above.mpr ⟨?_,hq⟩) hs.2
    rw [hs.1, hs.2, hout]
    exact (everywhere_above.mp habove).1

theorem Everywhere.walk {through : Kind → Bool} (passed : List Passed) {passed' : List Passed}
    (h : Everywhere P (rebuild p passed)) (hw : Plan.walk through p passed = (passed',q)) :
    Everywhere P (rebuild q passed') := by
  have hre := rebuild_walk through p passed
  rw [hw] at hre
  rw [hre]
  exact h

end Everywhere

end Plan
end AqsiosCoordinator.Logical
