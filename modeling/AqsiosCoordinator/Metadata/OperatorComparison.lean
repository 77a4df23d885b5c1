import AqsiosCoordinator.Metadata.SharedPlans

/-! # The comparison of operators decides whether they compute the same -/
namespace AqsiosCoordinator.Physical
open Common Foundation Foundation.Outcome

def PlanState.Below (s : PlanState) (a o : OpId) : Prop := Relation.ReflTransGen s.ports.Reads a o

/-- The tree of operators below an operator. An operator is a node with its kind, its schema,
its stream flag and its parameters; an operator that is never merged, such as a source, is
the one with its place in the pool. -/
def PlanState.UnfoldsTo (s : PlanState) : OpId → ComputationTree (Label × Option OpId) → Prop :=
  Unfolds (fun o => identLabel o (s.ops o)) s.ports.inputs

/-- Above every operator of an acyclic plan whose parameters are complete, the comparison
returns, and what it returns is whether the trees of the two operators are the same. -/
theorem compareOperators_iff (s : PlanState) (a b : OpId)
    (hac : ∀ o, s.Below a o ∨ s.Below b o → ¬ Relation.TransGen s.ports.Reads o o)
    (hcmp : ∀ o, s.Below a o ∨ s.Below b o → (s.ops o).body.Comparable (s.ops o).attrs.length) :
    ∃ treeA treeB, s.UnfoldsTo a treeA ∧ s.UnfoldsTo b treeB ∧ ∀ fuel, MAX_OPS < fuel →
      ∃ equal, compareOperators s.ops fuel a b = .ok equal ∧ (equal = true ↔ treeA = treeB) := by
  classical
  let V : List OpId := Finset.univ.toList.filter fun o => s.Below a o ∨ s.Below b o
  have hV (o : OpId) : o ∈ V ↔ s.Below a o ∨ s.Below b o := by simp [V]
  have hclosed : ∀ o ∈ V, ∀ c ∈ s.ports.inputs o, c ∈ V := by
    intro o ho c hc
    rw [hV] at ho ⊢
    exact ho.imp (fun h => h.tail hc) fun h => h.tail hc
  have hacV : s.ports.Acyclic V := fun o ho => hac o ((hV o).mp ho)
  obtain ⟨T,hT,hheight⟩ := exists_unfolding (G := s.ports) (fun o => identLabel o (s.ops o)) hclosed hacV
  have ha : a ∈ V := (hV a).mpr (.inl .refl)
  have hb : b ∈ V := (hV b).mpr (.inr .refl)
  refine ⟨T a,T b,hT.unfolds ha,hT.unfolds hb,fun fuel hfuel => ?_⟩
  have hle : (T a).height ≤ fuel := (hheight a ha).trans (by simpa using hfuel.le)
  exact compareOperators_complete hT (fun o ho => hcmp o ((hV o).mp ho)) ha hb hle

theorem PlanState.Below.mem {s : PlanState} {V : List OpId} {a o : OpId} (h : s.Below a o) (ha : a ∈ V)
    (hclosed : ∀ o ∈ V, ∀ c ∈ (s.ops o).inputs, c ∈ V) : o ∈ V := by
  induction h with
  | refl => exact ha
  | @tail c d _ hcd ih => exact hclosed c ih d hcd

/-- The selects of two queries with the same predicate. -/
theorem twoSelects_equal : ∃ treeA treeB,
    (preparedPlan twoSelects).UnfoldsTo ⟨3,by unfold MAX_OPS; decide⟩ treeA ∧
    (preparedPlan twoSelects).UnfoldsTo ⟨6,by unfold MAX_OPS; decide⟩ treeB ∧ ∀ fuel, MAX_OPS < fuel →
      ∃ equal, compareOperators (preparedPlan twoSelects).ops fuel ⟨3,by unfold MAX_OPS; decide⟩
        ⟨6,by unfold MAX_OPS; decide⟩ = .ok equal ∧ (equal = true ↔ treeA = treeB) := by
  have hreg : Registered blankMemory twoSelects := Registered.start.runCalls _ (by decide +kernel)
  have h1 := eq_ok_of_returns (r := removeQuerySources twoSelects) (by decide +kernel)
  have h2 := eq_ok_of_returns (r := addSinks (finalState (removeQuerySources twoSelects))) (by decide +kernel)
  have h3 := eq_ok_of_returns (r := mergeSelects (finalState (addSinks (finalState (removeQuerySources twoSelects)))))
    (by decide +kernel)
  have hs := (prepared_sound hreg h1 h2 h3).1
  let V : List OpId := [⟨3,by unfold MAX_OPS; decide⟩,⟨6,by unfold MAX_OPS; decide⟩,⟨2,by unfold MAX_OPS; decide⟩]
  have hV : V.all (fun o => decide (o ∈ (preparedPlan twoSelects).used ∧
      ((preparedPlan twoSelects).ops o).body.joinPred ≠ some [] ∧
      ((preparedPlan twoSelects).ops o).inputs.all (fun c => V.contains c))) = true := by decide +kernel
  have hall : ∀ o ∈ V, o ∈ (preparedPlan twoSelects).used ∧
      ((preparedPlan twoSelects).ops o).body.joinPred ≠ some [] ∧
      ∀ c ∈ ((preparedPlan twoSelects).ops o).inputs, c ∈ V := by simpa [List.all_eq_true] using hV
  have hmem (o : OpId) (ho : (preparedPlan twoSelects).Below ⟨3,by unfold MAX_OPS; decide⟩ o ∨
      (preparedPlan twoSelects).Below ⟨6,by unfold MAX_OPS; decide⟩ o) : o ∈ V := by
    rcases ho with ho | ho
    · exact ho.mem (by simp [V]) fun o ho => (hall o ho).2.2
    · exact ho.mem (by simp [V]) fun o ho => (hall o ho).2.2
  apply compareOperators_iff
  · intro o ho
    exact hs.acyclic o (hall o (hmem o ho)).1
  · intro o ho
    obtain ⟨hu,hj,-⟩ := hall o (hmem o ho)
    exact (hs.complete o hu).comparable hj

end AqsiosCoordinator.Physical
