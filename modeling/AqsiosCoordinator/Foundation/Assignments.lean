import AqsiosCoordinator.Foundation.CrossProduct
import Mathlib.Logic.Function.Basic

/-! # Assignments of rows to variables

A variable ranges over the rows of a bag. The product of the bags of several variables
has a row for each assignment.
-/
namespace AqsiosCoordinator.Foundation
variable {ι α : Type} [DecidableEq ι]

/-- The assignments of a row of its bag to each variable. Other variables have no columns. -/
def assignments : List (ι × Multiset (Row α)) → Multiset (ι → Row α)
  | [] => {fun _ => []}
  | (v,R) :: rest => R.bind fun r => (assignments rest).map fun ρ => Function.update ρ v r

theorem mem_assignments_cons {v : ι} {R : Multiset (Row α)} {rest : List (ι × Multiset (Row α))} {ρ : ι → Row α} :
    ρ ∈ assignments ((v,R) :: rest) ↔ ∃ r ∈ R, ∃ σ ∈ assignments rest, ρ = Function.update σ v r := by
  simp only [assignments, Multiset.mem_bind, Multiset.mem_map, eq_comm]

theorem assignments_mem {bags : List (ι × Multiset (Row α))} {ρ : ι → Row α} (h : ρ ∈ assignments bags)
    (hnd : (bags.map Prod.fst).Nodup) : ∀ b ∈ bags, ρ b.1 ∈ b.2 := by
  induction bags generalizing ρ with
  | nil => simp
  | cons b bags ih =>
    obtain ⟨v,R⟩ := b
    obtain ⟨r,hr,σ,hσ,rfl⟩ := mem_assignments_cons.mp h
    simp only [List.map_cons, List.nodup_cons] at hnd
    rw [List.forall_mem_cons]
    constructor
    · rw [Function.update_self]
      exact hr
    · intro b hb
      have hne : b.1 ≠ v := by
        intro hv
        apply hnd.1
        rw [← hv]
        exact List.mem_map_of_mem hb
      rw [Function.update_of_ne hne]
      exact ih hσ hnd.2 b hb

theorem assignments_outside {bags : List (ι × Multiset (Row α))} {ρ : ι → Row α} (h : ρ ∈ assignments bags) {v : ι}
    (hv : v ∉ bags.map Prod.fst) : ρ v = [] := by
  induction bags generalizing ρ with
  | nil =>
    obtain rfl := Multiset.mem_singleton.mp h
    rfl
  | cons b bags ih =>
    obtain ⟨w,R⟩ := b
    obtain ⟨r,-,σ,hσ,rfl⟩ := mem_assignments_cons.mp h
    rw [List.map_cons, List.mem_cons, not_or] at hv
    rw [Function.update_of_ne hv.1]
    exact ih hσ hv.2

/-- A variable, the number of its columns and the rows that it ranges over. -/
abbrev Ranged (ι α : Type) := ι × (ℕ × Multiset (Row α))

/-- The rows of a product are those of the assignments, the columns of one variable after those of another. -/
theorem product_eq_assignments {null : α} {bags : List (Ranged ι α)} (hnd : (bags.map Prod.fst).Nodup) :
    product null (bags.map Prod.snd) =
      (assignments (bags.map fun b => (b.1,b.2.2.map (fit null b.2.1)))).map fun ρ => (bags.map Prod.fst).flatMap ρ := by
  induction bags with
  | nil => simp [product,assignments]
  | cons b bags ih =>
    obtain ⟨v,n,R⟩ := b
    simp only [List.map_cons, List.nodup_cons] at hnd
    simp only [List.map_cons, product, assignments, ih hnd.2, Multiset.bind_map, Multiset.map_bind, Multiset.map_map]
    apply Multiset.bind_congr
    intro r _
    apply Multiset.map_congr rfl
    intro ρ _
    have hrest : (bags.map Prod.fst).flatMap (Function.update ρ v (fit null n r)) = (bags.map Prod.fst).flatMap ρ := by
      apply List.flatMap_congr
      intro w hw
      have hne : w ≠ v := by
        rintro rfl
        exact hnd.1 hw
      exact Function.update_of_ne hne _ _
    simp only [Function.comp_apply, List.flatMap_cons, Function.update_self, hrest]

end AqsiosCoordinator.Foundation
