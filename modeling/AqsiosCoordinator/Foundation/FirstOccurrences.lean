import Mathlib.Data.List.Dedup
import Mathlib.Data.List.Induction
import Mathlib.Data.List.Perm.Basic

/-! # The first occurrences in a list, collected up to a capacity -/
namespace AqsiosCoordinator.Foundation
variable {α : Type} [DecidableEq α]

/-- Extends `l` by what occurs in a list and not before, in the order of the first occurrences. -/
def firstsAfter (l : List α) : List α → List α
  | [] => l
  | x :: xs => if x ∈ l then firstsAfter l xs else firstsAfter (l ++ [x]) xs

def collectUpTo (limit : ℕ) (l : List α) : List α → Option (List α)
  | [] => some l
  | x :: xs =>
    if x ∈ l then collectUpTo limit l xs
    else if l.length = limit then none
    else collectUpTo limit (l ++ [x]) xs

theorem firstsAfter_append (l xs ys : List α) : firstsAfter l (xs ++ ys) = firstsAfter (firstsAfter l xs) ys := by
  induction xs generalizing l with
  | nil => rfl
  | cons x xs ih =>
    rw [List.cons_append, firstsAfter, firstsAfter]
    split
    · exact ih l
    · exact ih (l ++ [x])

theorem collectUpTo_append (limit : ℕ) (l xs ys : List α) :
    collectUpTo limit l (xs ++ ys) = (collectUpTo limit l xs).bind fun l => collectUpTo limit l ys := by
  induction xs generalizing l with
  | nil => rfl
  | cons x xs ih =>
    rw [List.cons_append, collectUpTo, collectUpTo]
    split
    · exact ih l
    split
    · rfl
    · exact ih (l ++ [x])

theorem length_le_firstsAfter (l xs : List α) : l.length ≤ (firstsAfter l xs).length := by
  induction xs generalizing l with
  | nil => exact Nat.le_refl _
  | cons x xs ih =>
    rw [firstsAfter]
    split
    · exact ih l
    · have h := ih (l ++ [x])
      rw [List.length_append] at h
      omega

/-- There is room for all exactly when the capacity is that of the first occurrences. -/
theorem collectUpTo_eq {limit : ℕ} {l : List α} (h : l.length ≤ limit) (xs : List α) :
    collectUpTo limit l xs = if (firstsAfter l xs).length ≤ limit then some (firstsAfter l xs) else none := by
  induction xs generalizing l with
  | nil => exact (if_pos h).symm
  | cons x xs ih =>
    rw [collectUpTo, firstsAfter]
    split
    · exact ih h
    split
    · rename_i hfull
      have hlt := length_le_firstsAfter (l ++ [x]) xs
      rw [List.length_append, List.length_singleton] at hlt
      rw [if_neg (by omega)]
    · rename_i hroom
      apply ih
      rw [List.length_append, List.length_singleton]
      omega

theorem mem_firstsAfter {a : α} {l xs : List α} : a ∈ firstsAfter l xs ↔ a ∈ l ∨ a ∈ xs := by
  induction xs generalizing l with
  | nil => simp [firstsAfter]
  | cons x xs ih =>
    rw [firstsAfter]
    split
    · rename_i hx
      rw [ih, List.mem_cons]
      constructor
      · rintro (ha | ha)
        · exact .inl ha
        · exact .inr (.inr ha)
      · rintro (ha | rfl | ha)
        · exact .inl ha
        · exact .inl hx
        · exact .inr ha
    · rw [ih, List.mem_append, List.mem_singleton, List.mem_cons, or_assoc]

theorem nodup_firstsAfter {l : List α} (h : l.Nodup) (xs : List α) : (firstsAfter l xs).Nodup := by
  induction xs generalizing l with
  | nil => exact h
  | cons x xs ih =>
    rw [firstsAfter]
    split
    · exact ih h
    · rename_i hx
      apply ih
      rw [List.nodup_append]
      refine ⟨h,List.nodup_singleton x,?_⟩
      intro a ha b hb
      obtain rfl := List.mem_singleton.mp hb
      exact fun he => hx (he ▸ ha)

/-- There are as many first occurrences as distinct elements. -/
theorem length_firstsAfter (xs : List α) : (firstsAfter [] xs).length = xs.dedup.length := by
  apply List.Perm.length_eq
  rw [List.perm_ext_iff_of_nodup (nodup_firstsAfter List.nodup_nil xs) (List.nodup_dedup xs)]
  intro a
  rw [mem_firstsAfter, List.mem_dedup]
  simp

/-- The first occurrences stand in the order in which they occur. -/
theorem pairwise_firstsAfter [BEq α] [LawfulBEq α] (xs : List α) : (firstsAfter [] xs).Pairwise fun a b => xs.idxOf a < xs.idxOf b := by
  induction xs using List.reverseRecOn with
  | nil => exact List.Pairwise.nil
  | append_singleton xs x ih =>
    have hmem : ∀ a ∈ firstsAfter [] xs, a ∈ xs := by
      intro a ha
      simpa using mem_firstsAfter.mp ha
    -- the index of an old element stays
    have hold : (firstsAfter [] xs).Pairwise fun a b => (xs ++ [x]).idxOf a < (xs ++ [x]).idxOf b := by
      apply ih.imp_of_mem
      intro a b ha hb hab
      rwa [List.idxOf_append_of_mem (hmem a ha), List.idxOf_append_of_mem (hmem b hb)]
    rw [firstsAfter_append, firstsAfter]
    split
    · exact hold
    · rename_i hx
      have hnew : x ∉ xs := fun h => hx (mem_firstsAfter.mpr (.inr h))
      rw [firstsAfter, List.pairwise_append]
      refine ⟨hold,List.pairwise_singleton _ _,?_⟩
      intro a ha b hb
      obtain rfl := List.mem_singleton.mp hb
      rw [List.idxOf_append_of_mem (hmem a ha), List.idxOf_append_of_notMem hnew]
      have hlt := List.idxOf_lt_length_of_mem (hmem a ha)
      omega

end AqsiosCoordinator.Foundation
