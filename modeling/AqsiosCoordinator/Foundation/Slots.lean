import Mathlib.Data.List.Nodup
import Mathlib.Logic.Function.Basic

/-! # An array filled from the front

The entries below a counter are the list that the array stands for.
-/
namespace AqsiosCoordinator.Foundation
variable {α : Type*}

def firstSlots (f : ℕ → α) (n : ℕ) : List α := (List.range n).map f

@[simp] theorem firstSlots_length (f : ℕ → α) (n : ℕ) : (firstSlots f n).length = n := by simp [firstSlots]

@[simp] theorem firstSlots_zero (f : ℕ → α) : firstSlots f 0 = [] := rfl

theorem firstSlots_getElem? (f : ℕ → α) (n i : ℕ) :
    (firstSlots f n)[i]? = if i < n then some (f i) else none := by
  by_cases h : i < n
  · simp [firstSlots,h]
  · rw [if_neg h, List.getElem?_eq_none]
    rw [firstSlots_length]
    omega

theorem firstSlots_succ (f : ℕ → α) (n : ℕ) : firstSlots f (n+1) = firstSlots f n ++ [f n] := by
  simp [firstSlots,List.range_succ]

/-- A write behind the last entry, with the counter advanced, appends. -/
theorem firstSlots_update_self (f : ℕ → α) (n : ℕ) (x : α) :
    firstSlots (Function.update f n x) (n+1) = firstSlots f n ++ [x] := by
  rw [firstSlots_succ, Function.update_self]
  congr 1
  apply List.map_congr_left
  intro i hi
  have hne : i ≠ n := by
    have hlt := List.mem_range.mp hi
    omega
  exact Function.update_of_ne hne x f

theorem firstSlots_pred (f : ℕ → α) (n : ℕ) : firstSlots f (n-1) = (firstSlots f n).dropLast := by
  cases n with
  | zero => rfl
  | succ n => simp [firstSlots_succ]

/-- A write to an entry below the counter. -/
theorem firstSlots_update_of_lt (f : ℕ → α) {n i : ℕ} (h : i < n) (x : α) :
    firstSlots (Function.update f i x) n = (firstSlots f n).set i x := by
  apply List.ext_getElem?
  intro k
  rw [List.getElem?_set, firstSlots_length, firstSlots_getElem?, firstSlots_getElem?]
  by_cases hk : i = k
  · subst hk
    simp [h]
  · simp [hk,Function.update_of_ne (Ne.symm hk)]

theorem firstSlots_any (f : ℕ → α) (n : ℕ) (p : α → Bool) :
    (List.range n).any (fun i => p (f i)) = (firstSlots f n).any p := by
  simp [firstSlots,List.any_map,Function.comp_def]

theorem firstSlots_find (f : ℕ → α) (n : ℕ) (p : α → Bool) :
    (List.range n).find? (fun i => p (f i)) = (firstSlots f n).findIdx? p := by
  induction n with
  | zero => rfl
  | succ n ih =>
    rw [List.range_succ, List.find?_append, ih, firstSlots_succ, List.findIdx?_append, firstSlots_length]
    simp [List.findIdx?_cons]

/-- In a list without repeated keys the first match is the only one. -/
theorem findIdx?_eq_some_iff_of_nodup {κ : Type*} [BEq κ] [LawfulBEq κ] {xs : List α} {key : α → κ}
    (h : (xs.map key).Nodup) (k : κ) (i : ℕ) :
    xs.findIdx? (fun x => key x == k) = some i ↔ ∃ x, xs[i]? = some x ∧ key x = k := by
  constructor
  · intro hf
    obtain ⟨hi,hk,-⟩ := List.findIdx?_eq_some_iff_getElem.mp hf
    exact ⟨xs[i],List.getElem?_eq_getElem hi,by simpa using hk⟩
  · rintro ⟨x,hx,hk⟩
    obtain ⟨hi,rfl⟩ := List.getElem?_eq_some_iff.mp hx
    apply List.findIdx?_eq_some_iff_getElem.mpr
    refine ⟨hi,by simpa using hk,fun j hj => ?_⟩
    have hjl : j < xs.length := Nat.lt_trans hj hi
    have hji : (xs.map key)[j]? ≠ (xs.map key)[i]? := by
      intro heq
      have hj' := (List.getElem?_inj (by simpa using hjl) h).mp heq
      omega
    intro hjk
    apply hji
    rw [List.getElem?_map, List.getElem?_map, hx, List.getElem?_eq_getElem hjl]
    simp only [beq_iff_eq] at hjk
    simp [hjk,hk]

end AqsiosCoordinator.Foundation
