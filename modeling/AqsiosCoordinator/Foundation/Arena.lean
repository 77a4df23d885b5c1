import Mathlib.Data.List.Basic

/-! # Blocks in memory

Memory is a function of the address. An arena hands out blocks behind a cursor and never
takes one back, so the blocks lie one behind the other and keep what is written to them.
-/
namespace AqsiosCoordinator.Foundation
variable {α : Type}

/-- Memory after `xs` has been written to `start` and behind it. -/
def store (mem : ℕ → α) (start : ℕ) (xs : List α) : ℕ → α :=
  fun i => if start ≤ i then (xs[i - start]?).getD (mem i) else mem i

def Reads (mem : ℕ → α) (start : ℕ) (xs : List α) : Prop := ∀ i x, xs[i]? = some x → mem (start + i) = x

variable {mem : ℕ → α} {start start' next size : ℕ} {xs ys : List α}

theorem store_outside {i : ℕ} (h : i < start ∨ start + xs.length ≤ i) : store mem start xs i = mem i := by
  unfold store
  split
  · have hlen : xs.length ≤ i - start := by omega
    rw [List.getElem?_eq_none hlen]
    rfl
  · rfl

theorem store_inside (i : ℕ) (h : i < xs.length) : store mem start xs (start + i) = xs[i] := by
  unfold store
  rw [if_pos (Nat.le_add_right _ _), Nat.add_sub_cancel_left, List.getElem?_eq_getElem h]
  rfl

theorem store_nil : store mem start [] = mem := by
  funext i
  apply store_outside
  rw [List.length_nil]
  omega

theorem store_reads : Reads (store mem start xs) start xs := by
  intro i x hx
  obtain ⟨hi,rfl⟩ := List.getElem?_eq_some_iff.mp hx
  exact store_inside i hi

theorem Reads.store (h : Reads mem start xs) (hd : start + xs.length ≤ start' ∨ start' + ys.length ≤ start) :
    Reads (store mem start' ys) start xs := by
  intro i x hx
  have hi := (List.getElem?_eq_some_iff.mp hx).1
  rw [store_outside (by omega)]
  exact h i x hx

/-- Two blocks, one behind the other. -/
theorem store_append : store (store mem start xs) (start + xs.length) ys = store mem start (xs ++ ys) := by
  funext i
  by_cases hbefore : i < start
  · rw [store_outside (.inl (by omega)), store_outside (.inl hbefore), store_outside (.inl hbefore)]
  · by_cases hin : i < start + xs.length
    · rw [store_outside (.inl hin)]
      unfold store
      rw [List.getElem?_append_left (by omega)]
    · unfold store
      rw [if_pos (Nat.le_of_not_lt hin), if_pos (Nat.le_of_not_lt hbefore), if_pos (Nat.le_of_not_lt hbefore),
        List.getElem?_append_right (by omega), List.getElem?_eq_none (l := xs) (by omega), Nat.sub_sub]
      rfl

/-- The last cell of a block is written again. -/
theorem store_last {x y : α} : store (store mem start (xs ++ [x])) (start + xs.length) [y] = store mem start (xs ++ [y]) := by
  rw [← store_append, ← store_append]
  funext i
  unfold store
  by_cases hi : start + xs.length ≤ i
  · obtain ⟨k,rfl⟩ := Nat.exists_eq_add_of_le hi
    cases k <;> simp [hi]
  · simp [hi]

/-- What has been stored at the beginning is read back. -/
theorem map_store (mem : ℕ → α) (xs : List α) : (List.range xs.length).map (store mem 0 xs) = xs := by
  apply List.ext_getElem
  · rw [List.length_map, List.length_range]
  · intro i hi hi'
    have hread := @store_inside _ mem 0 xs i hi'
    rw [Nat.zero_add] at hread
    rw [List.getElem_map, List.getElem_range, hread]

/-- What `strncpy` writes to the `n` cells of its destination: the string, which is given without its
terminator `z`, as far as it fits, and terminators behind it. -/
def strncpy (z : α) (src : List α) (n : ℕ) : List α := src.take n ++ List.replicate (n - src.length) z

@[simp] theorem length_strncpy (z : α) (src : List α) (n : ℕ) : (strncpy z src n).length = n := by
  simp only [strncpy, List.length_append, List.length_take, List.length_replicate]
  omega

theorem strncpy_terminated (z : α) (src : List α) : strncpy z src (src.length + 1) = src ++ [z] := by
  unfold strncpy
  rw [List.take_of_length_le (Nat.le_succ _), Nat.add_sub_cancel_left]
  rfl

theorem take_strncpy (z : α) (src : List α) {m n : ℕ} (h : m ≤ n) : (strncpy z src n).take m = strncpy z src m := by
  unfold strncpy
  rw [List.take_append, List.take_take, Nat.min_eq_left h, List.take_replicate, List.length_take]
  congr 2
  omega

/-- The blocks, each with its first cell, lie below the cursor in their order and contain what
they have been filled with. -/
structure Packed (mem : ℕ → α) (next : ℕ) (blocks : List (ℕ × List α)) : Prop where
  below : ∀ b ∈ blocks, b.1 + b.2.length ≤ next
  reads : ∀ b ∈ blocks, Reads mem b.1 b.2
  apart : blocks.Pairwise fun b c => b.1 + b.2.length ≤ c.1

theorem packed_nil (mem : ℕ → α) (next : ℕ) : Packed mem next [] := by
  constructor
  · intro b hb
    cases hb
  · intro b hb
    cases hb
  · exact List.Pairwise.nil

/-- One more block at the cursor. -/
theorem Packed.store {blocks : List (ℕ × List α)} (h : Packed mem next blocks) (xs : List α) :
    Packed (store mem next xs) (next + xs.length) (blocks ++ [(next,xs)]) := by
  constructor
  · intro b hb
    rcases List.mem_append.mp hb with hb | hb
    · have := h.below b hb
      omega
    · obtain rfl := List.mem_singleton.mp hb
      exact Nat.le_refl _
  · intro b hb
    rcases List.mem_append.mp hb with hb | hb
    · exact (h.reads b hb).store (.inl (h.below b hb))
    · obtain rfl := List.mem_singleton.mp hb
      exact store_reads
  · rw [List.pairwise_append]
    refine ⟨h.apart,List.pairwise_singleton _ _,?_⟩
    intro b hb c hc
    obtain rfl := List.mem_singleton.mp hc
    exact h.below b hb

end AqsiosCoordinator.Foundation
