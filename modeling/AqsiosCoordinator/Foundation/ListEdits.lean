import Mathlib.Data.List.Count
import Mathlib.Data.List.Perm.Basic

/-! # Edits of arrays: removal by the last element, and replacing occurrences -/
namespace AqsiosCoordinator.Foundation
variable {α : Type} [DecidableEq α]

/-- Overwriting a position with the last element and dropping that one removes the
element at the position, up to order. -/
theorem set_getLast_dropLast_perm {l : List α} {k : ℕ} {a z : α} (hk : l[k]? = some a)
    (hz : l.getLast? = some z) : ((l.set k z).dropLast).Perm (l.erase a) := by
  have hne : l ≠ [] := by
    rintro rfl
    simp at hz
  have hmem : a ∈ l := List.mem_of_getElem? hk
  obtain ⟨m,rfl⟩ : ∃ m, l = m ++ [z] := by
    refine ⟨l.dropLast,?_⟩
    rw [List.getLast?_eq_some_getLast hne, Option.some.injEq] at hz
    rw [← hz, List.dropLast_append_getLast]
  have hperm : (a :: ((m ++ [z]).set k z).dropLast).Perm (m ++ [z]) := by
    rcases Nat.lt_or_ge k m.length with hlt | hge
    · rw [List.set_append_left _ _ hlt, List.dropLast_concat]
      rw [List.getElem?_append_left hlt] at hk
      obtain ⟨hlt',hka⟩ := List.getElem?_eq_some_iff.mp hk
      have hsplit : m = m.take k ++ a :: m.drop (k + 1) := by
        rw [← hka, List.getElem_cons_drop, List.take_append_drop]
      have hset : m.set k z = m.take k ++ z :: m.drop (k + 1) := List.set_eq_take_append_cons_drop .. |>.trans (if_pos hlt)
      rw [hset]
      conv_rhs => rw [hsplit]
      rw [List.perm_iff_count]
      intro x
      simp only [List.count_cons, List.count_append, List.count_nil]
      omega
    · have hkz : a = z := by
        rw [List.getElem?_append_right hge] at hk
        have hk0 : k - m.length = 0 := by
          by_contra hpos
          simp [hpos] at hk
        simpa [hk0] using hk.symm
      have hkm : k = m.length ∨ m.length < k := by omega
      rw [List.set_append_right _ _ hge]
      subst hkz
      have htail : ([a].set (k - m.length) a).length = 1 := by simp
      obtain ⟨b,hb⟩ := List.length_eq_one_iff.mp htail
      rw [hb, List.dropLast_concat]
      exact (List.perm_append_singleton a m).symm
  exact (List.perm_cons a).mp (hperm.trans (List.perm_cons_erase hmem))

/-- Overwriting the first occurrence. -/
theorem set_findIdx?_eq {l : List α} (a b : α) (h : a ∈ l) :
    l.set ((l.findIdx? (fun o => o == a)).getD 0) b = l.replace a b := by
  induction l with
  | nil => simp at h
  | cons x l ih =>
    by_cases hx : x = a
    · subst hx
      simp [List.findIdx?_cons]
    · have ha : a ∈ l := (List.mem_cons.mp h).resolve_left (Ne.symm hx)
      have hidx : ∃ j, l.findIdx? (fun o => o == a) = some j := by
        rw [← Option.isSome_iff_exists, List.findIdx?_isSome]
        simpa using ha
      obtain ⟨j,hj⟩ := hidx
      have hxa : (x == a) = false := by simpa using hx
      have hax : (a == x) = false := by simpa using Ne.symm hx
      have hrest := ih ha
      rw [hj] at hrest
      simp only [Option.getD_some] at hrest
      simp [List.findIdx?_cons,hxa,hj,List.replace_cons,hax,hrest]

/-- Replacing every occurrence, one after the other. -/
theorem map_replace {l : List α} (a b : α) (hb : b ≠ a) (h : a ∈ l) :
    (l.replace a b).map (fun c => if c = a then b else c) = l.map (fun c => if c = a then b else c) := by
  induction l with
  | nil => simp at h
  | cons x l ih =>
    by_cases hx : x = a
    · subst hx
      simp [hb]
    · have hax : (a == x) = false := by simpa using Ne.symm hx
      simp [List.replace_cons,hax,ih ((List.mem_cons.mp h).resolve_left (Ne.symm hx))]

theorem count_replace {l : List α} (a b : α) (hb : b ≠ a) (h : a ∈ l) :
    (l.replace a b).count a + 1 = l.count a := by
  induction l with
  | nil => simp at h
  | cons x l ih =>
    by_cases hx : x = a
    · subst hx
      simp [hb]
    · have hax : (a == x) = false := by simpa using Ne.symm hx
      have hrest := ih ((List.mem_cons.mp h).resolve_left (Ne.symm hx))
      simp [List.replace_cons,hax,hx,hrest]

theorem map_replace_of_not_mem {l : List α} (a b : α) (h : a ∉ l) :
    l.map (fun c => if c = a then b else c) = l := by
  refine (List.map_congr_left fun c hc => if_neg ?_).trans (List.map_id l)
  rintro rfl
  exact h hc

/-- Overwriting one occurrence, wherever it is. -/
theorem map_set_occurrence {l : List α} {k : ℕ} {a b : α} (hk : l[k]? = some a) (hb : b ≠ a) :
    (l.set k b).map (fun c => if c = a then b else c) = l.map (fun c => if c = a then b else c) := by
  obtain ⟨hlt,hget⟩ := List.getElem?_eq_some_iff.mp hk
  rw [List.map_set, if_neg hb]
  have hlt' : k < (l.map (fun c => if c = a then b else c)).length := by simpa using hlt
  have hset : (l.map (fun c => if c = a then b else c)).set k (l.map (fun c => if c = a then b else c))[k] =
      l.map (fun c => if c = a then b else c) := List.set_getElem_self _
  rwa [List.getElem_map, hget, if_pos rfl] at hset

theorem count_set_occurrence {l : List α} {k : ℕ} {a b : α} (hk : l[k]? = some a) (hb : b ≠ a) :
    (l.set k b).count a + 1 = l.count a := by
  obtain ⟨hlt,hget⟩ := List.getElem?_eq_some_iff.mp hk
  have hpos : 0 < l.count a := List.count_pos_iff.mpr (List.mem_of_getElem? hk)
  rw [List.count_set hlt]
  simp only [hget, beq_self_eq_true, if_true, beq_iff_eq, hb, if_false]
  omega

theorem filter_eraseIdx_occurrence {l : List α} {k : ℕ} {a : α} (hk : l[k]? = some a) :
    (l.eraseIdx k).filter (fun c => decide (c ≠ a)) = l.filter (fun c => decide (c ≠ a)) := by
  induction l generalizing k with
  | nil => simp at hk
  | cons x l ih =>
    cases k with
    | zero =>
      obtain rfl : x = a := by simpa using hk
      simp
    | succ k =>
      have hrest := ih (by simpa using hk)
      rw [List.eraseIdx_cons_succ, List.filter_cons, List.filter_cons, hrest]

theorem count_eraseIdx_occurrence {l : List α} {k : ℕ} {a : α} (hk : l[k]? = some a) :
    (l.eraseIdx k).count a + 1 = l.count a := by
  obtain ⟨hlt,hget⟩ := List.getElem?_eq_some_iff.mp hk
  have hperm := List.getElem_cons_eraseIdx_perm hlt
  rw [← hperm.count_eq a, hget, List.count_cons_self]

theorem forall₂_mem_right {α β : Type} {r : α → β → Prop} {l : List α} {l' : List β} (h : List.Forall₂ r l l') {b : β}
    (hb : b ∈ l') : ∃ a ∈ l, r a b := by
  induction h with
  | nil => simp at hb
  | @cons a c l l' hac _ ih =>
    rcases List.mem_cons.mp hb with rfl | hb
    · exact ⟨a,List.mem_cons_self,hac⟩
    · obtain ⟨a',ha',hab⟩ := ih hb
      exact ⟨a',List.mem_cons_of_mem _ ha',hab⟩

theorem eq_singleton_of_mem {α : Type} {a : α} {l : List α} (ha : a ∈ l) (hl : l.length ≤ 1) : l = [a] := by
  obtain ⟨x,rfl⟩ := List.length_eq_one_iff.mp (Nat.le_antisymm hl (List.length_pos_of_mem ha))
  rw [List.mem_singleton.mp ha]

end AqsiosCoordinator.Foundation
