import AqsiosCoordinator.Foundation.CrossProduct

/-! # Properties of all rows of a continuous query

What holds of the rows of the inputs of an operator at all times holds of the rows that
it selects, retains or emits.
-/
namespace AqsiosCoordinator.Foundation.TimeVarying
variable {α : Type} {P Q : Row α → Prop} {R L : TimeVarying α}

def AllRows (P : Row α → Prop) (R : TimeVarying α) : Prop := ∀ now, ∀ r ∈ R now, P r

theorem AllRows.filter (h : AllRows P R) (p : Row α → Bool) : AllRows P (R.filter p) :=
  fun now r hr => h now r (Multiset.mem_of_mem_filter hr)

theorem allRows_map {f : Row α → Row α} (hf : ∀ r, Q (f r)) : AllRows Q (R.map f) := by
  intro now r hr
  obtain ⟨r',-,rfl⟩ := Multiset.mem_map.mp hr
  exact hf r'

theorem AllRows.before (h : AllRows P R) : AllRows P R.before := by
  intro now r hr
  cases now with
  | zero => exact absurd hr (Multiset.notMem_zero r)
  | succ n => exact h n r hr

theorem allRows_accumulate {f : ℕ → Multiset (Row α)} (h : AllRows P f) : AllRows P (accumulate f) := by
  intro now r hr
  obtain ⟨i,-,hi⟩ := Multiset.mem_sum.mp hr
  exact h i r hi

theorem AllRows.union (hL : AllRows P L) (hR : AllRows P R) : AllRows P (L.union R) :=
  fun now r hr => (Multiset.mem_add.mp hr).elim (hL now r) (hR now r)

variable [DecidableEq α]

theorem AllRows.arrivals (h : AllRows P R) : AllRows P R.arrivals :=
  fun now r hr => h now r (Multiset.mem_of_le (Multiset.sub_le_self _ _) hr)

theorem AllRows.removals (h : AllRows P R) : AllRows P R.removals :=
  fun now r hr => h.before now r (Multiset.mem_of_le (Multiset.sub_le_self _ _) hr)

theorem AllRows.except (h : AllRows P L) : AllRows P (L.except R) :=
  fun now r hr => h now r (Multiset.mem_of_le (Multiset.sub_le_self _ _) hr)

theorem AllRows.distinct (h : AllRows P R) : AllRows P R.distinct :=
  fun now r hr => h now r (Multiset.mem_dedup.mp hr)

theorem AllRows.rangeWindow (h : AllRows P R) (n : ℕ) : AllRows P (R.rangeWindow n) := by
  intro now r hr
  obtain ⟨i,-,hi⟩ := Multiset.mem_sum.mp hr
  exact h.arrivals i r hi

theorem lastRows_subset (n : ℕ) (key : Row α → Row α) (rows : List (Row α)) : lastRows n key rows ⊆ rows := by
  induction rows with
  | nil => exact List.Subset.refl _
  | cons r rows ih =>
    unfold lastRows
    split
    · exact List.cons_subset_cons r ih
    · exact List.Subset.trans ih (List.subset_cons_self r rows)

theorem AllRows.partitionWindow {order : Multiset (Row α) → List (Row α)} (horder : ∀ rows, (order rows : Multiset (Row α)) = rows)
    (h : AllRows P R) (n : ℕ) (key : Row α → Row α) : AllRows P (R.partitionWindow order n key) := by
  intro now r hr
  obtain ⟨i,-,hi⟩ := List.mem_flatMap.mp (lastRows_subset n key _ (Multiset.mem_coe.mp hr))
  refine h.arrivals i r ?_
  rw [← horder (R.arrivals i)]
  exact hi

theorem lastRows_congr {n : ℕ} {key key' : Row α → Row α} {rows : List (Row α)} (h : ∀ r ∈ rows, key r = key' r) :
    lastRows n key rows = lastRows n key' rows := by
  induction rows with
  | nil => rfl
  | cons r rows ih =>
    obtain ⟨hr,hrows⟩ := List.forall_mem_cons.mp h
    have hsame : rows.filter (fun x => key x = key r) = rows.filter (fun x => key' x = key' r) := by
      apply List.filter_congr
      intro x hx
      rw [hr, hrows x hx]
    rw [lastRows, lastRows, hsame, ih hrows]

/-- Only the keys of the rows that come matter for a window. -/
theorem partitionWindow_congr {order : Multiset (Row α) → List (Row α)} (horder : ∀ rows, (order rows : Multiset (Row α)) = rows)
    (hR : AllRows P R) {n : ℕ} {key key' : Row α → Row α} (h : ∀ r, P r → key r = key' r) :
    R.partitionWindow order n key = R.partitionWindow order n key' := by
  funext now
  unfold partitionWindow
  rw [lastRows_congr]
  intro r hr
  obtain ⟨i,-,hi⟩ := List.mem_flatMap.mp hr
  have harrived : r ∈ R.arrivals i := by
    rw [← horder (R.arrivals i)]
    exact hi
  exact h r (hR.arrivals i r harrived)

end AqsiosCoordinator.Foundation.TimeVarying
