import AqsiosCoordinator.Foundation.CrossProduct
import Mathlib.Order.Monotone.Basic

/-! # Streams only grow

A stream is the bag of the rows that have arrived so far. What is computed row by row from
streams, and what accumulates, is a stream again, and a stream is what its arrivals add up to.
-/
namespace AqsiosCoordinator.Foundation.TimeVarying
variable {α : Type} {R L : TimeVarying α}

theorem sum_filter {β : Type} {F : ℕ → Multiset β} (s : Finset ℕ) (ok : β → Prop) [DecidablePred ok] :
    (∑ t ∈ s, F t).filter ok = ∑ t ∈ s, (F t).filter ok := by
  induction s using Finset.induction with
  | empty => rfl
  | insert t s ht ih => rw [Finset.sum_insert ht, Finset.sum_insert ht, Multiset.filter_add, ih]

theorem sum_map {β γ : Type} {F : ℕ → Multiset β} (s : Finset ℕ) (f : β → γ) : (∑ t ∈ s, F t).map f = ∑ t ∈ s, (F t).map f :=
  map_sum (Multiset.mapAddMonoidHom f) F s

theorem monotone_accumulate (f : ℕ → Multiset (Row α)) : Monotone (accumulate f) := by
  apply monotone_nat_of_le_succ
  intro now
  unfold accumulate
  rw [Finset.sum_range_succ _ (now + 1)]
  exact Multiset.le_add_right _ _

theorem monotone_filter (h : Monotone R) (p : Row α → Bool) : Monotone (R.filter p) :=
  fun _ _ hst => Multiset.filter_le_filter _ (h hst)

theorem monotone_map (h : Monotone R) (f : Row α → Row α) : Monotone (R.map f) := fun _ _ hst => Multiset.map_le_map (h hst)

theorem monotone_union (hL : Monotone L) (hR : Monotone R) : Monotone (L.union R) := fun _ _ hst => add_le_add (hL hst) (hR hst)

theorem bind_le {β γ : Type} {A : Multiset β} {f g : β → Multiset γ} (h : ∀ a ∈ A, f a ≤ g a) : A.bind f ≤ A.bind g := by
  induction A using Multiset.induction with
  | empty => exact le_refl _
  | cons a A ih =>
    obtain ⟨ha,hA⟩ := Multiset.forall_mem_cons.mp h
    rw [Multiset.cons_bind, Multiset.cons_bind]
    exact add_le_add ha (ih hA)

/-- A product of larger bags is larger. -/
theorem product_le {null : α} {factors factors' : List (ℕ × Multiset (Row α))}
    (h : List.Forall₂ (fun f f' => f.1 = f'.1 ∧ f.2 ≤ f'.2) factors factors') : product null factors ≤ product null factors' := by
  induction h with
  | nil => exact le_refl _
  | @cons f f' factors factors' hf _ ih =>
    obtain ⟨n,A⟩ := f
    obtain ⟨n',B⟩ := f'
    obtain ⟨rfl,hle⟩ := hf
    obtain ⟨C,rfl⟩ := Multiset.le_iff_exists_add.mp hle
    simp only [product, Multiset.add_bind]
    refine le_trans ?_ (Multiset.le_add_right _ _)
    exact bind_le fun r _ => Multiset.map_le_map ih

theorem monotone_cross {null : α} {factors : List (ℕ × TimeVarying α)} (h : ∀ f ∈ factors, Monotone f.2) : Monotone (cross null factors) := by
  intro s t hst
  apply product_le
  rw [List.forall₂_map_left_iff, List.forall₂_map_right_iff, List.forall₂_same]
  exact fun f hf => ⟨rfl,h f hf hst⟩

variable [DecidableEq α]

theorem monotone_distinct (h : Monotone R) : Monotone R.distinct :=
  fun _ _ hst => Multiset.le_dedup.mpr ⟨(Multiset.dedup_le _).trans (h hst),Multiset.nodup_dedup _⟩

theorem monotone_streamCross {null : α} (factors : List (ℕ × TimeVarying α)) : Monotone (streamCross null factors) := by
  cases factors with
  | nil => exact monotone_const
  | cons f factors => exact monotone_accumulate _

/-- A stream is what has arrived. -/
theorem accumulate_arrivals (h : Monotone R) : accumulate R.arrivals = R := by
  funext now
  induction now with
  | zero => simp [accumulate,arrivals,before]
  | succ now ih =>
    unfold accumulate at ih ⊢
    rw [Finset.sum_range_succ, ih]
    exact add_tsub_cancel_of_le (h now.le_succ)

end AqsiosCoordinator.Foundation.TimeVarying
