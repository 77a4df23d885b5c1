import AqsiosCoordinator.Foundation.ContinuousQuery
import Mathlib.Data.Multiset.FinsetOps

/-! # Row-wise operators and distincts

A sequence of operators, each of which treats the rows of a bag one by one or drops
their copies. Of two bags together it yields what it yields of each, unless two of their
rows meet at a distinct.
-/
namespace AqsiosCoordinator.Foundation

inductive BagOp (β : Type) where
  | rows (f : β → Option β)
  | distinct

namespace BagOp
variable {β : Type}

def through : List (BagOp β) → β → Option β
  | [], x => some x
  | .rows f :: ops, x => (f x).bind (through ops)
  | .distinct :: ops, x => through ops x

/-- Two rows are the same at a distinct, and what they are there gets through. -/
def Meet : List (BagOp β) → β → β → Prop
  | [], _, _ => False
  | .rows f :: ops, x, y => ∃ x' y', f x = some x' ∧ f y = some y' ∧ Meet ops x' y'
  | .distinct :: ops, x, y => (x = y ∧ (through ops y).isSome = true) ∨ Meet ops x y

section Meet
variable {f g : β → Option β} {ops : List (BagOp β)} {x y : β}

theorem meet_concat_rows : Meet (ops ++ [.rows f, .rows g]) x y ↔ Meet (ops ++ [.rows fun x => (f x).bind g]) x y := by
  induction ops generalizing x y with
  | nil => simp [Meet]
  | cons op ops ih =>
    have hthrough : through (ops ++ [.rows f, .rows g]) y = through (ops ++ [.rows fun x => (f x).bind g]) y := by
      clear ih
      induction ops generalizing y with
      | nil => simp [through]
      | cons op ops ih => cases op <;> simp [through,ih]
    cases op with
    | rows h => simp only [List.cons_append, Meet, ih]
    | distinct => simp only [List.cons_append, Meet, ih, hthrough]

theorem through_concat_rows : through (ops ++ [.rows f]) x = (through ops x).bind f := by
  induction ops generalizing x with
  | nil => simp [through]
  | cons op ops ih =>
    cases op with
    | rows h => simp only [List.cons_append, through, Option.bind_assoc, ih]
    | distinct => simp only [List.cons_append, through, ih]

theorem through_concat_distinct : through (ops ++ .distinct :: [.rows f]) x = (through ops x).bind f := by
  induction ops generalizing x with
  | nil => simp [through]
  | cons op ops ih =>
    cases op with
    | rows h => simp only [List.cons_append, through, Option.bind_assoc, ih]
    | distinct => simp only [List.cons_append, through, ih]

theorem meet_concat_some : Meet (ops ++ [.rows some]) x y ↔ Meet ops x y := by
  induction ops generalizing x y with
  | nil => simp [Meet]
  | cons op ops ih =>
    cases op with
    | rows h => simp only [List.cons_append, Meet, ih]
    | distinct => simp only [List.cons_append, Meet, ih, through_concat_rows, Option.bind_fun_some]

/-- Rows that meet below meet at the topmost distinct. -/
theorem meet_concat_distinct : Meet (ops ++ [.distinct, .rows f]) x y ↔
    ∃ v, through ops x = some v ∧ through ops y = some v ∧ (f v).isSome = true := by
  induction ops generalizing x y with
  | nil =>
    simp only [List.nil_append, Meet, through, Option.bind_fun_some]
    constructor
    · rintro (⟨rfl,h⟩ | ⟨-,-,-,-,h⟩)
      · exact ⟨x,rfl,rfl,h⟩
      · exact h.elim
    · rintro ⟨v,hx,hy,h⟩
      obtain rfl := Option.some.inj hx
      obtain rfl := Option.some.inj hy
      exact .inl ⟨rfl,h⟩
  | cons op ops ih =>
    cases op with
    | rows h =>
      simp only [List.cons_append, Meet, through, ih]
      constructor
      · rintro ⟨x',y',hx,hy,v,h1,h2,h3⟩
        exact ⟨v,by simp [hx,h1],by simp [hy,h2],h3⟩
      · rintro ⟨v,h1,h2,h3⟩
        obtain ⟨x',hx,h1⟩ := Option.bind_eq_some_iff.mp h1
        obtain ⟨y',hy,h2⟩ := Option.bind_eq_some_iff.mp h2
        exact ⟨x',y',hx,hy,v,h1,h2,h3⟩
    | distinct =>
      simp only [List.cons_append, Meet, through, ih, through_concat_distinct]
      constructor
      · rintro (⟨rfl,h⟩ | h)
        · obtain ⟨w,hw⟩ := Option.isSome_iff_exists.mp h
          obtain ⟨v,hv,hf⟩ := Option.bind_eq_some_iff.mp hw
          exact ⟨v,hv,hv,by simp [hf]⟩
        · exact h
      · exact .inr

end Meet

theorem filterMap_eq_zero {f : β → Option β} {A : Multiset β} : A.filterMap f = 0 ↔ ∀ x ∈ A, f x = none := by
  rw [Multiset.eq_zero_iff_forall_notMem]
  constructor
  · intro h x hx
    cases hf : f x with
    | none => rfl
    | some y => exact absurd ((Multiset.mem_filterMap f A).mpr ⟨x,hx,hf⟩) (h y)
  · intro h y hy
    obtain ⟨x,hx,hf⟩ := (Multiset.mem_filterMap f A).mp hy
    rw [h x hx] at hf
    cases hf

/-- A function of rows before an operator and one after it that have the same effect. -/
theorem filterMap_map_comm {f f' : β → Option β} {g g' : β → β} {A : Multiset β} (h : ∀ x ∈ A, f' (g x) = (f x).map g') :
    (A.map g).filterMap f' = (A.filterMap f).map g' := by
  induction A using Multiset.induction with
  | empty => rfl
  | cons x A ih =>
    obtain ⟨hx,hA⟩ := Multiset.forall_mem_cons.mp h
    rw [Multiset.map_cons]
    cases hf : f x with
    | none =>
      rw [hf] at hx
      rw [Multiset.filterMap_cons_none _ _ hx, Multiset.filterMap_cons_none _ _ hf, ih hA]
    | some y =>
      rw [hf] at hx
      rw [Multiset.filterMap_cons_some _ _ _ hx, Multiset.filterMap_cons_some _ _ _ hf, Multiset.map_cons, ih hA]

section Run
variable [DecidableEq β] {f : β → Option β} {ops : List (BagOp β)} {A B : Multiset β}

def apply : BagOp β → Multiset β → Multiset β
  | .rows f, A => A.filterMap f
  | .distinct, A => A.dedup

def run (ops : List (BagOp β)) (A : Multiset β) : Multiset β := ops.foldl (fun A op => op.apply A) A

theorem run_concat {op : BagOp β} : run (ops ++ [op]) A = op.apply (run ops A) := by simp [run]

theorem mem_run {y : β} : y ∈ run ops A ↔ ∃ x ∈ A, through ops x = some y := by
  induction ops generalizing A with
  | nil => simp [run,through]
  | cons op ops ih =>
    have hrun : run (op :: ops) A = run ops (op.apply A) := rfl
    rw [hrun, ih]
    cases op with
    | rows f =>
      simp only [apply, Multiset.mem_filterMap, through, Option.bind_eq_some_iff]
      constructor
      · rintro ⟨x',⟨x,hx,hf⟩,h⟩
        exact ⟨x,hx,x',hf,h⟩
      · rintro ⟨x,hx,x',hf,h⟩
        exact ⟨x',⟨x,hx,hf⟩,h⟩
    | distinct => simp only [apply, Multiset.mem_dedup, through]

theorem dedup_add_eq_union : (A + B).dedup = A.dedup ∪ B.dedup := by
  ext x
  simp only [Multiset.count_dedup, Multiset.count_union, Multiset.mem_add]
  by_cases hA : x ∈ A
  · simp [hA]
    split <;> simp
  · simp [hA]

/-- The copies that a distinct drops of both bags together are those of rows in both. -/
theorem dedup_add_inter : (A + B).dedup + A.dedup ∩ B.dedup = A.dedup + B.dedup := by
  rw [dedup_add_eq_union, Multiset.union_add_inter]

/-- The induction is on the operators from the last one down, what follows them as one function. -/
theorem filterMap_run_add : (run ops (A + B)).filterMap f = (run ops A).filterMap f + (run ops B).filterMap f ↔
    ∀ x ∈ A, ∀ y ∈ B, ¬ Meet (ops ++ [.rows f]) x y := by
  induction ops using List.reverseRecOn generalizing f with
  | nil => simp [run,Meet]
  | append_singleton ops op ih =>
    rw [run_concat, run_concat, run_concat, List.append_assoc]
    cases op with
    | rows g => simp only [apply, Multiset.filterMap_filterMap, ih, List.singleton_append, meet_concat_rows]
    | distinct =>
      have hboth : (run ops (A + B)).dedup = (run ops A + run ops B).dedup := by
        rw [Multiset.dedup_ext]
        intro v
        simp only [Multiset.mem_add, mem_run, or_and_right, exists_or]
      have hsum := congrArg (Multiset.filterMap f) (dedup_add_inter (A := run ops A) (B := run ops B))
      rw [Multiset.filterMap_add, Multiset.filterMap_add, ← hboth] at hsum
      simp only [apply]
      rw [← hsum, left_eq_add, filterMap_eq_zero]
      simp only [List.singleton_append, meet_concat_distinct, Multiset.mem_inter, Multiset.mem_dedup, mem_run]
      constructor
      · rintro h x hx y hy ⟨v,h1,h2,hf⟩
        rw [h v ⟨⟨x,hx,h1⟩,y,hy,h2⟩] at hf
        cases hf
      · rintro h v ⟨⟨x,hx,h1⟩,y,hy,h2⟩
        rw [← Option.not_isSome_iff_eq_none]
        intro hf
        exact h x hx y hy ⟨v,h1,h2,hf⟩

theorem run_add : run ops (A + B) = run ops A + run ops B ↔ ∀ x ∈ A, ∀ y ∈ B, ¬ Meet ops x y := by
  have h : (run ops (A + B)).filterMap some = (run ops A).filterMap some + (run ops B).filterMap some ↔
      ∀ x ∈ A, ∀ y ∈ B, ¬ Meet (ops ++ [.rows some]) x y := filterMap_run_add
  simp only [Multiset.filterMap_some, meet_concat_some] at h
  exact h

/-- Rows that come at different instants do not meet, and what comes so far yields what comes of each instant. -/
theorem run_sum {F : ℕ → Multiset β} :
    (∀ now, run ops (∑ i ∈ Finset.range (now + 1), F i) = ∑ i ∈ Finset.range (now + 1), run ops (F i)) ↔
      ∀ s t, s < t → ∀ x ∈ F s, ∀ y ∈ F t, ¬ Meet ops x y := by
  have hmem (x : β) (n : ℕ) : x ∈ ∑ i ∈ Finset.range n, F i ↔ ∃ i < n, x ∈ F i := by
    simp [Multiset.mem_sum]
  constructor
  · intro h s t hst x hx
    obtain ⟨t,rfl⟩ := Nat.exists_eq_succ_of_ne_zero (Nat.ne_of_gt (Nat.zero_lt_of_lt hst))
    have hstep := h (t + 1)
    rw [Finset.sum_range_succ _ (t + 1), Finset.sum_range_succ _ (t + 1), ← h t] at hstep
    exact run_add.mp hstep x ((hmem x _).mpr ⟨s,hst,hx⟩)
  · intro h now
    induction now with
    | zero => simp
    | succ n ih =>
      rw [Finset.sum_range_succ _ (n + 1), Finset.sum_range_succ _ (n + 1), ← ih]
      apply run_add.mpr
      intro x hx
      obtain ⟨s,hs,hx⟩ := (hmem x _).mp hx
      exact h s (n + 1) hs x hx

theorem apply_le {op : BagOp β} (h : A ≤ B) : op.apply A ≤ op.apply B := by
  cases op with
  | rows f => exact Multiset.filterMap_le_filterMap f h
  | distinct => exact Multiset.le_dedup.mpr ⟨(Multiset.dedup_le A).trans h,Multiset.nodup_dedup A⟩

theorem run_le (h : A ≤ B) : run ops A ≤ run ops B := by
  induction ops generalizing A B with
  | nil => exact h
  | cons op ops ih => exact ih (apply_le h)

theorem apply_add_le {op : BagOp β} : op.apply (A + B) ≤ op.apply A + op.apply B := by
  cases op with
  | rows f => exact (Multiset.filterMap_add f A B).le
  | distinct =>
    simp only [apply]
    rw [← dedup_add_inter]
    exact Multiset.le_add_right _ _

theorem run_add_le : run ops (A + B) ≤ run ops A + run ops B := by
  induction ops generalizing A B with
  | nil => exact le_refl _
  | cons op ops ih => exact (run_le apply_add_le).trans ih

theorem run_sum_le {F : ℕ → Multiset β} (now : ℕ) :
    run ops (∑ i ∈ Finset.range (now + 1), F i) ≤ ∑ i ∈ Finset.range (now + 1), run ops (F i) := by
  induction now with
  | zero => simp
  | succ n ih =>
    rw [Finset.sum_range_succ _ (n + 1), Finset.sum_range_succ _ (n + 1)]
    exact run_add_le.trans (add_le_add_left ih _)

/-- The same when the rows that get through are renamed by `g`. -/
theorem run_sum_map {F : ℕ → Multiset β} {g : β → β} :
    (∀ now, (run ops (∑ i ∈ Finset.range (now + 1), F i)).map g = ∑ i ∈ Finset.range (now + 1), run ops (F i)) ↔
      (∀ s t, s < t → ∀ x ∈ F s, ∀ y ∈ F t, ¬ Meet ops x y) ∧ ∀ t, (run ops (F t)).map g = run ops (F t) := by
  rw [← run_sum]
  constructor
  · intro h
    have hall (now : ℕ) : run ops (∑ i ∈ Finset.range (now + 1), F i) = ∑ i ∈ Finset.range (now + 1), run ops (F i) := by
      apply Multiset.eq_of_le_of_card_le (run_sum_le now)
      rw [← h now, Multiset.card_map]
    refine ⟨hall,fun t => ?_⟩
    cases t with
    | zero => simpa using h 0
    | succ t =>
      have hlast := h (t + 1)
      have hbefore := h t
      rw [hall] at hlast hbefore
      rw [Finset.sum_range_succ _ (t + 1), Multiset.map_add, hbefore] at hlast
      exact add_left_cancel hlast
  · rintro ⟨h1,h2⟩ now
    rw [h1]
    clear h1
    induction now with
    | zero => simpa using h2 0
    | succ n ih => rw [Finset.sum_range_succ _ (n + 1), Multiset.map_add, ih, h2]

end Run

end BagOp
end AqsiosCoordinator.Foundation
