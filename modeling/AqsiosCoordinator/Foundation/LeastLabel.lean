import Mathlib.Order.Bounds.Basic
import Mathlib.Data.List.Lattice
import Mathlib.Data.List.MinMax
import Mathlib.Logic.Relation

/-! # Labels by the least key of the marked nodes that a node reaches

A label is the least of some keys, or a default that is no key when there are none.
`Relabelled` is what a search backwards from a newly marked node does to the labels
when it does not go on beyond labels that are small enough.
-/
namespace AqsiosCoordinator.Foundation
open Relation
variable {ι α : Type}

section Keys
variable {E : ι → ι → Prop} {marked : ι → Prop} {key : ι → α} {o q root : ι}

def keysAbove (E : ι → ι → Prop) (marked : ι → Prop) (key : ι → α) (o : ι) : Set α :=
  {k | ∃ p, marked p ∧ ReflTransGen E o p ∧ key p = k}

theorem keysAbove_subset (h : ReflTransGen E o q) : keysAbove E marked key q ⊆ keysAbove E marked key o := by
  rintro k ⟨p,hp,hqp,hk⟩
  exact ⟨p,hp,h.trans hqp,hk⟩

theorem keysAbove_mark_of_reaches (h : ReflTransGen E o root) :
    keysAbove E (fun p => p = root ∨ marked p) key o = insert (key root) (keysAbove E marked key o) := by
  ext k
  constructor
  · rintro ⟨p,rfl | hp,hop,rfl⟩
    · exact .inl rfl
    · exact .inr ⟨p,hp,hop,rfl⟩
  · rintro (rfl | ⟨p,hp,hop,rfl⟩)
    · exact ⟨root,.inl rfl,h,rfl⟩
    · exact ⟨p,.inr hp,hop,rfl⟩

theorem keysAbove_mark_of_not_reaches (h : ¬ ReflTransGen E o root) :
    keysAbove E (fun p => p = root ∨ marked p) key o = keysAbove E marked key o := by
  ext k
  constructor
  · rintro ⟨p,rfl | hp,hop,rfl⟩
    · exact absurd hop h
    · exact ⟨p,hp,hop,rfl⟩
  · rintro ⟨p,hp,hop,rfl⟩
    exact ⟨p,.inr hp,hop,rfl⟩

/-- A way from `o` to `q` has nodes outside of `A` only, before its end. -/
def Outside (E : ι → ι → Prop) (A : ι → Prop) : ι → ι → Prop := ReflTransGen fun a b => ¬ A a ∧ E a b

theorem Outside.reaches {A : ι → Prop} (h : Outside E A o q) : ReflTransGen E o q := by
  induction h with
  | refl => exact .refl
  | tail _ hbc ih => exact ih.tail hbc.2

/-- Every way is outside of `A` up to its first node of `A`, or to its end. -/
theorem exists_outside (A : ι → Prop) (h : ReflTransGen E o q) :
    ∃ w, Outside E A o w ∧ ReflTransGen E w q ∧ (A w ∨ w = q) := by
  induction h using ReflTransGen.head_induction_on with
  | refl => exact ⟨q,.refl,.refl,.inr rfl⟩
  | @head a c hac hcq ih =>
    by_cases ha : A a
    · exact ⟨a,.refl,.head hac hcq,.inl ha⟩
    · obtain ⟨w,hcw,hwq,hw⟩ := ih
      exact ⟨w,.head ⟨ha,hac⟩ hcw,hwq,hw⟩

end Keys

variable [LinearOrder α] {d k l m : α} {C D : Set α}

def LeastOr (d : α) (C : Set α) (k : α) : Prop := IsLeast C k ∨ C = ∅ ∧ k = d

def Covered (d k l : α) : Prop := l ≠ d ∧ l ≤ k

instance : Decidable (Covered d k l) := inferInstanceAs (Decidable (_ ∧ _))

theorem LeastOr.isLeast (h : LeastOr d C l) (hl : l ≠ d) : IsLeast C l := by
  rcases h with h | ⟨-,h⟩
  · exact h
  · exact absurd h hl

theorem LeastOr.ne_iff (h : LeastOr d C l) (hd : d ∉ C) : l ≠ d ↔ C.Nonempty := by
  constructor
  · intro hl
    exact (h.isLeast hl).nonempty
  · rintro ⟨x,hx⟩ rfl
    rcases h with h | ⟨h,-⟩
    · exact hd h.1
    · simp [h] at hx

theorem LeastOr.unique (h : LeastOr d C l) (h' : LeastOr d C m) : l = m := by
  rcases h with h | ⟨h,rfl⟩ <;> rcases h' with h' | ⟨h',rfl⟩
  · exact h.unique h'
  · exact absurd h' h.nonempty.ne_empty
  · exact absurd h h'.nonempty.ne_empty
  · rfl

theorem LeastOr.insert (h : LeastOr d C l) (hd : d ∉ C) : LeastOr d (insert k C) (if Covered d k l then l else k) := by
  rcases h with h | ⟨rfl,rfl⟩
  · have hl : l ≠ d := by
      rintro rfl
      exact hd h.1
    left
    split
    · rename_i hc
      exact ⟨.inr h.1,by rintro x (rfl | hx); exacts [hc.2,h.2 hx]⟩
    · rename_i hc
      have hlt : k < l := by
        by_contra hle
        exact hc ⟨hl,not_lt.mp hle⟩
      exact ⟨.inl rfl,by rintro x (rfl | hx); exacts [le_rfl,hlt.le.trans (h.2 hx)]⟩
  · rw [if_neg (by simp [Covered])]
    left
    simp

/-- A label that is small enough stays so for more keys. -/
theorem Covered.of_subset (hl : LeastOr d C l) (hm : LeastOr d D m) (hCD : C ⊆ D) (hd : d ∉ D) (h : Covered d k l) :
    Covered d k m := by
  have hmem : l ∈ D := hCD (hl.isLeast h.1).1
  have hne : m ≠ d := (hm.ne_iff hd).mpr ⟨l,hmem⟩
  exact ⟨hne,((hm.isLeast hne).2 hmem).trans h.2⟩

/-- Labels after a search backwards from `root` that gives nodes of `V` the label `k`. -/
structure Relabelled (E : ι → ι → Prop) (V : List ι) (d k : α) (root : ι) (f g : ι → α) : Prop where
  changed : ∀ o, g o = f o ∨ ¬ Covered d k (f o) ∧ g o = k ∧ ReflTransGen E o root
  root : Covered d k (g root)
  closed : ∀ o ∈ V, ∀ q, E o q → Covered d k (g q) → Covered d k (g o)

section Relabelled
variable {E : ι → ι → Prop} {V : List ι} {root o : ι} {f g : ι → α} {marked : ι → Prop} {key : ι → α}

theorem Relabelled.covered (h : Relabelled E V d k root f g) (hV : ∀ o ∈ V, ∀ q, E o q → q ∈ V) (ho : o ∈ V)
    (hreach : ReflTransGen E o root) : Covered d k (g o) := by
  induction hreach using ReflTransGen.head_induction_on with
  | refl => exact h.root
  | head hoq _ ih => exact h.closed _ ho _ hoq (ih (hV _ ho _ hoq))

theorem Relabelled.eq_of_reaches (h : Relabelled E V d k root f g) (hV : ∀ o ∈ V, ∀ q, E o q → q ∈ V) (ho : o ∈ V)
    (hreach : ReflTransGen E o root) : g o = if Covered d k (f o) then f o else k := by
  have hcov := h.covered hV ho hreach
  rcases h.changed o with hg | ⟨hf,hg,-⟩
  · rw [hg] at hcov ⊢
    rw [if_pos hcov]
  · rw [if_neg hf, hg]

theorem Relabelled.eq_of_not_reaches (h : Relabelled E V d k root f g) (hreach : ¬ ReflTransGen E o root) : g o = f o := by
  rcases h.changed o with hg | ⟨-,-,hr⟩
  · exact hg
  · exact absurd hr hreach

/-- The labels are the least keys again once `root`, with key `k`, is marked as well. -/
theorem Relabelled.leastOr (h : Relabelled E V d k root f g) (hV : ∀ o ∈ V, ∀ q, E o q → q ∈ V) (ho : o ∈ V)
    (hkey : key root = k) (hd : d ∉ keysAbove E marked key o) (hf : LeastOr d (keysAbove E marked key o) (f o)) :
    LeastOr d (keysAbove E (fun p => p = root ∨ marked p) key o) (g o) := by
  by_cases hreach : ReflTransGen E o root
  · rw [keysAbove_mark_of_reaches hreach, h.eq_of_reaches hV ho hreach, hkey]
    exact hf.insert hd
  · rw [keysAbove_mark_of_not_reaches hreach, h.eq_of_not_reaches hreach]
    exact hf

end Relabelled

/-! Computing what a node reaches and its label, on a list that is closed under the edges. -/

section Closure
variable [DecidableEq ι] {next : ι → List ι} {o p : ι} {l : List ι}

def closeUnder (next : ι → List ι) : ℕ → List ι → List ι
  | 0, l => l
  | n+1, l => closeUnder next n (l ∪ l.flatMap next)

def ClosedUnder (next : ι → List ι) (l : List ι) : Prop := ∀ a ∈ l, ∀ b ∈ next a, b ∈ l

instance : Decidable (ClosedUnder next l) := List.decidableBAll (fun a => ∀ b ∈ next a, b ∈ l) l

omit [DecidableEq ι] in
theorem ClosedUnder.reaches (h : ClosedUnder next l) (ho : o ∈ l) (hop : ReflTransGen (fun a b => b ∈ next a) o p) :
    p ∈ l := by
  induction hop with
  | refl => exact ho
  | tail _ hbc ih => exact h _ ih _ hbc

theorem reaches_of_mem_closeUnder {n : ℕ} (h : p ∈ closeUnder next n l) :
    ∃ o ∈ l, ReflTransGen (fun a b => b ∈ next a) o p := by
  induction n generalizing l with
  | zero => exact ⟨p,h,.refl⟩
  | succ n ih =>
    obtain ⟨o,ho,hop⟩ := ih h
    rcases List.mem_union_iff.mp ho with ho | ho
    · exact ⟨o,ho,hop⟩
    · obtain ⟨a,ha,hao⟩ := List.mem_flatMap.mp ho
      exact ⟨a,ha,.head hao hop⟩

theorem subset_closeUnder (n : ℕ) : ∀ a ∈ l, a ∈ closeUnder next n l := by
  induction n generalizing l with
  | zero => exact fun _ ha => ha
  | succ n ih => exact fun a ha => ih a (List.mem_union_iff.mpr (.inl ha))

/-- The marked nodes that `o` reaches, when `n` steps are enough to reach all. -/
def markedAbove (next : ι → List ι) (marked : ι → Bool) (n : ℕ) (o : ι) : List ι :=
  (closeUnder next n [o]).filter marked

theorem mem_markedAbove {marked : ι → Bool} {n : ℕ} (h : ClosedUnder next (closeUnder next n [o])) :
    p ∈ markedAbove next marked n o ↔ marked p = true ∧ ReflTransGen (fun a b => b ∈ next a) o p := by
  rw [markedAbove, List.mem_filter, and_comm]
  refine and_congr_right fun _ => ⟨fun hp => ?_,fun hop => ?_⟩
  · obtain ⟨a,ha,hap⟩ := reaches_of_mem_closeUnder hp
    rwa [List.mem_singleton.mp ha] at hap
  · exact h.reaches (subset_closeUnder n o (List.mem_singleton_self o)) hop

def labelAbove (next : ι → List ι) (marked : ι → Bool) (key : ι → α) (d : α) (n : ℕ) (o : ι) : α :=
  ((markedAbove next marked n o).map key).minimum.untopD d

theorem leastOr_labelAbove {marked : ι → Bool} {key : ι → α} {n : ℕ} (h : ClosedUnder next (closeUnder next n [o])) :
    LeastOr d (keysAbove (fun a b => b ∈ next a) (fun p => marked p = true) key o)
      (labelAbove next marked key d n o) := by
  have hkeys : keysAbove (fun a b => b ∈ next a) (fun p => marked p = true) key o =
      {k | k ∈ (markedAbove next marked n o).map key} := by
    ext k
    constructor
    · rintro ⟨p,hp,hop,rfl⟩
      exact List.mem_map_of_mem ((mem_markedAbove h).mpr ⟨hp,hop⟩)
    · intro hk
      obtain ⟨p,hp,rfl⟩ := List.mem_map.mp hk
      obtain ⟨hp,hop⟩ := (mem_markedAbove h).mp hp
      exact ⟨p,hp,hop,rfl⟩
  rw [hkeys, labelAbove]
  cases hmin : ((markedAbove next marked n o).map key).minimum with
  | top =>
    right
    rw [List.minimum_eq_top] at hmin
    simp [hmin]
  | coe k =>
    left
    rw [List.minimum_eq_coe_iff] at hmin
    exact ⟨hmin.1,fun l hl => hmin.2 l hl⟩

end Closure
end AqsiosCoordinator.Foundation
