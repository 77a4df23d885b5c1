import AqsiosCoordinator.Foundation.ContinuousQuery
import Mathlib.Data.List.GetD
import Mathlib.Algebra.GroupWithZero.Nat

/-! # Products of time-varying bags

A factor of a product is a bag together with the number of columns that its rows
contribute. A product of several factors is a sequence of binary ones.
-/
namespace AqsiosCoordinator.Foundation
variable {α : Type}

/-- The first `n` columns of a row; `null` stands where it has fewer. -/
def fit (null : α) (n : ℕ) (r : Row α) : Row α := (List.range n).map fun k => r.getD k null

@[simp] theorem length_fit (null : α) (n : ℕ) (r : Row α) : (fit null n r).length = n := by simp [fit]

theorem fit_of_length {null : α} {n : ℕ} {r : Row α} (h : r.length = n) : fit null n r = r := by
  subst h
  apply List.ext_getElem
  · simp
  · intro k h1 h2
    simp [fit,List.getD_eq_getElem?_getD,h2]

theorem getD_fit {null : α} {n k : ℕ} {r : Row α} (h : k < n) : (fit null n r).getD k null = r.getD k null := by
  simp [fit,List.getD_eq_getElem?_getD,h]

/-- The rows made of a row of every factor, in the order of the factors. -/
def product (null : α) : List (ℕ × Multiset (Row α)) → Multiset (Row α)
  | [] => {[]}
  | (n,R) :: rest => R.bind fun r => (product null rest).map fun x => fit null n r ++ x

section Product
variable {null : α} {m n : ℕ} {L R : Multiset (Row α)} {rest : List (ℕ × Multiset (Row α))}

theorem product_pair : product null [(m,L), (n,R)] = L.bind fun l => R.map fun r => fit null m l ++ fit null n r := by
  simp only [product, Multiset.map_singleton, List.append_nil]
  refine Multiset.bind_congr fun l _ => ?_
  rw [Multiset.bind_singleton, Multiset.map_map]
  rfl

/-- The first two factors may be multiplied first. -/
theorem product_nest : product null ((m + n,product null [(m,L), (n,R)]) :: rest) =
    product null ((m,L) :: (n,R) :: rest) := by
  rw [product_pair]
  simp only [product]
  rw [Multiset.bind_assoc]
  refine Multiset.bind_congr fun l _ => ?_
  rw [Multiset.bind_map, Multiset.map_bind]
  refine Multiset.bind_congr fun r _ => ?_
  rw [Multiset.map_map]
  refine Multiset.map_congr rfl fun x _ => ?_
  rw [fit_of_length (by simp)]
  exact List.append_assoc ..

theorem mem_product_cons {x : Row α} : x ∈ product null ((n,R) :: rest) ↔
    ∃ r ∈ R, ∃ y ∈ product null rest, x = fit null n r ++ y := by
  simp only [product, Multiset.mem_bind, Multiset.mem_map, eq_comm]

/-- A condition on the columns of the left factor. -/
theorem filter_product_left {p q : Row α → Bool} (h : ∀ l r, q (fit null m l ++ fit null n r) = p l) :
    (product null [(m,L), (n,R)]).filter (fun x => q x = true) =
      product null [(m,L.filter fun l => p l = true), (n,R)] := by
  rw [product_pair, product_pair, Multiset.filter_bind, Multiset.bind_filter]
  refine Multiset.bind_congr fun l _ => ?_
  rw [Multiset.filter_map]
  cases hp : p l with
  | true =>
    have hall : R.filter ((fun x => q x = true) ∘ fun r => fit null m l ++ fit null n r) = R :=
      Multiset.filter_eq_self.mpr fun r _ => (h l r).trans hp
    rw [hall]
    simp
  | false =>
    have hnone : R.filter ((fun x => q x = true) ∘ fun r => fit null m l ++ fit null n r) = 0 :=
      Multiset.filter_eq_nil.mpr fun r _ => by simp [h,hp]
    rw [hnone]
    simp

theorem filter_product_right {p q : Row α → Bool} (h : ∀ l r, q (fit null m l ++ fit null n r) = p r) :
    (product null [(m,L), (n,R)]).filter (fun x => q x = true) =
      product null [(m,L), (n,R.filter fun r => p r = true)] := by
  rw [product_pair, product_pair, Multiset.filter_bind]
  refine Multiset.bind_congr fun l _ => ?_
  rw [Multiset.filter_map]
  congr 1
  exact Multiset.filter_congr fun r _ => by simp [h]

end Product

def moveFront (o m : ℕ) (r : Row α) : Row α := (r.drop o).take m ++ (r.take o ++ r.drop (o + m))

theorem moveFront_append {x y z : Row α} : moveFront x.length y.length (x ++ (y ++ z)) = y ++ (x ++ z) := by
  simp [moveFront,List.drop_append]

/-- A row of the length is in three parts. -/
theorem exists_three_parts {o m n : ℕ} {r : Row α} (h : r.length = o + (m + n)) :
    ∃ x y z, r = x ++ (y ++ z) ∧ x.length = o ∧ y.length = m ∧ z.length = n := by
  refine ⟨r.take o,(r.drop o).take m,(r.drop o).drop m,by simp,?_,?_,?_⟩
  · simp [h]
  · simp [h]
  · simp only [List.length_drop, h]
    omega

theorem moveFront_inj {o m n : ℕ} {r r' : Row α} (hr : r.length = o + (m + n)) (hr' : r'.length = o + (m + n))
    (h : moveFront o m r = moveFront o m r') : r = r' := by
  obtain ⟨x,y,z,rfl,rfl,rfl,rfl⟩ := exists_three_parts hr
  obtain ⟨x',y',z',rfl,hx,hy,hz⟩ := exists_three_parts hr'
  rw [moveFront_append, ← hx, ← hy, moveFront_append] at h
  obtain ⟨hfront,hrest⟩ := List.append_inj h hy.symm
  obtain ⟨hleft,hright⟩ := List.append_inj hrest hx.symm
  rw [hfront, hleft, hright]

section Reordered
variable {null : α} {n : ℕ} {R : Multiset (Row α)} {pre post : List (ℕ × Multiset (Row α))} {r : Row α}

theorem length_of_mem_product {factors : List (ℕ × Multiset (Row α))} (h : r ∈ product null factors) :
    r.length = (factors.map Prod.fst).sum := by
  induction factors generalizing r with
  | nil =>
    obtain rfl := Multiset.mem_singleton.mp h
    rfl
  | cons f factors ih =>
    obtain ⟨n,R⟩ := f
    obtain ⟨x,-,y,hy,rfl⟩ := mem_product_cons.mp h
    simp [ih hy]

theorem product_append : product null (pre ++ post) = (product null pre).bind fun x => (product null post).map fun y => x ++ y := by
  induction pre with
  | nil => simp [product]
  | cons f pre ih =>
    obtain ⟨n,R⟩ := f
    simp only [List.cons_append, product, ih, Multiset.bind_assoc]
    apply Multiset.bind_congr
    intro r _
    rw [Multiset.map_bind, Multiset.bind_map]
    apply Multiset.bind_congr
    intro x _
    rw [Multiset.map_map]
    apply Multiset.map_congr rfl
    intro y _
    exact (List.append_assoc ..).symm

/-- The product with one factor moved to the front has its columns moved to the front. -/
theorem product_moveFront : product null ((n,R) :: (pre ++ post)) =
    (product null (pre ++ (n,R) :: post)).map (moveFront (pre.map Prod.fst).sum n) := by
  rw [product_append, Multiset.map_bind]
  simp only [product, product_append, Multiset.map_bind, Multiset.map_map]
  rw [Multiset.bind_bind]
  apply Multiset.bind_congr
  intro x hx
  apply Multiset.bind_congr
  intro r _
  apply Multiset.map_congr rfl
  intro z _
  have h := moveFront_append (x := x) (y := fit null n r) (z := z)
  rw [length_of_mem_product hx, length_fit] at h
  exact h.symm

end Reordered

namespace TimeVarying

def cross (null : α) (factors : List (ℕ × TimeVarying α)) : TimeVarying α :=
  fun now => product null (factors.map fun f => (f.1,f.2 now))

section Cross
variable {null : α} {m n : ℕ} {L R : TimeVarying α} {p q : Row α → Bool}

theorem cross_nest {rest : List (ℕ × TimeVarying α)} :
    cross null ((m + n,cross null [(m,L), (n,R)]) :: rest) = cross null ((m,L) :: (n,R) :: rest) := by
  funext now
  exact product_nest

theorem filter_cross_left (h : ∀ l r, q (fit null m l ++ fit null n r) = p l) :
    (cross null [(m,L), (n,R)]).filter q = cross null [(m,L.filter p), (n,R)] := by
  funext now
  exact filter_product_left h

theorem filter_cross_right (h : ∀ l r, q (fit null m l ++ fit null n r) = p r) :
    (cross null [(m,L), (n,R)]).filter q = cross null [(m,L), (n,R.filter p)] := by
  funext now
  exact filter_product_right h

end Cross

variable [DecidableEq α]

theorem arrivals_accumulate (f : ℕ → Multiset (Row α)) : (accumulate f).arrivals = f := by
  funext now
  cases now with
  | zero => simp [arrivals,before,accumulate]
  | succ n => simp [arrivals,before,accumulate,Finset.sum_range_succ]

theorem arrivals_filter (p : Row α → Bool) (R : TimeVarying α) : (R.filter p).arrivals = R.arrivals.filter p := by
  funext now
  cases now with
  | zero => simp [arrivals,before,filter]
  | succ n => simp [arrivals,before,filter,Multiset.filter_sub]

/-- Each row of the first factor, a stream, with the rows that the others have when it comes. -/
def streamCross (null : α) : List (ℕ × TimeVarying α) → TimeVarying α
  | [] => fun _ => 0
  | (n,S) :: rest => accumulate fun i => product null ((n,S.arrivals i) :: rest.map fun f => (f.1,f.2 i))

variable {null : α} {m n : ℕ} {L R : TimeVarying α} {p q : Row α → Bool}

theorem streamCross_nest {rest : List (ℕ × TimeVarying α)} :
    streamCross null ((m + n,streamCross null [(m,L), (n,R)]) :: rest) = streamCross null ((m,L) :: (n,R) :: rest) := by
  simp only [streamCross, arrivals_accumulate]
  congr 1
  funext i
  exact product_nest

theorem filter_streamCross_left (h : ∀ l r, q (fit null m l ++ fit null n r) = p l) :
    (streamCross null [(m,L), (n,R)]).filter q = streamCross null [(m,L.filter p), (n,R)] := by
  simp only [streamCross, filter_accumulate, arrivals_filter]
  congr 1
  funext i
  exact filter_product_left h

theorem filter_streamCross_right (h : ∀ l r, q (fit null m l ++ fit null n r) = p r) :
    (streamCross null [(m,L), (n,R)]).filter q = streamCross null [(m,L), (n,R.filter p)] := by
  simp only [streamCross, filter_accumulate]
  congr 1
  funext i
  exact filter_product_right h

end TimeVarying
end AqsiosCoordinator.Foundation
