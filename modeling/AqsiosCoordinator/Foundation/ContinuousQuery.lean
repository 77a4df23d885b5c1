import Mathlib.Data.Multiset.Filter
import Mathlib.Data.Multiset.Bind
import Mathlib.Data.Multiset.AddSub
import Mathlib.Data.Multiset.Dedup
import Mathlib.Algebra.BigOperators.Group.Finset.Basic

/-! # Continuous queries over time-varying bags

Time is discrete. A relation is a bag of rows at every instant, and a stream is the
bag of the rows that have arrived so far.
-/
namespace AqsiosCoordinator.Foundation

abbrev Row (α : Type) := List α

abbrev TimeVarying (α : Type) := ℕ → Multiset (Row α)

namespace TimeVarying
variable {α : Type}

def before (R : TimeVarying α) : TimeVarying α
  | 0 => 0
  | i+1 => R i

def accumulate (f : ℕ → Multiset (Row α)) : TimeVarying α := fun now => ∑ i ∈ Finset.range (now + 1), f i

def filter (p : Row α → Bool) (R : TimeVarying α) : TimeVarying α := fun now => (R now).filter (fun r => p r = true)

theorem filter_filter (p q : Row α → Bool) (R : TimeVarying α) : (R.filter q).filter p = R.filter (fun r => p r && q r) := by
  funext now
  simp only [filter, Multiset.filter_filter, Bool.and_eq_true]

def map (f : Row α → Row α) (R : TimeVarying α) : TimeVarying α := fun now => (R now).map f

def pairs (p : Row α → Row α → Bool) (f : Row α → Row α → Row α) (L R : Multiset (Row α)) : Multiset (Row α) :=
  L.bind fun l => (R.filter (fun r => p l r = true)).map (f l)

def join (p : Row α → Row α → Bool) (f : Row α → Row α → Row α) (L R : TimeVarying α) : TimeVarying α :=
  fun now => pairs p f (L now) (R now)

theorem filter_pairs (q : Row α → Bool) (p : Row α → Row α → Bool) (f : Row α → Row α → Row α) (L R : Multiset (Row α)) :
    (pairs p f L R).filter (fun r => q r = true) = pairs (fun l r => p l r && q (f l r)) f L R := by
  unfold pairs
  rw [Multiset.filter_bind]
  refine Multiset.bind_congr fun l _ => ?_
  rw [Multiset.filter_map, Multiset.filter_filter]
  congr 1
  refine Multiset.filter_congr fun r _ => ?_
  simp [and_comm]

theorem map_pairs (g : Row α → Row α) (p : Row α → Row α → Bool) (f : Row α → Row α → Row α) (L R : Multiset (Row α)) :
    (pairs p f L R).map g = pairs p (fun l r => g (f l r)) L R := by
  unfold pairs
  rw [Multiset.map_bind]
  refine Multiset.bind_congr fun l _ => ?_
  rw [Multiset.map_map]
  rfl

/-- A filter above a join is part of its condition. -/
theorem filter_join (q : Row α → Bool) (p : Row α → Row α → Bool) (f : Row α → Row α → Row α) (L R : TimeVarying α) :
    (join p f L R).filter q = join (fun l r => p l r && q (f l r)) f L R := by
  funext now
  exact filter_pairs q p f (L now) (R now)

theorem map_join (g : Row α → Row α) (p : Row α → Row α → Bool) (f : Row α → Row α → Row α) (L R : TimeVarying α) :
    (join p f L R).map g = join p (fun l r => g (f l r)) L R := by
  funext now
  exact map_pairs g p f (L now) (R now)

theorem filter_accumulate (q : Row α → Bool) (f : ℕ → Multiset (Row α)) :
    (accumulate f).filter q = accumulate fun i => (f i).filter (fun r => q r = true) := by
  funext now
  induction now with
  | zero => simp [accumulate,filter]
  | succ n ih =>
    simp only [accumulate, filter] at ih ⊢
    rw [Finset.sum_range_succ, Multiset.filter_add, ih, ← Finset.sum_range_succ]

theorem map_accumulate (g : Row α → Row α) (f : ℕ → Multiset (Row α)) :
    (accumulate f).map g = accumulate fun i => (f i).map g := by
  funext now
  induction now with
  | zero => simp [accumulate,map]
  | succ n ih =>
    simp only [accumulate, map] at ih ⊢
    rw [Finset.sum_range_succ, Multiset.map_add, ih, ← Finset.sum_range_succ]

def union (L R : TimeVarying α) : TimeVarying α := fun now => L now + R now

def lastRows [DecidableEq α] (n : ℕ) (key : Row α → Row α) : List (Row α) → List (Row α)
  | [] => []
  | r :: rs =>
    if (rs.filter (fun x => key x = key r)).length < n then r :: lastRows n key rs else lastRows n key rs

variable [DecidableEq α]

def arrivals (R : TimeVarying α) : TimeVarying α := fun now => R now - R.before now

def removals (R : TimeVarying α) : TimeVarying α := fun now => R.before now - R now

def istream (R : TimeVarying α) : TimeVarying α := accumulate R.arrivals
def dstream (R : TimeVarying α) : TimeVarying α := accumulate R.removals
def rstream (R : TimeVarying α) : TimeVarying α := accumulate R

def rangeWindow (n : ℕ) (S : TimeVarying α) : TimeVarying α :=
  fun now => ∑ i ∈ (Finset.range (now + 1)).filter (fun i => now < i + n), S.arrivals i

/-- The last `n` rows of each partition; `order` is the order of rows of the same instant. -/
def partitionWindow (order : Multiset (Row α) → List (Row α)) (n : ℕ) (key : Row α → Row α) (S : TimeVarying α) :
    TimeVarying α :=
  fun now => (lastRows n key ((List.range (now + 1)).flatMap fun i => order (S.arrivals i)) : List (Row α))

/-- Each row of the stream is joined with the relation as it is when the row comes. -/
def streamJoin (p : Row α → Row α → Bool) (f : Row α → Row α → Row α) (S R : TimeVarying α) : TimeVarying α :=
  accumulate fun i => pairs p f (S.arrivals i) (R i)

theorem filter_streamJoin (q : Row α → Bool) (p : Row α → Row α → Bool) (f : Row α → Row α → Row α)
    (S R : TimeVarying α) : (streamJoin p f S R).filter q = streamJoin (fun l r => p l r && q (f l r)) f S R := by
  unfold streamJoin
  rw [filter_accumulate]
  simp only [filter_pairs]

theorem map_streamJoin (g : Row α → Row α) (p : Row α → Row α → Bool) (f : Row α → Row α → Row α)
    (S R : TimeVarying α) : (streamJoin p f S R).map g = streamJoin p (fun l r => g (f l r)) S R := by
  unfold streamJoin
  rw [map_accumulate]
  simp only [map_pairs]

def distinct (R : TimeVarying α) : TimeVarying α := fun now => (R now).dedup

def except (L R : TimeVarying α) : TimeVarying α := fun now => L now - R now

/-- One row for each key, and one row for all when nothing is grouped. -/
def group (grouped : Bool) (key aggregates : Row α → Row α) (values : Multiset (Row α) → Row α) (R : TimeVarying α) :
    TimeVarying α := fun now =>
  if grouped then ((R now).map key).dedup.map fun k => k ++ values (((R now).filter (fun r => key r = k)).map aggregates)
  else {values ((R now).map aggregates)}

end TimeVarying
end AqsiosCoordinator.Foundation
