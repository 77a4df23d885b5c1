import Mathlib.Data.List.TakeWhile
import Mathlib.Order.Monotone.Basic

/-! # Queues of items that become due

Each item of a queue has a time stamp. A request takes the first item if its time has come; items to
be skipped are dropped, one at a request. When requests are made at times that never decrease, what is
taken in the end does not depend on the items that are skipped.
-/
namespace AqsiosCoordinator.Foundation.TimedQueue
variable {α : Type} (skip : α → Bool) (stamp : α → ℕ) (times : ℕ → ℕ)

def next (now : ℕ) : List α → Option α × List α
  | [] => (none,[])
  | x :: xs =>
    if skip x then (none,xs)
    else if stamp x ≤ now then (some x,xs)
    else (none,x :: xs)

/-- What the first `n` requests take, with the times, and the queue behind them. -/
def run (queue : List α) : ℕ → List (α × ℕ) × List α
  | 0 => ([],queue)
  | n+1 =>
    let r := run queue n
    let s := next skip stamp (times n) r.2
    (r.1 ++ (s.1.map fun x => (x,times n)).toList,s.2)

def items (queue : List α) : List α := queue.filter fun x => !skip x

def Due (x : α) : Prop := ∃ k, stamp x ≤ times k

open Classical in
noncomputable def dueFront (queue : List α) : List α := (items skip queue).takeWhile fun x => decide (Due stamp times x)

variable {skip : α → Bool} {stamp : α → ℕ} {times : ℕ → ℕ} {queue : List α}

theorem items_append (xs ys : List α) : items skip (xs ++ ys) = items skip xs ++ items skip ys := List.filter_append xs ys

theorem items_items (xs : List α) : items skip (items skip xs) = items skip xs := by
  unfold items
  rw [List.filter_filter]
  simp only [Bool.and_self]

theorem dueFront_items (xs : List α) : dueFront skip stamp times (items skip xs) = dueFront skip stamp times xs := by
  rw [dueFront, items_items, dueFront]

/-- An item that is not skipped, found in the queue. -/
theorem items_split {xs before behind : List α} {x : α} (h : items skip xs = before ++ x :: behind) :
    ∃ front rest, xs = front ++ x :: rest ∧ items skip front = before := by
  obtain ⟨front,tail,rfl,hfront,htail⟩ := List.filter_eq_append_iff.mp h
  obtain ⟨skipped,rest,rfl,hskipped,-,-⟩ := List.filter_eq_cons_iff.mp htail
  refine ⟨front ++ skipped,rest,(List.append_assoc ..).symm,?_⟩
  have hnone : items skip skipped = [] := List.filter_eq_nil_iff.mpr hskipped
  rw [items_append, hnone, List.append_nil]
  exact hfront

/-- One request. -/
theorem next_split (now : ℕ) (queue : List α) : ∃ taken, queue = taken ++ (next skip stamp now queue).2 ∧
    (next skip stamp now queue).1.toList = items skip taken ∧ ∀ x ∈ items skip taken, stamp x ≤ now := by
  cases queue with
  | nil => exact ⟨[],rfl,rfl,by simp [items]⟩
  | cons x xs =>
    by_cases hs : skip x = true
    · refine ⟨[x],?_,?_,?_⟩
      · simp [next,hs]
      · simp [next,hs,items]
      · simp [items,hs]
    · by_cases ht : stamp x ≤ now
      · refine ⟨[x],?_,?_,?_⟩
        · simp [next,hs,ht]
        · simp [next,hs,ht,items]
        · simp [items,hs,ht]
      · refine ⟨[],?_,?_,?_⟩
        · simp [next,hs,ht]
        · simp [next,hs,ht,items]
        · simp [items]

/-- What has been taken, and what has not, make up the queue. -/
theorem run_split (queue : List α) (n : ℕ) : ∃ taken, queue = taken ++ (run skip stamp times queue n).2 ∧
    (run skip stamp times queue n).1.map Prod.fst = items skip taken ∧ ∀ x ∈ items skip taken, Due stamp times x := by
  induction n with
  | zero => exact ⟨[],rfl,rfl,by simp [items]⟩
  | succ n ih =>
    obtain ⟨taken,hqueue,hmap,hdue⟩ := ih
    obtain ⟨more,hrest,hmore,hstamp⟩ := @next_split _ skip stamp (times n) (run skip stamp times queue n).2
    refine ⟨taken ++ more,?_,?_,?_⟩
    · rw [List.append_assoc]
      exact hqueue.trans (congrArg _ hrest)
    · rw [items_append, ← hmore, ← hmap, run, List.map_append]
      cases (next skip stamp (times n) (run skip stamp times queue n).2).1 <;> rfl
    · rw [items_append]
      intro x hx
      rcases List.mem_append.mp hx with hx | hx
      · exact hdue x hx
      · exact ⟨n,hstamp x hx⟩

/-- Nothing is taken before its time. -/
theorem run_stamps (queue : List α) (n : ℕ) : ∀ d ∈ (run skip stamp times queue n).1, stamp d.1 ≤ d.2 := by
  induction n with
  | zero =>
    intro d hd
    cases hd
  | succ n ih =>
    intro d hd
    rw [run] at hd
    rcases List.mem_append.mp hd with hd | hd
    · exact ih d hd
    · obtain ⟨more,-,hmore,hstamp⟩ := @next_split _ skip stamp (times n) (run skip stamp times queue n).2
      obtain ⟨x,hx,rfl⟩ := Option.map_eq_some_iff.mp (Option.mem_toList.mp hd)
      apply hstamp x
      rw [← hmore]
      exact Option.mem_toList.mpr hx

open Classical in
theorem run_dueFront (queue : List α) (n : ℕ) :
    (run skip stamp times queue n).1.map Prod.fst <+: dueFront skip stamp times queue := by
  obtain ⟨taken,hqueue,hmap,hdue⟩ := @run_split _ skip stamp times queue n
  rw [hmap, dueFront]
  conv =>
    rhs
    rw [hqueue]
  rw [items_append, List.takeWhile_append_of_pos (fun x hx => decide_eq_true (hdue x hx))]
  exact List.prefix_append _ _

section Monotone
variable (hmono : Monotone times)
include hmono

/-- An item whose time comes is taken, once it is the first. -/
theorem run_takes {n : ℕ} {x : α} {xs : List α} (h : (run skip stamp times queue n).2 = x :: xs) (hx : skip x = false) {k : ℕ}
    (hk : stamp x ≤ times k) : ∃ m, (run skip stamp times queue m).2 = xs ∧
      (run skip stamp times queue m).1.map Prod.fst = (run skip stamp times queue n).1.map Prod.fst ++ [x] := by
  induction hd : k - n generalizing n with
  | zero =>
    have hnow : stamp x ≤ times n := hk.trans (hmono (Nat.le_of_sub_eq_zero hd))
    refine ⟨n + 1,?_,?_⟩
    · simp [run,next,h,hx,hnow]
    · simp [run,next,h,hx,hnow]
  | succ d ih =>
    by_cases hnow : stamp x ≤ times n
    · refine ⟨n + 1,?_,?_⟩
      · simp [run,next,h,hx,hnow]
      · simp [run,next,h,hx,hnow]
    · have hwait : (run skip stamp times queue (n + 1)).2 = x :: xs := by simp [run,next,h,hx,hnow]
      have hsame : (run skip stamp times queue (n + 1)).1 = (run skip stamp times queue n).1 := by simp [run,next,h,hx,hnow]
      rw [← hsame]
      exact ih hwait (by omega)

/-- In the end all items in front of the first one whose time never comes have been taken. -/
theorem run_reaches (queue : List α) : ∃ n, (run skip stamp times queue n).1.map Prod.fst = dueFront skip stamp times queue := by
  have hrest : ∀ (rest : List α) (n : ℕ), (run skip stamp times queue n).2 = rest → ∃ m,
      (run skip stamp times queue m).1.map Prod.fst = (run skip stamp times queue n).1.map Prod.fst ++ dueFront skip stamp times rest := by
    intro rest
    induction rest with
    | nil =>
      intro n h
      exact ⟨n,(List.append_nil _).symm⟩
    | cons x xs ih =>
      intro n h
      by_cases hs : skip x = true
      · have hnext : (run skip stamp times queue (n + 1)).2 = xs := by simp [run,next,h,hs]
        obtain ⟨m,hm⟩ := ih (n + 1) hnext
        use m
        simpa [run,next,h,hs,dueFront,items] using hm
      · rw [Bool.not_eq_true] at hs
        by_cases hdue : Due stamp times x
        · obtain ⟨k,hk⟩ := hdue
          obtain ⟨m,hm,htaken⟩ := run_takes hmono h hs hk
          obtain ⟨m',hm'⟩ := ih m hm
          have hx : Due stamp times x := ⟨k,hk⟩
          use m'
          rw [hm', htaken]
          simp [dueFront,items,hs,hx]
        · use n
          simp [dueFront,items,hs,hdue]
  obtain ⟨m,hm⟩ := hrest queue 0 rfl
  exact ⟨m,hm⟩

end Monotone

open Classical in
/-- Behind an item whose time never comes the queue does not matter. -/
theorem dueFront_append {xs : List α} (h : ∃ x ∈ items skip xs, ¬ Due stamp times x) (ys : List α) :
    dueFront skip stamp times (xs ++ ys) = dueFront skip stamp times xs := by
  obtain ⟨x,hx,hdue⟩ := h
  have hlt : ((items skip xs).takeWhile fun x => decide (Due stamp times x)).length ≠ (items skip xs).length := by
    intro hlen
    have hall := List.IsPrefix.eq_of_length (List.takeWhile_prefix _) hlen
    rw [← hall] at hx
    exact hdue (of_decide_eq_true (List.mem_takeWhile_imp (p := fun x => decide (Due stamp times x)) hx))
  rw [dueFront, items_append, List.takeWhile_append, if_neg hlt, dueFront]

end AqsiosCoordinator.Foundation.TimedQueue
