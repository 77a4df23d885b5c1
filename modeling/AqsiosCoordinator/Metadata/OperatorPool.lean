import AqsiosCoordinator.Common.Types
import AqsiosCoordinator.Foundation.LinkedList
import AqsiosCoordinator.Foundation.Outcome
import Mathlib.Data.Fintype.Card

/-! # The pool of operators

The pool of the plan manager, for any number of operators, as the two intrusive lists of used
and of free operators.
-/
namespace AqsiosCoordinator.Physical
open Common Foundation Foundation.Outcome

structure OpPool (n : ℕ) where
  links : Links (Fin n)
  freeOps : Option (Fin n)
  usedOps : Option (Fin n)

namespace OpPool
variable {n : ℕ}

def used (p : OpPool n) : List (Fin n) := p.links.walk n p.usedOps
def free (p : OpPool n) : List (Fin n) := p.links.walk n p.freeOps

def initOps (hn : 0 < n) : OpPool n where
  links := {
    next := fun o => if h : o.val + 1 < n then some ⟨o.val + 1,h⟩ else none
    prev := fun o => if o.val = 0 then none else some ⟨o.val - 1,by omega⟩ }
  freeOps := some ⟨0,hn⟩
  usedOps := none

/-- `new_op`, as far as the lists are concerned; without a free operator it returns null. -/
def newOp : EStateM Failure (OpPool n) (Option (Fin n)) := do
  let p ← get
  match p.freeOps with
  | none => return none
  | some op =>
    match p.links.next op with
    -- `freeOps -> prev = 0` with the new `freeOps`
    | none => throw .nullDeref
    | some rest =>
      let links := p.links.setPrev rest none
      let links := links.setNext op p.usedOps
      let links := links.setPrevAt p.usedOps (some op)
      set (⟨links,some rest,some op⟩ : OpPool n)
      return some op

def freeOp (op : Fin n) : EStateM Failure (OpPool n) Unit :=
  modify fun p =>
    let usedOps := if p.links.prev op = none then p.links.next op else p.usedOps
    let links := p.links.setNextAt (p.links.prev op) (p.links.next op)
    let links := links.setPrevAt (p.links.next op) (p.links.prev op)
    let links := links.setNext op p.freeOps
    let links := links.setPrev op none
    let links := links.setPrevAt p.freeOps (some op)
    ⟨links,some op,usedOps⟩

/-- The links form two lists that every operator is on exactly one of. -/
structure Partitioned (p : OpPool n) : Prop where
  usedList : p.links.IsList none p.usedOps p.used
  freeList : p.links.IsList none p.freeOps p.free
  disjoint : ∀ o ∈ p.used, o ∉ p.free
  covers : ∀ o, o ∈ p.used ∨ o ∈ p.free

variable {p q : OpPool n} {U F : List (Fin n)} {op : Fin n}

theorem length_le {l : List (Fin n)} (h : l.Nodup) : l.length ≤ n := by
  simpa using h.length_le_card

theorem used_eq (h : p.links.IsList none p.usedOps U) : p.used = U := h.walk_eq (length_le h.nodup)

theorem free_eq (h : p.links.IsList none p.freeOps F) : p.free = F := h.walk_eq (length_le h.nodup)

structure Lists (p : OpPool n) : Prop where
  usedList : p.links.IsList none p.usedOps p.used
  freeList : p.links.IsList none p.freeOps p.free
  disjoint : ∀ o ∈ p.used, o ∉ p.free

theorem Lists.of_lists (hu : p.links.IsList none p.usedOps U) (hf : p.links.IsList none p.freeOps F)
    (hd : ∀ o ∈ U, o ∉ F) : Lists p ∧ p.used = U ∧ p.free = F := by
  have h1 := used_eq hu
  have h2 := free_eq hf
  refine ⟨⟨?_,?_,?_⟩,h1,h2⟩
  · rwa [h1]
  · rwa [h2]
  · rwa [h1, h2]

theorem Partitioned.lists (h : p.Partitioned) : p.Lists := ⟨h.usedList,h.freeList,h.disjoint⟩

theorem Lists.partitioned (h : p.Lists) (hc : ∀ o, o ∈ p.used ∨ o ∈ p.free) : p.Partitioned :=
  ⟨h.usedList,h.freeList,h.disjoint,hc⟩

theorem initOps_isList (hn : 0 < n) (m k : ℕ) (hk : k + m = n) :
    (initOps hn).links.IsList (if h : 0 < k then some ⟨k - 1,by omega⟩ else none)
      (if h : k < n then some ⟨k,h⟩ else none) ((List.finRange n).drop k) := by
  induction m generalizing k with
  | zero =>
    have hk' : ¬ k < n := by omega
    rw [dif_neg hk', List.drop_eq_nil_of_le (by simp; omega)]
    rfl
  | succ m ih =>
    have hk' : k < n := by omega
    have hrest := ih (k + 1) (by omega)
    rw [dif_pos (Nat.succ_pos k)] at hrest
    rw [dif_pos hk', List.drop_eq_getElem_cons (by simpa using hk')]
    simp only [List.getElem_finRange, Fin.cast_mk]
    refine ⟨rfl,?_,?_⟩
    · by_cases h0 : k = 0
      · subst h0
        rfl
      · simp [initOps,h0,Nat.pos_of_ne_zero h0]
    · simpa [initOps] using hrest

theorem initOps_partitioned (hn : 0 < n) :
    (initOps hn).Partitioned ∧ (initOps hn).used = [] ∧ (initOps hn).free = List.finRange n := by
  have hfree := initOps_isList hn n 0 (Nat.zero_add _)
  rw [dif_neg (Nat.lt_irrefl 0), dif_pos hn, List.drop_zero] at hfree
  obtain ⟨hlists,hused,hall⟩ := Lists.of_lists (p := initOps hn) (U := []) rfl hfree (by simp)
  refine ⟨hlists.partitioned fun o => .inr ?_,hused,hall⟩
  rw [hall]
  exact List.mem_finRange o

/-- What `newOp` does, by the number of free operators. -/
theorem newOp_none (h : p.Partitioned) (hfree : p.free = []) : newOp p = .ok none p := by
  have hnone : p.freeOps = none := by
    rw [h.freeList.head_eq, hfree]
    rfl
  unfold newOp
  rw [bind_of_ok (get_apply p), hnone]
  rfl

theorem newOp_last (h : p.Partitioned) (hfree : p.free = [op]) : newOp p = .error .nullDeref p := by
  have hlist := h.freeList
  rw [hfree] at hlist
  obtain ⟨hhead,-,hnext⟩ := hlist
  unfold newOp
  rw [bind_of_ok (get_apply p), hhead]
  simp only [hnext.head_eq]
  rfl

theorem newOp_ok (h : p.Lists) (hnew : newOp p = .ok (some op) q) :
    q.Lists ∧ q.used = op :: p.used ∧ p.free = op :: q.free ∧ q.usedOps = some op := by
  unfold newOp at hnew
  rw [bind_of_ok (get_apply p)] at hnew
  cases hhead : p.freeOps with
  | none =>
    rw [hhead] at hnew
    cases hnew
  | some a =>
    rw [hhead] at hnew
    cases hnext : p.links.next a with
    | none =>
      simp only [hnext] at hnew
      cases hnew
    | some rest =>
      simp only [hnext] at hnew
      obtain ⟨_,_,hset,hnew⟩ := bind_eq_ok.mp hnew
      obtain rfl := set_eq_ok.mp hset
      obtain ⟨heq,rfl⟩ := pure_eq_ok.mp hnew
      obtain rfl : a = op := Option.some.inj heq
      have hlist := h.freeList
      rw [hhead] at hlist
      cases hfree : p.free with
      | nil =>
        rw [hfree] at hlist
        cases hlist
      | cons b F =>
        rw [hfree] at hlist
        obtain rfl : a = b := Option.some.inj hlist.1
        have hd : ∀ o ∈ p.used, o ∉ a :: F := fun o ho => hfree ▸ h.disjoint o ho
        obtain ⟨hpush,hpop⟩ := Links.IsList.moveFirst hlist h.usedList hd hnext
        have hdis : ∀ o ∈ a :: p.used, o ∉ F := by
          intro o ho hF
          rcases List.mem_cons.mp ho with rfl | ho
          · exact (List.nodup_cons.mp hlist.nodup).1 hF
          · exact hd o ho (List.mem_cons_of_mem _ hF)
        obtain ⟨h1,h2,h3⟩ := Lists.of_lists
          (p := ⟨((p.links.setPrev rest none).setNext a p.usedOps).setPrevAt p.usedOps (some a),some rest,some a⟩)
          hpush hpop hdis
        exact ⟨h1,h2,by rw [h3],rfl⟩

theorem newOp_some {rest : Fin n} (h : p.Partitioned) (hfree : p.free = op :: rest :: F) :
    ∃ q, newOp p = .ok (some op) q ∧ q.Partitioned ∧ q.used = op :: p.used ∧ q.free = rest :: F ∧ q.usedOps = some op := by
  have hlist := h.freeList
  rw [hfree] at hlist
  have hnew : ∃ q, newOp p = .ok (some op) q := by
    unfold newOp
    rw [bind_of_ok (get_apply p), hlist.1]
    simp only [hlist.2.2.head_eq]
    exact ⟨_,rfl⟩
  obtain ⟨q,hnew⟩ := hnew
  obtain ⟨hq,hused,hrest,hhead⟩ := newOp_ok h.lists hnew
  refine ⟨q,hnew,hq.partitioned fun o => ?_,hused,?_,hhead⟩
  · rw [hused]
    obtain hu | hf := h.covers o
    · exact .inl (List.mem_cons_of_mem _ hu)
    · rw [hrest] at hf
      rcases List.mem_cons.mp hf with rfl | hf
      · exact .inl List.mem_cons_self
      · exact .inr hf
  · exact (List.cons.inj (hrest.symm.trans hfree)).2

theorem freeOp_used {U₁ U₂ : List (Fin n)} (h : p.Lists) (hu : p.used = U₁ ++ op :: U₂) (hrelease : freeOp op p = .ok () q) :
    q.Lists ∧ q.used = U₁ ++ U₂ ∧ q.free = op :: p.free := by
  obtain rfl := modify_eq_ok.mp hrelease
  have hlist := h.usedList
  rw [hu] at hlist
  have hd : ∀ o ∈ U₁ ++ op :: U₂, o ∉ p.free := fun o ho => h.disjoint o (hu ▸ ho)
  obtain ⟨hused,hfreed⟩ := hlist.moveCell h.freeList hd
  have hdis : ∀ o ∈ U₁ ++ U₂, o ∉ op :: p.free := by
    intro o ho hof
    rcases List.mem_cons.mp hof with rfl | hof
    · have hnd := hlist.nodup
      rw [List.nodup_middle, List.nodup_cons] at hnd
      exact hnd.1 ho
    · apply hd o _ hof
      rcases List.mem_append.mp ho with h1 | h1 <;> simp [h1]
  exact Lists.of_lists (p := ⟨(((p.links.bypass op).setNext op p.freeOps).setPrev op none).setPrevAt p.freeOps (some op),
    some op,if p.links.prev op = none then p.links.next op else p.usedOps⟩) hused hfreed hdis

/-- `new_op` returns an operator that was free, which is the head of the used ones now, or null if all
operators are in use; the lists stay in order. -/
def NewCorrect (p : OpPool n) : Prop :=
  ∃ r q, newOp p = .ok r q ∧ q.Partitioned ∧ (r = none ↔ ∀ o, o ∈ p.used) ∧
    ∀ op ∈ r, op ∈ p.free ∧ q.usedOps = some op ∧ q.used = op :: p.used

/-- `free_op` takes the operator from the used ones to the free ones; the lists stay in order. -/
def FreeCorrect (op : Fin n) (p : OpPool n) : Prop :=
  ∃ q, freeOp op p = .ok () q ∧ q.Partitioned ∧ q.used = p.used.erase op ∧ q.free = op :: p.free

/-- The states after `init_ops` and calls that release operators in use, and that take a new
operator unless there is exactly one left. -/
inductive Reached (hn : 0 < n) : OpPool n → Prop where
  | init : Reached hn (initOps hn)
  | new {p q : OpPool n} {r : Option (Fin n)} (h : Reached hn p) (hfree : p.free.length ≠ 1) (hnew : newOp p = .ok r q) :
      Reached hn q
  | free {p q : OpPool n} {op : Fin n} (h : Reached hn p) (hused : op ∈ p.used) (hrelease : freeOp op p = .ok () q) :
      Reached hn q

/-- Everything is in use exactly if nothing is free. -/
theorem Partitioned.free_eq_nil_iff (h : p.Partitioned) : p.free = [] ↔ ∀ o, o ∈ p.used := by
  constructor
  · intro hnil o
    obtain hu | hf := h.covers o
    · exact hu
    · rw [hnil] at hf
      cases hf
  · intro hall
    apply List.eq_nil_iff_forall_not_mem.mpr
    exact fun o => h.disjoint o (hall o)

/-- A call of `new_op` is correct unless exactly one operator is free. -/
theorem Partitioned.newCorrect_iff (h : p.Partitioned) : p.NewCorrect ↔ p.free.length ≠ 1 := by
  constructor
  · rintro ⟨r,q,hnew,-⟩ hone
    obtain ⟨op,hfree⟩ := List.length_eq_one_iff.mp hone
    rw [newOp_last h hfree] at hnew
    cases hnew
  · intro hone
    cases hfree : p.free with
    | nil =>
      refine ⟨none,p,newOp_none h hfree,h,?_,?_⟩
      · exact iff_of_true rfl (h.free_eq_nil_iff.mp hfree)
      · intro op hop
        cases hop
    | cons op F =>
      cases F with
      | nil =>
        rw [hfree] at hone
        exact absurd rfl hone
      | cons rest F =>
        obtain ⟨q,hnew,hq,hused,-,hhead⟩ := newOp_some h hfree
        refine ⟨some op,q,hnew,hq,?_,?_⟩
        · apply iff_of_false (by simp)
          intro hall
          have := h.free_eq_nil_iff.mpr hall
          rw [hfree] at this
          cases this
        · intro o ho
          obtain rfl := Option.mem_some_iff.mp ho
          exact ⟨hfree ▸ List.mem_cons_self,hhead,hused⟩

theorem Partitioned.freeCorrect (h : p.Partitioned) (hop : op ∈ p.used) : p.FreeCorrect op := by
  obtain ⟨U₁,U₂,hu⟩ := List.append_of_mem hop
  obtain ⟨hq,hused,hfree⟩ := freeOp_used h.lists hu rfl
  refine ⟨_,rfl,hq.partitioned fun o => ?_,?_,hfree⟩
  · rw [hused, hfree]
    have hc := h.covers o
    rw [hu] at hc
    simp only [List.mem_append, List.mem_cons] at hc ⊢
    tauto
  have hnd := h.usedList.nodup
  rw [hu, List.nodup_middle, List.nodup_cons, List.mem_append, not_or] at hnd
  rw [hused, hu, List.erase_append_right _ hnd.1.1, List.erase_cons_head]

theorem Reached.partitioned {hn : 0 < n} (h : Reached hn p) : p.Partitioned := by
  induction h with
  | init => exact (initOps_partitioned hn).1
  | @new p q r h hfree hnew ih =>
    obtain ⟨r',q',hnew',hq,-⟩ := ih.newCorrect_iff.mpr hfree
    rw [hnew] at hnew'
    cases hnew'
    exact hq
  | @free p q op h hused hrelease ih =>
    obtain ⟨q',hrelease',hq,-⟩ := ih.freeCorrect hused
    rw [hrelease] at hrelease'
    cases hrelease'
    exact hq

/-- In every state that is reached without taking the last free operator the lists partition the pool,
every release is correct, and a call for a new operator is correct unless it takes the last one. -/
theorem reached_correct {hn : 0 < n} (h : Reached hn p) :
    p.Partitioned ∧ (∀ op ∈ p.used, p.FreeCorrect op) ∧ (p.NewCorrect ↔ p.free.length ≠ 1) :=
  ⟨h.partitioned,fun _ hop => h.partitioned.freeCorrect hop,h.partitioned.newCorrect_iff⟩

/-- The pool of two operators after one of them has been taken. -/
theorem pair_correct : ∃ r q, newOp (initOps Nat.two_pos) = .ok r q ∧ q.Partitioned ∧ (∀ op ∈ q.used, q.FreeCorrect op) ∧
    (q.NewCorrect ↔ q.free.length ≠ 1) := by
  have hfree : (initOps Nat.two_pos).free.length ≠ 1 := by decide
  obtain ⟨r,q,hnew,-⟩ := (initOps_partitioned Nat.two_pos).1.newCorrect_iff.mpr hfree
  exact ⟨r,q,hnew,reached_correct (.new .init hfree hnew)⟩

/-- The only operator of a pool cannot be taken. -/
theorem single_notCorrect : ¬ (initOps Nat.one_pos).NewCorrect := by
  rintro ⟨r,q,hnew,-⟩
  cases hnew

end OpPool
end AqsiosCoordinator.Physical
