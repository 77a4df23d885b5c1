import AqsiosCoordinator.Metadata.OperatorPool
import AqsiosCoordinator.Metadata.PlanManager

/-! # The lists of used and free operators -/
namespace AqsiosCoordinator.Physical
open Common Foundation Foundation.Outcome

structure PoolInv (s : PlanState) : Prop where
  usedList : s.links.IsList none s.usedOps s.used
  freeList : s.links.IsList none s.freeOps s.free
  disjoint : ∀ o ∈ s.used, o ∉ s.free

variable {s t : PlanState} {op : OpId} {U F : List OpId}

def PlanState.pool (s : PlanState) : OpPool MAX_OPS := ⟨s.links,s.freeOps,s.usedOps⟩

theorem poolInv_iff : PoolInv s ↔ s.pool.Lists := ⟨fun h => ⟨h.1,h.2,h.3⟩,fun h => ⟨h.1,h.2,h.3⟩⟩

theorem used_eq (h : s.links.IsList none s.usedOps U) : s.used = U := OpPool.used_eq (p := s.pool) h

theorem free_eq (h : s.links.IsList none s.freeOps F) : s.free = F := OpPool.free_eq (p := s.pool) h

theorem PoolInv.of_lists (hu : s.links.IsList none s.usedOps U) (hf : s.links.IsList none s.freeOps F)
    (hd : ∀ o ∈ U, o ∉ F) : PoolInv s ∧ s.used = U ∧ s.free = F := by
  obtain ⟨h,hused,hfree⟩ := OpPool.Lists.of_lists (p := s.pool) hu hf hd
  exact ⟨poolInv_iff.mpr h,hused,hfree⟩

theorem PoolInv.nodup (h : PoolInv s) : s.used.Nodup := h.usedList.nodup

/-- The part of the state that the pool of operators is not in. -/
structure Tables where
  numBaseTables : ℕ
  numOutputs : ℕ
  sourceOps : List (ℕ × OpId)
  queryOutOps : List (ℕ × OpId)
  currentQueryClass : ℤ

def PlanState.tables (s : PlanState) : Tables :=
  ⟨s.numBaseTables,s.numOutputs,s.sourceOps,s.queryOutOps,s.currentQueryClass⟩

@[simp] theorem setOp_used (o : OpId) (x : Operator) : (s.setOp o x).used = s.used := rfl
@[simp] theorem setOp_free (o : OpId) (x : Operator) : (s.setOp o x).free = s.free := rfl
@[simp] theorem setOp_tables (o : OpId) (x : Operator) : (s.setOp o x).tables = s.tables := rfl
@[simp] theorem setOp_ops_self (o : OpId) (x : Operator) : (s.setOp o x).ops o = x := Function.update_self ..
theorem setOp_ops_of_ne {o p : OpId} (x : Operator) (h : p ≠ o) : (s.setOp o x).ops p = s.ops p :=
  Function.update_of_ne h ..

theorem PoolInv.setOp (h : PoolInv s) (o : OpId) (x : Operator) : PoolInv (s.setOp o x) := ⟨h.1,h.2,h.3⟩

structure NewOp (body : Body) (op : OpId) (s t : PlanState) : Prop where
  inv : PoolInv t
  used : t.used = op :: s.used
  free : s.free = op :: t.free
  self : t.ops op = { s.ops op with body := body, attrs := [], outputs := [], inputs := [] }
  other : ∀ o, o ≠ op → t.ops o = s.ops o
  tables : t.tables = s.tables

/-- A new operator comes from the pool. -/
theorem newOp_pool {body : Body} (h : newOp body s = .ok op t) : OpPool.newOp s.pool = .ok (some op) t.pool ∧
    t.ops = (s.setOp op { s.ops op with body := body, attrs := [], outputs := [], inputs := [] }).ops ∧ t.tables = s.tables := by
  simp only [newOp, bind_eq_ok, get_eq_ok] at h
  obtain ⟨_,_,⟨rfl,rfl⟩,h⟩ := h
  cases hfree : s.freeOps with
  | none => simp [hfree] at h
  | some a =>
    simp only [hfree] at h
    cases hnext : s.links.next a with
    | none => simp [hnext] at h
    | some rest =>
      simp only [hnext, bind_eq_ok, set_eq_ok, pure_eq_ok] at h
      obtain ⟨_,_,rfl,rfl,rfl⟩ := h
      have hfree' : s.pool.freeOps = some a := hfree
      have hnext' : s.pool.links.next a = some rest := hnext
      refine ⟨?_,rfl,rfl⟩
      unfold OpPool.newOp
      rw [bind_of_ok (get_apply _), hfree']
      simp only [hnext']
      rfl

theorem newOp_ok {body : Body} (hs : PoolInv s) (h : newOp body s = .ok op t) : NewOp body op s t := by
  obtain ⟨hpool,hops,htables⟩ := newOp_pool h
  obtain ⟨hlists,hused,hfree,-⟩ := OpPool.newOp_ok (poolInv_iff.mp hs) hpool
  refine ⟨poolInv_iff.mpr hlists,hused,hfree,?_,fun o ho => ?_,htables⟩
  · rw [hops, setOp_ops_self]
  · rw [hops, setOp_ops_of_ne _ ho]

theorem NewOp.not_mem {body : Body} (h : NewOp body op s t) (hs : PoolInv s) : op ∉ s.used :=
  fun hu => hs.disjoint op hu (h.free ▸ List.mem_cons_self)

theorem newOp_error {body : Body} {e : Failure} (h : newOp body s = .error e t) : t = s := by
  cases hfree : s.freeOps with
  | none =>
    simp only [newOp, bind, EStateM.bind, get_apply, hfree, throw_apply, EStateM.Result.error.injEq] at h
    exact h.2.symm
  | some a =>
    cases hnext : s.links.next a with
    | none =>
      simp only [newOp, bind, EStateM.bind, get_apply, hfree, hnext, throw_apply, EStateM.Result.error.injEq] at h
      exact h.2.symm
    | some rest =>
      simp [newOp, bind, EStateM.bind, get_apply, hfree, hnext, set_apply,
        pure, EStateM.pure] at h

theorem freeOp_pool (h : freeOp op s = .ok () t) : OpPool.freeOp op s.pool = .ok () t.pool := by
  simp only [freeOp, modify_eq_ok] at h
  subst h
  rfl

/-- What `freeOp` does to an operator in use. -/
theorem freeOp_used {U₁ U₂ : List OpId} (hs : PoolInv s) (hu : s.used = U₁ ++ op :: U₂)
    (h : freeOp op s = .ok () t) :
    PoolInv t ∧ t.used = U₁ ++ U₂ ∧ t.free = op :: s.free ∧ t.ops = s.ops ∧ t.tables = s.tables ∧
      s.links.next op = U₂.head? := by
  obtain ⟨hlists,hused,hfree⟩ := OpPool.freeOp_used (poolInv_iff.mp hs) hu (freeOp_pool h)
  have hlist := hs.usedList
  rw [hu] at hlist
  obtain rfl := modify_eq_ok.mp h
  exact ⟨poolInv_iff.mpr hlists,hused,hfree,rfl,rfl,hlist.next_eq⟩

/-- Initially no operator is in use and all are free. -/
theorem init_poolInv (mem : OpId → Operator) :
    PoolInv (PlanState.init mem) ∧ (PlanState.init mem).used = [] ∧
      (PlanState.init mem).free = List.finRange MAX_OPS := by
  obtain ⟨h,hused,hfree⟩ := OpPool.initOps_partitioned maxOps_pos
  exact ⟨poolInv_iff.mpr h.lists,hused,hfree⟩

end AqsiosCoordinator.Physical
