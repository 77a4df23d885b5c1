import AqsiosCoordinator.Metadata.SharedClasses
import AqsiosCoordinator.Metadata.SharingRuns
import AqsiosCoordinator.Metadata.ProjectMeaning

/-! # Finding shared operators keeps what a plan computes

Operators are shared when they do the same with inputs that compute the same, up to the
declared types of expressions. Whoever read from one of them finds the same in the other.
-/
namespace AqsiosCoordinator
open Common Foundation Foundation.Outcome

structure Common.Interp.IgnoresTypes {α : Type} (I : Interp α) : Prop where
  arith : ∀ op type type' x y, I.arith op type x y = I.arith op type' x y
  comp : ∀ op l r l' r' x y, I.comp op l r x y = I.comp op l' r' x y

namespace Physical
variable {α : Type} {I : Interp α}

theorem value_untyped (hI : I.IgnoresTypes) (lookup : Attr → α) (e : Expr) : I.value lookup (untyped e) = I.value lookup e := by
  induction e with
  | constVal c => rfl
  | attrRef type a => rfl
  | compExpr type op left right hl hr =>
    simp only [untyped, Interp.value, hl, hr]
    exact hI.arith op .int type _ _

theorem holds_untyped (hI : I.IgnoresTypes) (lookup : Attr → α) (pred : List BExpr) :
    I.holds lookup (pred.map untypedBExpr) = I.holds lookup pred := by
  unfold Interp.holds
  rw [List.all_map]
  congr 1
  funext b
  simp only [Function.comp, Interp.compare, untypedBExpr, value_untyped hI]
  apply hI.comp

theorem projectedRow_untyped (hI : I.IgnoresTypes) (rows : List (Row α)) (n : ℕ) (projs : List Expr) :
    projectedRow I rows (((projs.take n).map untyped).take n) = projectedRow I rows (projs.take n) := by
  rw [← List.map_take, List.take_take, min_self]
  unfold projectedRow
  rw [List.map_map]
  exact List.map_congr_left fun e _ => value_untyped hI _ e

variable [DecidableEq α] {S : Sources α}

theorem meaning_untyped (hI : I.IgnoresTypes) (n : ℕ) (b : Body) : (b.untyped n).meaning I S n = b.meaning I S n := by
  funext inputs
  cases b <;> simp only [Body.untyped, Body.meaning, holds_untyped hI, projectedRow_untyped hI]

theorem meaning_of_label (hI : I.IgnoresTypes) {x y : Operator} (h : x.label = y.label) : x.meaning I S = y.meaning I S := by
  have hbody : x.body.untyped x.attrs.length = y.body.untyped y.attrs.length := congrArg Label.body h
  have hattrs : x.attrs = y.attrs := congrArg Label.attrs h
  unfold Operator.meaning
  rw [← meaning_untyped hI x.attrs.length x.body, hbody, hattrs, meaning_untyped hI]

theorem labelling_meaning (hI : I.IgnoresTypes) (S : Sources α) : Labelling (fun _ op => op.meaning I S) :=
  ⟨fun _ _ _ h _ => meaning_of_label hI h,fun _ _ _ _ h _ _ => meaning_of_label hI h⟩

/-- By every meaning of `s` there is one of `t` by which the outputs and sinks of `s` receive what they did. -/
def ResultsKept (I : Interp α) (S : Sources α) (s t : PlanState) : Prop :=
  ∀ D, s.Meaning I S D → ∃ D', t.Meaning I S D' ∧ ∀ o ∈ s.used, (s.ops o).body.kind.isOutput = true →
    o ∈ t.used ∧ (t.ops o).body = (s.ops o).body ∧ t.received D' o = s.received D o

variable {s t u : PlanState} {op o : OpId}

theorem ResultsKept.trans (h : ResultsKept I S s t) (h' : ResultsKept I S t u) : ResultsKept I S s u := by
  intro D hD
  obtain ⟨D₁,hD₁,hsame⟩ := h D hD
  obtain ⟨D₂,hD₂,hsame'⟩ := h' D₁ hD₁
  refine ⟨D₂,hD₂,fun o ho hk => ?_⟩
  obtain ⟨hot,hbody,hrec⟩ := hsame o ho hk
  obtain ⟨hou,hbody',hrec'⟩ := hsame' o hot (hbody ▸ hk)
  exact ⟨hou,hbody'.trans hbody,hrec'.trans hrec⟩

theorem OutputsKept.resultsKept (h : OutputsKept s t) : ResultsKept I S s t := h α I S

theorem ResultsKept.sameResults (h : ResultsKept I S s t) (hc : s.ports.Consistent s.used) (hac : s.ports.Acyclic s.used)
    (hc' : t.ports.Consistent t.used) (hac' : t.ports.Acyclic t.used) : SameResults α I S s t := by
  constructor
  · exact exists_meaning I S hc hac
  constructor
  · exact exists_meaning I S hc' hac'
  · intro D D' hD hD' o ho hk
    obtain ⟨D₁,hD₁,hsame⟩ := h D hD
    obtain ⟨hot,hbody,hrec⟩ := hsame o ho hk
    exact ⟨hot,hbody,(hD'.received_eq hD₁ hc' hac' hot).trans hrec⟩

/-- The parameters of operators, and the links outside of the list of the operators of `s`. -/
structure Retained (s t : PlanState) : Prop where
  bodies : ∀ o, (t.ops o).body = (s.ops o).body ∧ (t.ops o).attrs = (s.ops o).attrs
  readers : ∀ o ∈ s.used, ∀ q ∈ (t.ops o).outputs, q ∈ s.used
  freeOps : t.freeOps = s.freeOps
  outside : ∀ o, o ∉ s.used → t.links.next o = s.links.next o ∧ t.links.prev o = s.links.prev o
  inside : ∀ o ∈ s.used, ∀ p, t.links.next o = some p ∨ t.links.prev o = some p → p ∈ s.used

theorem Retained.setOp (h : Retained s t) {x : Operator} (hb : x.body = (t.ops o).body) (ha : x.attrs = (t.ops o).attrs)
    (hout : o ∈ s.used → ∀ q ∈ x.outputs, q ∈ s.used) : Retained s (t.setOp o x) := by
  have hops (p : OpId) : (((t.setOp o x).ops p).body = (s.ops p).body ∧ ((t.setOp o x).ops p).attrs = (s.ops p).attrs) ∧
      (p ∈ s.used → ∀ q ∈ ((t.setOp o x).ops p).outputs, q ∈ s.used) := by
    by_cases hp : p = o
    · subst hp
      rw [setOp_ops_self, hb, ha]
      exact ⟨h.bodies p,hout⟩
    · rw [setOp_ops_of_ne _ hp]
      exact ⟨h.bodies p,h.readers p⟩
  exact ⟨fun p => (hops p).1,fun p hp => (hops p).2 hp,h.freeOps,h.outside,h.inside⟩

theorem Retained.unlink (h : Retained s t) (hop : op ∈ s.used) {p n : OpId} (hp : t.links.prev op = some p)
    (hn : t.links.next op = some n) :
    Retained s { t with links := (t.links.setNext p (some n)).setPrev n (some p) } := by
  have hps := h.inside op hop p (.inr hp)
  have hns := h.inside op hop n (.inl hn)
  refine ⟨h.bodies,h.readers,h.freeOps,fun o ho => ?_,fun o ho q hq => ?_⟩
  · have hop : o ≠ p := fun he => ho (he ▸ hps)
    have hon : o ≠ n := fun he => ho (he ▸ hns)
    simp only [Links.setPrev_next, Links.setNext_next_of_ne _ hop, Links.setPrev_prev_of_ne _ hon, Links.setNext_prev]
    exact h.outside o ho
  · simp only [Links.setPrev_next] at hq
    rcases hq with hq | hq
    · by_cases hop : o = p
      · rw [hop, Links.setNext_next_self] at hq
        exact Option.some.inj hq ▸ hns
      · rw [Links.setNext_next_of_ne _ hop] at hq
        exact h.inside o ho q (.inl hq)
    · by_cases hon : o = n
      · rw [hon, Links.setPrev_prev_self] at hq
        exact Option.some.inj hq ▸ hps
      · rw [Links.setPrev_prev_of_ne _ hon, Links.setNext_prev] at hq
        exact h.inside o ho q (.inr hq)

section Merging
variable {op1 op2 : OpId}

theorem moveOutputs_retained (i : ℕ) (qs : List OpId) :
    Triple (Retained s) (moveOutputs op1 op2 i qs) (fun _ => Retained s) (fun _ => Retained s) := by
  induction qs generalizing i with
  | nil => exact triple_pure fun t ht => ht
  | cons q qs ih =>
    refine Triple.bind (triple_failIf fun t _ ht => ht) fun _ => Triple.bind triple_getOp fun x => ?_
    cases lastIdx op2 x.inputs with
    | none => exact triple_pure fun t ht => ht.1.1
    | some l =>
      apply Triple.bind (Q := fun _ => Retained s)
      · exact triple_modify fun t ht => ht.1.1.setOp rfl rfl (ht.1.1.readers q)
      · exact fun _ => ih (i + 1)

theorem dropFromInputs_retained (cs : List OpId) :
    Triple (Retained s) (dropFromInputs op2 cs) (fun _ => Retained s) (fun _ => Retained s) := by
  induction cs with
  | nil => exact triple_pure fun t ht => ht
  | cons c cs ih =>
    apply Triple.bind triple_getOp
    intro x
    cases lastIdx op2 x.outputs with
    | none => exact triple_pure fun t ht => ht.1
    | some k =>
      apply Triple.bind (Q := fun _ => Retained s)
      · exact triple_modify fun t ht => ht.1.setOp rfl rfl fun hc q hq => ht.1.readers c hc q (List.mem_of_mem_eraseIdx hq)
      · exact fun _ => ih

theorem unlinkOp_retained (h2 : op2 ∈ s.used) :
    Triple (Retained s) (unlinkOp op2) (fun _ => Retained s) (fun _ => Retained s) := by
  apply Triple.bind triple_get
  rintro t u ⟨hu,rfl⟩
  cases hp : t.links.prev op2 with
  | none => exact hu
  | some p =>
    cases hn : t.links.next op2 with
    | none => exact hu
    | some n => exact hu.unlink h2 hp hn

theorem mergeOperators_retained (sharing : Bool) (h2 : op2 ∈ s.used) :
    Triple (Retained s) (mergeOperators op1 op2 sharing) (fun _ => Retained s) (fun _ => Retained s) := by
  have hrest (n : ℕ) (o2 : Operator) (hread : ∀ q ∈ o2.outputs, q ∈ s.used) : Triple (Retained s) (do
      if !(← moveOutputs op1 op2 n o2.outputs) then return false
      modifyOp op1 (fun o => { o with outputs := o.outputs ++ o2.outputs })
      if !(← dropFromInputs op2 o2.inputs) then return false
      unlinkOp op2
      return true) (fun _ => Retained s) (fun _ => Retained s) := by
    apply Triple.bind (moveOutputs_retained n _)
    intro b
    split
    · exact triple_pure fun t ht => ht
    apply Triple.bind (Q := fun _ => Retained s)
    · refine triple_modify fun t ht => ht.setOp rfl rfl fun h1 q hq => ?_
      exact (List.mem_append.mp hq).elim (ht.readers op1 h1 q) (hread q)
    · intro _
      apply Triple.bind (dropFromInputs_retained _)
      intro b
      split
      · exact triple_pure fun t ht => ht
      · exact Triple.bind (unlinkOp_retained h2) fun _ => triple_pure fun t ht => ht
  apply Triple.bind triple_getOp
  intro o1
  apply Triple.bind triple_getOp
  rintro o2 t ⟨⟨ht,-⟩,rfl⟩
  by_cases hshare : (o1.queryClassId ≠ (t.ops op2).queryClassId && !sharing) = true
  · rw [if_pos hshare]
    exact ht
  rw [if_neg hshare]
  have hread := ht.readers op2 h2
  by_cases hclass : (t.ops op2).queryClassId < o1.queryClassId
  · simp only [hclass, if_true]
    refine Triple.bind (Q := fun _ => Retained s) ?_ (fun _ => hrest _ _ hread) t ht
    exact triple_modify fun u hu => hu.setOp rfl rfl (hu.readers op1)
  · simp only [hclass, if_false]
    exact hrest _ _ hread t ht

end Merging

/-- The state in which a run starts. -/
theorem Sound.retained (hs : Sound s) : Retained s s := by
  refine ⟨fun _ => ⟨rfl,rfl⟩,fun o ho => hs.consistent.outputs_mem o ho,rfl,fun _ _ => ⟨rfl,rfl⟩,fun o ho p hp => ?_⟩
  obtain ⟨l₁,l₂,hused⟩ := List.append_of_mem ho
  have hlist := hs.pool.usedList
  rw [hused] at hlist
  rcases hp with hp | hp
  · rw [hlist.next_eq] at hp
    obtain ⟨l,rfl⟩ := List.head?_eq_some_iff.mp hp
    simp [hused]
  · have hne : l₁ ≠ [] := by
      rintro rfl
      rw [hlist.prev_eq_none_iff.mpr rfl] at hp
      cases hp
    obtain ⟨q,hmem,hq⟩ := hlist.prev_mem hne
    rw [hq] at hp
    obtain rfl := Option.some.inj hp
    simp [hused,hmem]

theorem findSharedOps_retained {levels : List (List Merge)} {sharing : Bool} (hs : Sound s) (h : findSharedOps sharing s = .ok levels t) :
    Retained s t := by
  have hrun : Keeps (Retained s) (fun _ => True) s (shareLevels sharing (MAX_OPS + 1) s.dataSources) (fun _ => True) := by
    apply shareLevels_keeps (V := s.used) trivial
    · exact fun t ht => ht.readers
    · exact fun _ _ _ _ _ _ _ _ _ _ _ _ => trivial
    · intro x hx y hy t _ ht
      have hmerge : Triple (Retained s) (mergeOperators x y sharing) (fun _ => Retained s) (fun _ => Retained s) :=
        mergeOperators_retained sharing hy
      exact keeps_iff.mpr ⟨fun _ _ hm => ⟨hmerge.of_ok ht hm,trivial⟩,fun _ _ hm => ⟨hmerge.of_error ht hm,trivial⟩⟩
    · exact fun o ho => List.mem_of_mem_filter ho
    · exact hs.retained
  exact ((keeps_iff.mp hrun).1 levels t h).1

/-- The operators that a run leaves in use are a plan, with every output and sink in it. -/
theorem findSharedOps_leaves {levels : List (List Merge)} (hs : Sound s) (hr : AllRead s)
    (hlevels : LevelsOrderly s.SameComputation (MAX_OPS + 1) s.dataSources s) (h : findSharedOps true s = .ok levels t) :
    Plausible t ∧ (∀ o ∈ t.used, o ∈ s.used) ∧ ∀ o ∈ s.used, (s.ops o).body.kind.isOutput = true → o ∈ t.used := by
  obtain ⟨T,hT,-⟩ := hs.merging hr
  have hretained := findSharedOps_retained hs h
  have hrun := hs.sharedRun hT hlevels h
  have hafter := hrun.after
  have hlow := hrun.lowered
  have hfree : t.links.IsList none t.freeOps s.free := by
    have houtside (o : OpId) (ho : o ∈ s.free) := hretained.outside o fun hu => hs.pool.disjoint o hu ho
    rw [hretained.freeOps]
    exact hs.pool.freeList.congr (fun o ho => (houtside o ho).1) fun o ho => (houtside o ho).2
  constructor
  · constructor
    · exact (PoolInv.of_lists hafter.usedList hfree fun o ho => hs.pool.disjoint o (hlow.used o ho)).1
    · exact hafter.consistent
    · exact fun o ho => hafter.computes.unfolding.acyclic o (hlow.used o ho)
    · intro o ho hk
      have hos := hlow.used o ho
      rw [(hretained.bodies o).1] at hk
      have hlen := congrArg List.length ((hafter.computes.unfolding.inputs_eq hos).symm.trans (hT.computes.unfolding.inputs_eq hos))
      simp only [List.length_map] at hlen
      rw [← ports_inputs, hlen, ports_inputs, hs.arity o hos]
      cases hb : (s.ops o).body <;> simp [hb,Body.kind,Body.arity] at hk ⊢
  · refine ⟨hlow.used,fun o ho hk => ?_⟩
    obtain ⟨w,hw,hwo,-⟩ := hlow.least o ho
    have hcomb : (s.ops o).body.kind.combines = false := by
      cases hkind : (s.ops o).body.kind <;> simp [hkind,OperatorKind.isOutput,OperatorKind.combines] at hk ⊢
    rwa [← hT.eq_of_kind (hlow.used w hw) ho hcomb hwo]

/-- A run leaves every operator with the value that it had. -/
theorem findSharedOps_meaning {levels : List (List Merge)} {sharing : Bool} {D : OpId → TimeVarying α} (hs : Sound s)
    (hI : I.IgnoresTypes) (hD : s.Meaning I S D) (h : findSharedOps sharing s = .ok levels t) :
    ∀ o ∈ s.used, D o = (t.ops o).meaning I S (t.received D o) ∧ t.received D o = s.received D o := by
  obtain ⟨T,hT,hheight⟩ := exists_unfolding (G := s.ports) (fun o => (s.ops o).meaning I S) hs.consistent.inputs_mem hs.acyclic
  have hstart : Computes (fun _ op => op.meaning I S) s.used T s := by
    refine ⟨hT,fun o ho q hq => ?_⟩
    have hqV := hs.consistent.outputs_mem o ho q hq
    exact ⟨hqV,hT.mem_inputs hqV ((hs.consistent.mem_iff hqV ho).mpr hq)⟩
  have hrun := shareLevels_computes (labelling_meaning hI S) (fun o ho => by simpa using hheight o ho) sharing (MAX_OPS + 1)
    s.dataSources fun o ho => ⟨List.mem_of_mem_filter ho,by omega⟩
  have hafter := (hrun.of_ok hstart h).1
  obtain ⟨hval,hsame⟩ := IsValuation.of_unfolding hD hT hafter.unfolding
  exact fun o ho => ⟨hval o ho,hsame o ho⟩

theorem findSharedOps_results {levels : List (List Merge)} (hs : Sound s) (hr : AllRead s)
    (hlevels : LevelsOrderly s.SameComputation (MAX_OPS + 1) s.dataSources s) (hI : I.IgnoresTypes)
    (h : findSharedOps true s = .ok levels t) : ResultsKept I S s t := by
  obtain ⟨-,hused,houtputs⟩ := findSharedOps_leaves hs hr hlevels h
  intro D hD
  have hval := findSharedOps_meaning hs hI hD h
  refine ⟨D,fun o ho => (hval o (hused o ho)).1,fun o ho hk => ?_⟩
  exact ⟨houtputs o ho hk,((findSharedOps_retained hs h).bodies o).1,(hval o ho).2⟩

end Physical
end AqsiosCoordinator
