import AqsiosCoordinator.Metadata.Computation

/-! # Finding shared operators changes nothing of what is computed -/
namespace AqsiosCoordinator.Physical
open Common Foundation Foundation.Outcome

theorem lastIdx_some {a : OpId} {l : List OpId} {k : ℕ} (h : lastIdx a l = some k) : l[k]? = some a := by
  induction l generalizing k with
  | nil => simp [lastIdx] at h
  | cons b l ih =>
    simp only [lastIdx] at h
    cases hl : lastIdx a l with
    | some i =>
      simp only [hl, Option.some.injEq] at h
      subst h
      simpa using ih hl
    | none =>
      simp only [hl] at h
      split at h
      · rename_i hb
        simp only [Option.some.injEq] at h
        subst h
        simp [hb]
      · simp at h

section Computes
variable {L : Type} {lab : OpId → Operator → L} {V : List OpId} {T : OpId → ComputationTree L} {s t : PlanState}
  {o op1 op2 : OpId}

theorem Computes.setOp (hlab : Labelling lab) (h : Computes lab V T s) {x : Operator}
    (hx : ∃ qc ins outs, x = { s.ops o with queryClassId := qc, inputs := ins, outputs := outs })
    (hin : o ∈ V → x.inputs.map T = (s.ops o).inputs.map T ∧ ∀ c ∈ x.inputs, c ∈ V)
    (hout : o ∈ V → ∀ q ∈ x.outputs, q ∈ V ∧ T o ∈ (T q).inputs) : Computes lab V T (s.setOp o x) := by
  have hsame (p : OpId) : lab p ((s.setOp o x).ops p) = lab p (s.ops p) := by
    obtain ⟨qc,ins,outs,rfl⟩ := hx
    by_cases hp : p = o
    · subst hp
      rw [setOp_ops_self]
      exact hlab.same p _ _ rfl rfl
    · rw [setOp_ops_of_ne _ hp]
  have hports (p : OpId) (hp : p ∈ V) : (((s.setOp o x).ops p).inputs.map T = (s.ops p).inputs.map T ∧
      ∀ c ∈ ((s.setOp o x).ops p).inputs, c ∈ V) ∧
      ∀ q ∈ ((s.setOp o x).ops p).outputs, q ∈ V ∧ T p ∈ (T q).inputs := by
    by_cases hpo : p = o
    · subst hpo
      rw [setOp_ops_self]
      exact ⟨hin hp,hout hp⟩
    · rw [setOp_ops_of_ne _ hpo]
      exact ⟨⟨rfl,h.input_mem hp⟩,h.readers p hp⟩
  refine ⟨⟨fun p hp => (hports p hp).1.2,fun p hp => ?_⟩,fun p hp => (hports p hp).2⟩
  rw [hsame, ports_inputs, (hports p hp).1.1]
  exact h.unfolding.node p hp

def Stopped (lab : OpId → Operator → L) (V : List OpId) (T : OpId → ComputationTree L) (e : Failure) (s : PlanState) : Prop :=
  Computes lab V T s ∧ e ≠ .nonTermination

theorem triple_getOp {P : PlanState → Prop} {E : Failure → PlanState → Prop} :
    Triple P (getOp o) (fun x s => P s ∧ x = s.ops o) E := fun _ hs => ⟨hs,rfl⟩

theorem moveOutputs_computes (hlab : Labelling lab) (h1 : op1 ∈ V) (h12 : T op1 = T op2) (i : ℕ) (qs : List OpId)
    (hq : ∀ q ∈ qs, q ∈ V) :
    Triple (Computes lab V T) (moveOutputs op1 op2 i qs) (fun _ => Computes lab V T) (Stopped lab V T) := by
  induction qs generalizing i with
  | nil => exact triple_pure fun s hs => hs
  | cons q qs ih =>
    refine Triple.bind (triple_failIf fun s _ hs => ⟨hs,by simp⟩) fun _ => ?_
    refine Triple.bind triple_getOp fun x => ?_
    cases hl : lastIdx op2 x.inputs with
    | none => exact triple_pure fun s hs => hs.1.1
    | some l =>
      refine Triple.bind (triple_modify fun s hs => ?_) fun _ => ih (i + 1) fun q' hq' => hq q' (List.mem_cons_of_mem _ hq')
      obtain ⟨⟨hs,-⟩,rfl⟩ := hs
      obtain ⟨hlt,hget⟩ := List.getElem?_eq_some_iff.mp (lastIdx_some hl)
      refine hs.setOp hlab ⟨_,_,_,rfl⟩ (fun hqV => ⟨?_,fun c hc => ?_⟩) (hs.readers q)
      · have hlt' : l < ((s.ops q).inputs.map T).length := by simpa using hlt
        have hval : ((s.ops q).inputs.map T)[l] = T op1 := by rw [List.getElem_map, hget, h12]
        rw [List.map_set, ← hval, List.set_getElem_self]
      · rcases List.mem_or_eq_of_mem_set hc with hc | rfl
        · exact hs.input_mem hqV c hc
        · exact h1

theorem dropFromInputs_computes (hlab : Labelling lab) (cs : List OpId) :
    Triple (Computes lab V T) (dropFromInputs op2 cs) (fun _ => Computes lab V T) (Stopped lab V T) := by
  induction cs with
  | nil => exact triple_pure fun s hs => hs
  | cons c cs ih =>
    refine Triple.bind triple_getOp fun x => ?_
    cases hk : lastIdx op2 x.outputs with
    | none => exact triple_pure fun s hs => hs.1
    | some k =>
      refine Triple.bind (triple_modify fun s hs => ?_) fun _ => ih
      refine hs.1.setOp hlab ⟨_,_,_,rfl⟩ (fun hc => ⟨rfl,hs.1.input_mem hc⟩) fun hc q hq => ?_
      exact hs.1.readers c hc q (List.mem_of_mem_eraseIdx hq)

/-- What reads from an operator that computes the same. -/
theorem mergeOperators_computes (hlab : Labelling lab) (sharing : Bool) (h1 : op1 ∈ V) (h2 : op2 ∈ V)
    (h12 : T op1 = T op2) :
    Triple (Computes lab V T) (mergeOperators op1 op2 sharing) (fun _ => Computes lab V T) (Stopped lab V T) := by
  refine Triple.bind triple_getOp fun o1 => Triple.bind triple_getOp fun o2 => ?_
  by_cases hshare : (o1.queryClassId ≠ o2.queryClassId && !sharing) = true
  · rw [if_pos hshare]
    exact triple_pure fun s hs => hs.1.1
  rw [if_neg hshare]
  intro s hs
  obtain ⟨⟨hs,-⟩,rfl⟩ := hs
  have hread := hs.readers op2 h2
  have hrest : Triple (Computes lab V T) (do
      if !(← moveOutputs op1 op2 o1.outputs.length (s.ops op2).outputs) then return false
      modifyOp op1 (fun o => { o with outputs := o.outputs ++ (s.ops op2).outputs })
      if !(← dropFromInputs op2 (s.ops op2).inputs) then return false
      unlinkOp op2
      return true) (fun _ => Computes lab V T) (Stopped lab V T) := by
    refine Triple.bind (moveOutputs_computes hlab h1 h12 _ _ fun q hq => (hread q hq).1) fun b => ?_
    split
    · exact triple_pure fun s hs => hs
    refine Triple.bind (Q := fun _ => Computes lab V T) (triple_modify fun u hu => ?_) fun _ => ?_
    · refine hu.setOp hlab ⟨_,_,_,rfl⟩ (fun h => ⟨rfl,hu.input_mem h⟩) fun h q hq => ?_
      rcases List.mem_append.mp hq with hq | hq
      · exact hu.readers op1 h q hq
      · exact h12 ▸ hread q hq
    refine Triple.bind (dropFromInputs_computes hlab _) fun b => ?_
    split
    · exact triple_pure fun s hs => hs
    refine Triple.bind (Triple.bind triple_get fun u => ?_) fun _ => triple_pure fun s hs => hs
    split
    · rintro v ⟨hv,rfl⟩
      exact ⟨hv.unfolding,hv.readers⟩
    · exact triple_throw fun u hu => ⟨hu.1,by simp⟩
  by_cases hclass : (s.ops op2).queryClassId < o1.queryClassId
  · simp only [hclass, if_true]
    refine Triple.bind (Q := fun _ => Computes lab V T) (triple_modify fun u hu => ?_) (fun _ => hrest) s hs
    exact hu.setOp hlab ⟨_,_,_,rfl⟩ (fun h => ⟨rfl,hu.input_mem h⟩) (hu.readers op1)
  · simp only [hclass, if_false]
    exact hrest s hs

/-- Whatever `mergeInto` leaves of the operators it has been given. -/
theorem mergeInto_computes (hlab : Labelling lab) (hN : ∀ o ∈ V, (T o).height ≤ MAX_OPS) (sharing : Bool) (h1 : op1 ∈ V)
    (ys : List OpId) (hy : ∀ y ∈ ys, y ∈ V) :
    Triple (Computes lab V T) (mergeInto sharing op1 ys)
      (fun r s => Computes lab V T s ∧ (r.1.length ≤ ys.length ∧ ∀ y ∈ r.1, y ∈ ys) ∧ ∀ m ∈ r.2, m.1 = op1)
      (Stopped lab V T) := by
  induction ys with
  | nil => exact triple_pure fun s hs => ⟨hs,⟨le_rfl,by simp⟩,by simp⟩
  | cons y ys ih =>
    have hrest := ih fun z hz => hy z (List.mem_cons_of_mem _ hz)
    have hyV := hy y List.mem_cons_self
    have hcompare : Triple (Computes lab V T) (compare op1 y)
        (fun b s => Computes lab V T s ∧ (b = true → T op1 = T y)) (Stopped lab V T) := by
      refine Triple.bind triple_get fun s => ?_
      rintro _ ⟨hs,rfl⟩
      have hterm := compareOperators_terminates (b := y) hs h1 ((hN op1 h1).trans (Nat.le_succ _))
      have hsound : compareOperators s.ops (MAX_OPS + 1) op1 y = .ok true → T op1 = T y :=
        compareOperators_sound hlab hs h1 hyV
      cases hr : compareOperators s.ops (MAX_OPS + 1) op1 y with
      | ok b => exact ⟨hs,fun hb => hsound (by rw [hr, hb])⟩
      | error e => exact ⟨hs,fun he => hterm (by rw [hr, he])⟩
    refine Triple.bind hcompare fun b => ?_
    cases b with
    | false =>
      refine Triple.bind (hrest.weaken (fun s hs => hs.1) fun r s hr => hr) fun r => triple_pure fun s hs => ?_
      obtain ⟨hs,⟨hlen,hmem⟩,hfirst⟩ := hs
      refine ⟨hs,⟨Nat.succ_le_succ hlen,fun z hz => ?_⟩,hfirst⟩
      rcases List.mem_cons.mp hz with rfl | hz
      · exact List.mem_cons_self
      · exact List.mem_cons_of_mem _ (hmem z hz)
    | true =>
      intro s hs
      obtain ⟨hs,heq⟩ := hs
      refine Triple.bind (mergeOperators_computes hlab sharing h1 hyV (heq rfl)) (fun merged => ?_) s hs
      refine Triple.bind hrest fun r => triple_pure fun s hs => ?_
      obtain ⟨hs,⟨hlen,hmem⟩,hfirst⟩ := hs
      refine ⟨hs,⟨Nat.le_succ_of_le hlen,fun z hz => List.mem_cons_of_mem _ (hmem z hz)⟩,fun m hm => ?_⟩
      cases merged with
      | false => exact hfirst m hm
      | true =>
        rcases List.mem_cons.mp hm with rfl | hm
        · rfl
        · exact hfirst m hm

/-- The operators of the next level stand above those of the level. -/
theorem shareLevel_computes (hlab : Labelling lab) (hN : ∀ o ∈ V, (T o).height ≤ MAX_OPS) (sharing : Bool) (fuel : ℕ)
    (cur : List OpId) (hlen : cur.length ≤ fuel) (hcur : ∀ o ∈ cur, o ∈ V) :
    Triple (Computes lab V T) (shareLevel sharing fuel cur)
      (fun r s => Computes lab V T s ∧ (∀ q ∈ r.1, q ∈ V ∧ ∃ o ∈ cur, T o ∈ (T q).inputs) ∧ ∀ m ∈ r.2, m.1 ∈ V)
      (Stopped lab V T) := by
  induction fuel generalizing cur with
  | zero =>
    obtain rfl := List.length_eq_zero_iff.mp (Nat.le_zero.mp hlen)
    exact triple_pure fun s hs => ⟨hs,by simp,by simp⟩
  | succ fuel ih =>
    cases cur with
    | nil => exact triple_pure fun s hs => ⟨hs,by simp,by simp⟩
    | cons x ys =>
      have hx := hcur x List.mem_cons_self
      refine Triple.bind (mergeInto_computes hlab hN sharing hx ys fun y hy => hcur y (List.mem_cons_of_mem _ hy)) fun r => ?_
      intro s hs
      obtain ⟨hs,⟨hr,hmem⟩,hfirst⟩ := hs
      refine Triple.bind triple_getOp (fun o => ?_) s hs
      rintro u ⟨hu,rfl⟩
      refine Triple.bind (ih r.1 (hr.trans (Nat.le_of_succ_le_succ hlen)) fun y hy =>
        hcur y (List.mem_cons_of_mem _ (hmem y hy))) (fun next => triple_pure fun v hv => ?_) u hu
      obtain ⟨hv,hnext,hrest⟩ := hv
      refine ⟨hv,fun q hq => ?_,fun m hm => ?_⟩
      swap
      · rcases List.mem_append.mp hm with hm | hm
        · exact hfirst m hm ▸ hx
        · exact hrest m hm
      rcases List.mem_append.mp hq with hq | hq
      · exact ⟨(hu.readers x hx q hq).1,x,List.mem_cons_self,(hu.readers x hx q hq).2⟩
      · obtain ⟨hqV,y,hy,hyq⟩ := hnext q hq
        exact ⟨hqV,y,List.mem_cons_of_mem _ (hmem y hy),hyq⟩

theorem mem_firstOccurrences {l : List OpId} : o ∈ firstOccurrences l ↔ o ∈ l := by
  have hfold (l acc : List OpId) : o ∈ l.foldl (fun cur o => if o ∈ cur then cur else cur ++ [o]) acc ↔
      o ∈ acc ∨ o ∈ l := by
    induction l generalizing acc with
    | nil => simp
    | cons x l ih =>
      rw [List.foldl_cons, ih]
      split
      · rename_i hx
        rw [List.mem_cons]
        constructor
        · tauto
        · rintro (h | rfl | h)
          · exact .inl h
          · exact .inl hx
          · exact .inr h
      · rw [List.mem_append, List.mem_singleton, List.mem_cons]
        tauto
  unfold firstOccurrences
  rw [hfold]
  simp

/-- Each level stands higher, so that the levels end. -/
theorem shareLevels_computes (hlab : Labelling lab) (hN : ∀ o ∈ V, (T o).height ≤ MAX_OPS) (sharing : Bool) (fuel : ℕ)
    (cur : List OpId) (hcur : ∀ o ∈ cur, o ∈ V ∧ MAX_OPS + 1 ≤ (T o).height + fuel) :
    Triple (Computes lab V T) (shareLevels sharing fuel cur)
      (fun levels s => Computes lab V T s ∧ ∀ l ∈ levels, ∀ m ∈ l, m.1 ∈ V) (Stopped lab V T) := by
  induction fuel generalizing cur with
  | zero =>
    cases cur with
    | nil => exact triple_pure fun s hs => ⟨hs,by simp⟩
    | cons x cur =>
      obtain ⟨hx,hfuel⟩ := hcur x List.mem_cons_self
      have hle := hN x hx
      omega
  | succ fuel ih =>
    cases cur with
    | nil => exact triple_pure fun s hs => ⟨hs,by simp⟩
    | cons x cur =>
      refine Triple.bind (shareLevel_computes hlab hN sharing _ _ le_rfl fun o ho => (hcur o ho).1) fun r => ?_
      intro s hs
      obtain ⟨hs,hnext,hfirst⟩ := hs
      have hrest := ih (firstOccurrences r.1) fun q hq => by
        obtain ⟨hqV,o,ho,hoq⟩ := hnext q (mem_firstOccurrences.mp hq)
        have hlt := ComputationTree.height_lt_of_mem hoq
        have hfuel := (hcur o ho).2
        exact ⟨hqV,by omega⟩
      refine hrest.bind (fun rest => triple_pure (a := r.2 :: rest) fun s hs => ?_) s hs
      refine ⟨hs.1,fun l hl => ?_⟩
      rcases List.mem_cons.mp hl with rfl | hl
      · exact hfirst
      · exact hs.2 l hl

end Computes

end AqsiosCoordinator.Physical
