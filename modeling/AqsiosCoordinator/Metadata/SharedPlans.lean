import AqsiosCoordinator.Metadata.SharingLevels

/-! # Sharing operators between the plans of registered queries -/
namespace AqsiosCoordinator.Physical
open Common Foundation Foundation.Outcome Metadata
variable {s t : PlanState}

/-- The passes before `findSharedOps`. -/
theorem prepared_sound {mem : OpId → Operator} {s₀ s₁ s₂ s₃ : PlanState} (h₀ : Registered mem s₀)
    (h₁ : removeQuerySources s₀ = .ok () s₁) (h₂ : addSinks s₁ = .ok () s₂) (h₃ : mergeSelects s₂ = .ok () s₃) :
    Sound s₃ ∧ AllRead s₃ := by
  obtain ⟨hs1,hq1⟩ := removeQuerySources_sound (registered_sound h₀) h₁
  obtain ⟨hs2,hq2,hr2⟩ := addSinks_sound hs1 hq1 h₂
  obtain ⟨hs3,-,hr3⟩ := mergeSelects_sound hs2 hq2 hr2 h₃
  exact ⟨hs3,hr3⟩

/-- The operators whose kind has results that leave the system, or that nobody uses. -/
def OperatorKind.isOutput : OperatorKind → Bool
  | .output | .sink => true
  | _ => false

/-- What an operator computes: the tree of operators below it, without their identities. -/
def PlanState.Computation (s : PlanState) : OpId → ComputationTree Label → Prop :=
  Unfolds (fun o => (s.ops o).label) s.ports.inputs

/-- However a run of `findSharedOps` ends, every output and sink computes what it did, and
the run does end. -/
theorem findSharedOps_keeps_computations (s : PlanState) (hc : s.ports.Consistent s.used) (hac : s.ports.Acyclic s.used)
    (sharingAmongClasses : Bool) :
    (∀ o ∈ s.used, (s.ops o).body.kind.isOutput = true → ∃ tree, s.Computation o tree ∧
      (finalState (findSharedOps sharingAmongClasses s)).Computation o tree) ∧
    ∀ t, findSharedOps sharingAmongClasses s ≠ .error .nonTermination t := by
  obtain ⟨T,hT,hheight⟩ := exists_unfolding (G := s.ports) (fun o => (s.ops o).label) hc.inputs_mem hac
  have hstart : Computes (fun _ op => op.label) s.used T s := by
    refine ⟨hT,fun o ho q hq => ?_⟩
    have hqV := hc.outputs_mem o ho q hq
    exact ⟨hqV,hT.mem_inputs hqV ((hc.mem_iff hqV ho).mpr hq)⟩
  have hrun : Triple (Computes (fun _ op => op.label) s.used T)
      (shareLevels sharingAmongClasses (MAX_OPS + 1) s.dataSources)
      (fun _ => Computes (fun _ op => op.label) s.used T) (Stopped (fun _ op => op.label) s.used T) := by
    refine (shareLevels_computes labelling_label (fun o ho => by simpa using hheight o ho) _ _ _ fun o ho => ?_).weaken
      (fun s hs => hs) fun _ _ ht => ht.1
    exact ⟨List.mem_of_mem_filter ho,by omega⟩
  have hfinal : Computes (fun _ op => op.label) s.used T (finalState (findSharedOps sharingAmongClasses s)) ∧
      ∀ t, findSharedOps sharingAmongClasses s ≠ .error .nonTermination t := by
    cases hr : findSharedOps sharingAmongClasses s with
    | ok levels t => exact ⟨hrun.of_ok hstart hr,by simp⟩
    | error e t =>
      have hstop := hrun.of_error hstart hr
      refine ⟨hstop.1,fun u hu => ?_⟩
      cases hu
      exact hstop.2 rfl
  exact ⟨fun o ho _ => ⟨T o,hT.unfolds ho,hfinal.1.unfolding.unfolds ho⟩,hfinal.2⟩

def streamAndView : TableManager :=
  ⟨[⟨['D'],true,[⟨['a'],.int,4⟩]⟩,⟨['S'],true,[⟨['a'],.int,4⟩]⟩,⟨['V'],false,[⟨['a'],.int,4⟩]⟩]⟩

def windowOfStream : Logical.Plan :=
  .node (.rangeWin 10) [.named 0 1 0] false [.node (.streamSource 0 1) [.named 0 1 0] true []]

def streamInView : Logical.Plan :=
  .node (.project [.attrRef .int (.named 0 1 0)]) [.named 0 1 0] false
    [.node (.select ⟨.eq,.attrRef .int (.named 0 1 0),.attrRef .int (.named 1 2 0)⟩) [.named 0 1 0, .named 1 2 0] false
      [.node .cross [.named 0 1 0, .named 1 2 0] false
        [.node (.streamSource 0 1) [.named 0 1 0] true [],
         .node (.relnSource 1 2) [.named 1 2 0] false []]]]

def planAfter (calls : List Call) : PlanState := finalState (runCalls calls (newPlanManager blankMemory))

def preparedPlan (s : PlanState) : PlanState :=
  finalState (mergeSelects (finalState (addSinks (finalState (removeQuerySources s)))))

/-- The passes of a plan on which all of them return. -/
theorem preparedPlan_passes (h : (returns (removeQuerySources s) && returns (addSinks (finalState (removeQuerySources s))) &&
    returns (mergeSelects (finalState (addSinks (finalState (removeQuerySources s)))))) = true) :
    ∃ s₁ s₂, removeQuerySources s = .ok () s₁ ∧ addSinks s₁ = .ok () s₂ ∧ mergeSelects s₂ = .ok () (preparedPlan s) := by
  obtain ⟨h12,h3⟩ := Bool.and_eq_true_iff.mp h
  obtain ⟨h1,h2⟩ := Bool.and_eq_true_iff.mp h12
  exact ⟨_,_,eq_ok_of_returns h1,eq_ok_of_returns h2,eq_ok_of_returns h3⟩

def twoSelects : PlanState := planAfter
  [.addBaseTable streamAndView 0, .addBaseTable streamAndView 1,
    .addLogicalQueryPlan blankUninit 0 (positiveRows 1) true, .addLogicalQueryPlan blankUninit 1 (positiveRows 1) true]

def twoJoins : PlanState := planAfter
  [.addBaseTable streamAndView 0, .addBaseTable streamAndView 1,
    .addLogicalQueryPlan blankUninit 0 windowOfStream false, .map streamAndView 0 2,
    .addLogicalQueryPlan blankUninit 1 streamInView true, .addLogicalQueryPlan blankUninit 2 streamInView true]

/-- The outputs of the two joins compute what they did. -/
theorem twoJoins_computations : ∃ o ∈ (preparedPlan twoJoins).used,
    ((preparedPlan twoJoins).ops o).body.kind.isOutput = true ∧ ∃ tree, (preparedPlan twoJoins).Computation o tree ∧
      (finalState (findSharedOps true (preparedPlan twoJoins))).Computation o tree := by
  have hreg : Registered blankMemory twoJoins := Registered.start.runCalls _ (by decide +kernel)
  have h1 := eq_ok_of_returns (r := removeQuerySources twoJoins) (by decide +kernel)
  have h2 := eq_ok_of_returns (r := addSinks (finalState (removeQuerySources twoJoins))) (by decide +kernel)
  have h3 := eq_ok_of_returns (r := mergeSelects (finalState (addSinks (finalState (removeQuerySources twoJoins)))))
    (by decide +kernel)
  have hs := (prepared_sound hreg h1 h2 h3).1
  have hout : ⟨14,by unfold MAX_OPS; decide⟩ ∈ (preparedPlan twoJoins).used ∧
      ((preparedPlan twoJoins).ops ⟨14,by unfold MAX_OPS; decide⟩).body.kind.isOutput = true := by decide +kernel
  exact ⟨_,hout.1,hout.2,
    (findSharedOps_keeps_computations _ hs.consistent hs.acyclic true).1 _ hout.1 hout.2⟩

/-- The predicate of a join. -/
def Body.joinPred : Body → Option (List BExpr)
  | .join _ _ pred | .strJoin _ _ pred | .joinProject _ pred | .strJoinProject _ pred => some pred
  | _ => none

def JoinsFiltered (s : PlanState) : Prop := ∀ o ∈ s.used, (s.ops o).body.joinPred ≠ some []

instance (s : PlanState) : Decidable (JoinsFiltered s) :=
  List.decidableBAll (fun o => (s.ops o).body.joinPred ≠ some []) s.used

theorem Body.Complete.comparable {n : ℕ} {b : Body} (h : b.Complete n) (hj : b.joinPred ≠ some []) : b.Comparable n := by
  cases b with
  | select p => exact h
  | project es => exact h.ge
  | join o i p | strJoin o i p => simpa [joinPred,Comparable] using hj
  | joinProject es p | strJoinProject es p => exact ⟨by simpa [joinPred] using hj,h.ge⟩
  | _ => trivial

theorem mayBeUnread_of_combines {kind : OperatorKind} (h : kind.combines = true) : mayBeUnread kind = false := by
  cases kind <;> simp_all [OperatorKind.combines,mayBeUnread]

/-- The operator in front of all others is read by nobody, and the last one reads nothing. -/
theorem Sound.ends (hs : Sound s) (hr : AllRead s) {o : OpId} (ho : s.used.head? = some o ∨ s.used.getLast? = some o) :
    (s.ops o).body.kind.combines = false := by
  by_contra hk
  have hcomb : (s.ops o).body.kind.combines = true := by simpa using hk
  have harity := Body.arity_ne_zero hcomb
  have hread := mayBeUnread_of_combines hcomb
  rcases ho with ho | ho
  · obtain ⟨l,hl⟩ := List.head?_eq_some_iff.mp ho
    have homem : o ∈ s.used := by simp [hl]
    rcases hr o homem with hu | hout
    · rw [hread] at hu
      simp at hu
    · obtain ⟨q,qs,hq⟩ := List.exists_cons_of_ne_nil hout
      have hqo : q ∈ s.ports.outputs o := by
        rw [ports_outputs, hq]
        exact List.mem_cons_self
      have hqu := hs.consistent.outputs_mem o homem q hqo
      have hin := (hs.consistent.mem_iff hqu homem).mpr hqo
      have hlay := hs.layered
      have hnd := hs.pool.nodup
      rw [hl] at hlay hnd hqu
      obtain ⟨hol,-⟩ := List.nodup_cons.mp hnd
      rcases List.mem_cons.mp hqu with rfl | hqu
      · exact hol (hlay.1 q hin)
      · exact hol (hlay.2.inputs_mem hqu o hin)
  · obtain ⟨l,hl⟩ := List.getLast?_eq_some_iff.mp ho
    have hlay := hs.layered
    rw [hl] at hlay
    have hnone := hlay.append_right.1
    refine harity ?_
    rw [← hs.arity o (by simp [hl])]
    refine List.length_eq_zero_iff.mpr (List.eq_nil_iff_forall_not_mem.mpr fun c hc => ?_)
    exact absurd (hnone c hc) List.not_mem_nil

/-- The state in which the pass starts. -/
theorem Sound.merging (hs : Sound s) (hr : AllRead s) : ∃ T, Merging s.used T s ∧ ∀ o ∈ s.used, (T o).height ≤ MAX_OPS := by
  obtain ⟨T,hT,hheight⟩ := exists_unfolding (G := s.ports) (fun o => identLabel o (s.ops o)) hs.consistent.inputs_mem hs.acyclic
  refine ⟨T,⟨⟨hT,fun o ho q hq => ?_⟩,hs.pool.usedList,fun o ho => ho,hs.consistent,fun o ho hk => ?_,
    fun o ho => hs.ends hr (.inl ho),fun o ho => hs.ends hr (.inr ho),fun z hz hzu => absurd hz hzu⟩,fun o ho => ?_⟩
  · have hqu := hs.consistent.outputs_mem o ho q hq
    exact ⟨hqu,hT.mem_inputs hqu ((hs.consistent.mem_iff hqu ho).mpr hq)⟩
  · intro hnil
    have harity := hs.arity o ho
    rw [hnil] at harity
    exact Body.arity_ne_zero hk harity.symm
  · simpa using hheight o ho

theorem Sound.sharing (hs : Sound s) (hr : AllRead s) (hj : JoinsFiltered s) :
    ∃ T, Sharing s.used T s ∧ ∀ o ∈ s.used, (T o).height ≤ MAX_OPS := by
  obtain ⟨T,hT,hheight⟩ := hs.merging hr
  exact ⟨T,⟨hT,fun o ho => (hs.complete o ho).comparable (hj o ho)⟩,hheight⟩

/-- What the pass has to leave: a consistent plan, in which what outputs read is in use, and
no survivor that had been merged away. -/
structure SharedSoundly (levels : List (List Merge)) (t : PlanState) : Prop where
  consistent : t.ports.Consistent t.used
  survivors : SurvivorsInUse levels
  outputs : ∀ o ∈ t.used, (t.ops o).body.kind = .output → ∀ c, Relation.TransGen t.ports.Reads o c → c ∈ t.used

theorem Ports.Consistent.reads_mem {G : Ports OpId} {U : List OpId} (h : G.Consistent U) {a b : OpId} (ha : a ∈ U)
    (hab : Relation.TransGen G.Reads a b) : b ∈ U := by
  induction hab with
  | single hr => exact h.inputs_mem a ha _ hr
  | tail _ hr ih => exact h.inputs_mem _ ih _ hr

theorem Sound.findSharedOps_iff (hs : Sound s) (hr : AllRead s) (hj : JoinsFiltered s)
    (hfits : ∀ u, findSharedOps true s ≠ .error .outOfBounds u) :
    (∃ levels t, findSharedOps true s = .ok levels t ∧ SharedSoundly levels t) ↔
      LevelsClear (MAX_OPS + 1) s.dataSources s := by
  obtain ⟨T,hT,hN⟩ := hs.sharing hr hj
  have hrun : findSharedOps true s = shareLevels true (MAX_OPS + 1) s.dataSources s := rfl
  have hsrc : ∀ o ∈ s.dataSources, o ∈ s.used ∧ MAX_OPS + 1 ≤ (T o).height + (MAX_OPS + 1) :=
    fun o ho => ⟨List.mem_of_mem_filter ho,by omega⟩
  have hall := shareLevels_computes labelling_ident hN true (MAX_OPS + 1) s.dataSources hsrc
  have hnd : s.dataSources.Nodup := hs.pool.nodup.filter _
  rw [← shareLevels_iff hN (MAX_OPS + 1) hT hnd hsrc hfits, hrun]
  constructor
  · rintro ⟨levels,t,hok,h⟩
    exact ⟨levels,t,hok,h.consistent,h.survivors,(hall.of_ok hT.computes hok).2⟩
  · rintro ⟨levels,t,hok,hc,hsurv,-⟩
    exact ⟨levels,t,hok,hc,hsurv,fun o ho _ c hreach => Ports.Consistent.reads_mem hc ho hreach⟩

/-- The same plan with the outputs of each operator in another order. -/
def PlanState.Reordered (s t : PlanState) : Prop :=
  ∃ outs : OpId → List OpId, (∀ o, (outs o).Perm (s.ops o).outputs) ∧
    t = { s with ops := fun o => { s.ops o with outputs := outs o } }

theorem PlanState.Reordered.sound (h : s.Reordered t) (hs : Sound s) (hr : AllRead s) : Sound t ∧ AllRead t := by
  obtain ⟨outs,hperm,rfl⟩ := h
  refine ⟨⟨⟨hs.pool.1,hs.pool.2,hs.pool.3⟩,⟨hs.consistent.1,fun c hc p hp => ?_,fun p hp c hc => ?_⟩,
    hs.layered.congr fun _ _ => rfl,hs.arity,hs.complete⟩,fun o ho => ?_⟩
  · exact hs.consistent.outputs_mem c hc p ((hperm c).mem_iff.mp hp)
  · exact (hs.consistent.balanced p hp c hc).trans ((hperm c).count_eq p).symm
  · refine (hr o ho).imp id fun hne hnil => hne ?_
    have hp := hperm o
    rw [show outs o = [] from hnil] at hp
    exact hp.symm.eq_nil

/-- For every registered plan that has been prepared for it, and every order of the outputs:
`findSharedOps` leaves a consistent plan, in which no operator that had been merged away
survives a merge, exactly when every level starts clear. -/
theorem findSharedOps_sound_iff {mem : OpId → Operator} {s₀ s₁ s₂ s₃ s : PlanState} (h₀ : Registered mem s₀)
    (h₁ : removeQuerySources s₀ = .ok () s₁) (h₂ : addSinks s₁ = .ok () s₂) (h₃ : mergeSelects s₂ = .ok () s₃)
    (hs : s₃.Reordered s) (hj : JoinsFiltered s) (hfits : ∀ u, findSharedOps true s ≠ .error .outOfBounds u) :
    (∃ levels t, findSharedOps true s = .ok levels t ∧ SharedSoundly levels t) ↔
      LevelsClear (MAX_OPS + 1) s.dataSources s := by
  obtain ⟨hs3,hr3⟩ := prepared_sound h₀ h₁ h₂ h₃
  obtain ⟨hS,hr⟩ := hs.sound hs3 hr3
  exact hS.findSharedOps_iff hr hj hfits

/-- The two selects become one, and the plan stays consistent. -/
theorem twoSelects_shared : ∃ levels t, findSharedOps true (preparedPlan twoSelects) = .ok levels t ∧
    SharedSoundly levels t := by
  have hreg : Registered blankMemory twoSelects := Registered.start.runCalls _ (by decide +kernel)
  have h1 := eq_ok_of_returns (r := removeQuerySources twoSelects) (by decide +kernel)
  have h2 := eq_ok_of_returns (r := addSinks (finalState (removeQuerySources twoSelects))) (by decide +kernel)
  have h3 := eq_ok_of_returns (r := mergeSelects (finalState (addSinks (finalState (removeQuerySources twoSelects)))))
    (by decide +kernel)
  have hsame : (preparedPlan twoSelects).Reordered (preparedPlan twoSelects) := ⟨_,fun _ => .refl _,rfl⟩
  have hreturns : returns (findSharedOps true (preparedPlan twoSelects)) = true := by decide +kernel
  exact (findSharedOps_sound_iff hreg h1 h2 h3 hsame (by decide +kernel) (ne_error_of_returns hreturns _)).mpr
    (by decide +kernel)

/-- The second join is on the work list when it has been merged into the first, and takes
over its readers, so that both outputs read an operator that is not in use. -/
theorem twoJoins_dangling : ∃ s₁ s₂ s₃ levels t, Registered blankMemory twoJoins ∧
    removeQuerySources twoJoins = .ok () s₁ ∧ addSinks s₁ = .ok () s₂ ∧ mergeSelects s₂ = .ok () s₃ ∧
    JoinsFiltered s₃ ∧ findSharedOps true s₃ = .ok levels t ∧ ¬ SurvivorsInUse levels ∧ ¬ t.ports.Consistent t.used ∧
    ∃ o ∈ t.used, (t.ops o).body.kind = .output ∧ ∃ c ∈ (t.ops o).inputs, c ∉ t.used := by
  have h1 := eq_ok_of_returns (r := removeQuerySources twoJoins) (by decide +kernel)
  have h2 := eq_ok_of_returns (r := addSinks (finalState (removeQuerySources twoJoins))) (by decide +kernel)
  have h3 := eq_ok_of_returns (r := mergeSelects (finalState (addSinks (finalState (removeQuerySources twoJoins)))))
    (by decide +kernel)
  have hlost : ⟨14,by unfold MAX_OPS; decide⟩ ∈ (finalState (findSharedOps true (preparedPlan twoJoins))).used ∧
      ((finalState (findSharedOps true (preparedPlan twoJoins))).ops ⟨14,by unfold MAX_OPS; decide⟩).body.kind = .output ∧
      ⟨12,by unfold MAX_OPS; decide⟩ ∈
        ((finalState (findSharedOps true (preparedPlan twoJoins))).ops ⟨14,by unfold MAX_OPS; decide⟩).inputs ∧
      ⟨12,by unfold MAX_OPS; decide⟩ ∉ (finalState (findSharedOps true (preparedPlan twoJoins))).used := by
    decide +kernel
  obtain ⟨levels,t,h4⟩ := exists_of_returns (r := findSharedOps true (preparedPlan twoJoins)) (by decide +kernel)
  have hlevels : (match findSharedOps true (preparedPlan twoJoins) with
    | .ok levels _ => decide (SurvivorsInUse levels)
    | .error _ _ => true) = false := by decide +kernel
  rw [h4] at hlost hlevels
  obtain ⟨ho,hk,hc,hcu⟩ := hlost
  refine ⟨_,_,_,levels,t,Registered.start.runCalls _ (by decide +kernel),h1,h2,h3,by decide +kernel,h4,
    of_decide_eq_false hlevels,fun hcons => ?_,_,ho,hk,_,hc,hcu⟩
  exact hcu (hcons.inputs_mem _ ho _ hc)

end AqsiosCoordinator.Physical
