import AqsiosCoordinator.Metadata.BodyReferences
import AqsiosCoordinator.Metadata.SharedMeaning

/-! # The optimized plan computes what the registered plans did

Each pass of the optimizer keeps what outputs and sinks receive, as long as no
operator that sharing has merged away survives a later merge.
-/
namespace AqsiosCoordinator.Physical
open Common Foundation Foundation.Outcome Metadata
variable {α : Type} [DecidableEq α] {I : Interp α} {S : Sources α} {s t u : PlanState} {op i : OpId} {done rest : List OpId}

theorem ResultsKept.refl (s : PlanState) : ResultsKept I S s s := (OutputsKept.refl s).resultsKept

/-- A query source carries what it reads, so that its readers may read that in its place. -/
theorem Removed.resultsKept (h : Removed done rest op i s u) (hs : Sound s) (hk : (s.ops op).body.kind = .querySource) :
    ResultsKept I S s u := by
  intro D hD
  have hself : D op = D i := by
    rw [hD op h.op_mem]
    cases hb : (s.ops op).body <;> simp [hb,Body.kind] at hk
    simp [Operator.meaning,hb,Body.meaning,h.input]
  have hmem : ∀ o ∈ u.used, o ≠ op ∧ o ∈ s.used := by
    intro o ho
    rw [h.erase hs.pool] at ho
    exact hs.pool.nodup.mem_erase_iff.mp ho
  have hreceived (o : OpId) (ho : o ∈ s.used) (hop : o ≠ op) : u.received D o = s.received D o := by
    have hins : (u.ops o).inputs = _ := h.bypassed.inputs o ho hop
    rw [PlanState.received, hins, List.map_map]
    apply List.map_congr_left
    intro c _
    simp only [Function.comp]
    split
    · rename_i hc
      rw [hc, hself]
    · rfl
  have hbody (o : OpId) : (u.ops o).body = (s.ops o).body ∧ (u.ops o).attrs = (s.ops o).attrs := by
    obtain ⟨ins,outs,-,heq⟩ := h.fields o
    rw [heq]
    exact ⟨rfl,rfl⟩
  refine ⟨D,fun o ho => ?_,fun o ho hout => ?_⟩
  · obtain ⟨hop,hos⟩ := hmem o ho
    have hval := hD o hos
    have hrec := hreceived o hos hop
    unfold PlanState.received at hrec
    simp only [ports_inputs, Operator.meaning, hrec, (hbody o).1, (hbody o).2] at hval ⊢
    exact hval
  · have hop : o ≠ op := by
      rintro rfl
      rw [hk] at hout
      cases hout
    refine ⟨?_,(hbody o).1,hreceived o ho hop⟩
    rw [h.erase hs.pool]
    exact (List.mem_erase_of_ne hop).mpr ho

/-- Operators that are added leave the others with what they receive. -/
theorem Later.resultsKept (h : Later s t) (hs : Sound s) (ht : Sound t) : ResultsKept I S s t := by
  intro D hD
  obtain ⟨D',hD'⟩ := exists_meaning I S ht.consistent ht.acyclic
  refine ⟨D',hD',fun o ho _ => ?_⟩
  obtain ⟨qc,ext,heq,-⟩ := h.old o ho
  refine ⟨h.used o ho,by rw [heq],?_⟩
  rw [PlanState.received, heq]
  exact (h.meaning hD').received_eq hD hs.consistent hs.acyclic ho

theorem removeQuerySources_results {a : Unit} (hs : Sound s) (h : removeQuerySources s = .ok a t) : ResultsKept I S s t :=
  removeQuerySources_rule hs (.refl s) (fun _ _ _ _ _ _ hr hk hrem hkept => hkept.trans (hrem.resultsKept hr hk)) h

theorem addSinks_results {a : Unit} (hs : Sound s) (hq : NoQuerySource s) (h : addSinks s = .ok a t) : ResultsKept I S s t := by
  have hlater : Later s t :=
    addSinks_rule hs hq (Later.refl s) (fun _ _ _ _ hr _ hadd hl => Later.trans _ _ _ hl (hadd.later hr.pool)) h
  exact hlater.resultsKept hs (addSinks_sound hs hq h).1

theorem Removed.isOutput {o : OpId} (h : Removed done rest op i s u) (ho : u.IsOutput o) : s.IsOutput o := by
  obtain ⟨ins,outs,-,heq⟩ := h.fields o
  obtain ⟨hu,hk⟩ := ho
  rw [heq] at hk
  exact ⟨h.mem_before hu,hk⟩

theorem mergeSelects_isOutput {o : OpId} {a : Unit} (hs : Sound s) (hq : NoQuerySource s) (hread : AllRead s)
    (h : mergeSelects s = .ok a t) : t.IsOutput o → s.IsOutput o := by
  refine mergeSelects_rule (P := fun r => r.IsOutput o → s.IsOutput o) hs hq hread id
    (fun done op rest i pred body r u _ _ _ _ hinto hrem hr ho => hr ?_) h
  obtain ⟨hused,hk⟩ := hrem.isOutput ho
  refine ⟨hused,?_⟩
  by_cases hoi : o = i
  · subst hoi
    rw [setOp_ops_self] at hk
    exact (selectInto_spec hinto).1.symm.trans hk
  · rwa [setOp_ops_of_ne _ hoi] at hk

theorem addSinks_isOutput {o : OpId} {a : Unit} (hs : Sound s) (hq : NoQuerySource s) (h : addSinks s = .ok a t) :
    t.IsOutput o → s.IsOutput o := by
  refine addSinks_rule (P := fun r => r.IsOutput o → s.IsOutput o) hs hq id (fun op sink r u hrs _ hadd hr ho => hr ?_) h
  rw [hadd.isOutput_iff hrs.pool] at ho
  simpa [Body.kind] using ho

theorem mergeProjectsToJoin_isOutput {o : OpId} {a : Unit} (hs : Plausible s) (hrefs : ProjectsRefer s)
    (h : mergeProjectsToJoin s = .ok a t) (ho : t.IsOutput o) : s.IsOutput o := by
  obtain ⟨_,hrun⟩ := ProjectsMeant.run hs hrefs h
  obtain ⟨ρ,hf⟩ := hrun.fused
  obtain ⟨-,hkept⟩ := hf.unfused ho.1 (by rw [ho.2]; simp)
  exact ⟨(hf.mem o ho.1).1,hkept.body ▸ ho.2⟩

/-- When the run of `findSharedOps` on the prepared plan comes to a level, each operator of its work list
that is in use is found equal to one in use first. -/
def PlanState.SharesOrderly (s : PlanState) : Prop :=
  LevelsOrderly (preparedPlan s).SameComputation (MAX_OPS + 1) (preparedPlan s).dataSources (preparedPlan s)

theorem optimizePlan_ok {sharing : Bool} {a : Unit} (h : optimizePlan sharing s = .ok a t) : ∃ s₁ s₂ levels s₄,
    removeQuerySources s = .ok () s₁ ∧ addSinks s₁ = .ok () s₂ ∧ mergeSelects s₂ = .ok () (preparedPlan s) ∧
      findSharedOps sharing (preparedPlan s) = .ok levels s₄ ∧ mergeProjectsToJoin s₄ = .ok () t := by
  obtain ⟨_,s₁,h1,h⟩ := bind_eq_ok.mp h
  obtain ⟨_,s₂,h2,h⟩ := bind_eq_ok.mp h
  obtain ⟨_,s₃,h3,h⟩ := bind_eq_ok.mp h
  obtain ⟨levels,s₄,h4,h5⟩ := bind_eq_ok.mp h
  have hprepared : preparedPlan s = s₃ := by
    unfold preparedPlan
    rw [h1, finalState_ok, h2, finalState_ok, h3, finalState_ok]
  exact ⟨s₁,s₂,levels,s₄,h1,h2,hprepared ▸ h3,hprepared ▸ h4,h5⟩

structure Optimized (s s₁ s₂ s₃ s₄ t : PlanState) : Prop where
  sound : Sound s
  unsourced : Sound s₁ ∧ NoQuerySource s₁
  sunk : Sound s₂ ∧ NoQuerySource s₂ ∧ AllRead s₂ ∧ s₂.Refers
  selected : Sound s₃ ∧ AllRead s₃
  shared : Plausible s₄ ∧ (∀ o ∈ s₄.used, o ∈ s₃.used) ∧ Retained s₃ s₄ ∧ ProjectsRefer s₄
  joined : Plausible t

theorem optimized {mem : OpId → Operator} {s₁ s₂ s₄ : PlanState} {levels : List (List Merge)} {a : Unit} (hs : Registered mem s)
    (hr : s.Refers) (hlevels : s.SharesOrderly) (h1 : removeQuerySources s = .ok () s₁) (h2 : addSinks s₁ = .ok () s₂)
    (h3 : mergeSelects s₂ = .ok () (preparedPlan s)) (h4 : findSharedOps true (preparedPlan s) = .ok levels s₄)
    (h5 : mergeProjectsToJoin s₄ = .ok a t) : Optimized s s₁ s₂ (preparedPlan s) s₄ t := by
  have hs0 := registered_sound hs
  obtain ⟨hs1,hq1⟩ := removeQuerySources_sound hs0 h1
  obtain ⟨hs2,hq2,hread2⟩ := addSinks_sound hs1 hq1 h2
  obtain ⟨hs3,-,hread3⟩ := mergeSelects_sound hs2 hq2 hread2 h3
  have hr2 := addSinks_bodiesRefer hs1 hq1 (removeQuerySources_bodiesRefer hs0 hr h1) h2
  have hr3 := mergeSelects_bodiesRefer hs2 hq2 hread2 hr2 h3
  obtain ⟨hs4,hused,-⟩ := findSharedOps_leaves hs3 hread3 hlevels h4
  have hretained := findSharedOps_retained hs3 h4
  have hprojects : ProjectsRefer s₄ := by
    intro o ho projs hp
    rw [(hretained.bodies o).1] at hp
    exact hr3.projects o (hused o ho) projs hp
  have hjoined := mergeProjectsToJoin_plausible hs4 h5
  exact ⟨hs0,⟨hs1,hq1⟩,⟨hs2,hq2,hread2,hr2⟩,⟨hs3,hread3⟩,⟨hs4,hused,hretained,hprojects⟩,hjoined⟩

/-- What outputs and sinks of the registered plan receive outlasts the passes. -/
theorem optimizePlan_resultsKept {mem : OpId → Operator} {a : Unit} (hs : Registered mem s) (hr : s.Refers) (hlevels : s.SharesOrderly)
    (hI : I.IgnoresTypes) (h : optimizePlan true s = .ok a t) : Plausible t ∧ ResultsKept I S s t := by
  obtain ⟨s₁,s₂,levels,s₄,h1,h2,h3,h4,h5⟩ := optimizePlan_ok h
  have ho := optimized hs hr hlevels h1 h2 h3 h4 h5
  obtain ⟨_,hselects⟩ := SelectsMeant.run ho.sunk.1 ho.sunk.2.1 ho.sunk.2.2.1 ho.sunk.2.2.2.selects h3
  obtain ⟨_,hjoins⟩ := ProjectsMeant.run ho.shared.1 ho.shared.2.2.2 h5
  have hprepared : ResultsKept I S s (preparedPlan s) :=
    ((removeQuerySources_results ho.sound h1).trans (addSinks_results ho.unsourced.1 ho.unsourced.2 h2)).trans hselects.outputs.resultsKept
  have hshared : ResultsKept I S (preparedPlan s) t :=
    (findSharedOps_results ho.selected.1 ho.selected.2 hlevels hI h4).trans hjoins.outputs.resultsKept
  exact ⟨ho.joined,hprepared.trans hshared⟩

/-- On every registered plan whose operators refer to their inputs, and in whose levels the operators in use
come first: when the optimizer returns, what is left is an acyclic plan, consistent at both ends of its edges,
and every output and sink receives in it what it did in the registered plan. -/
theorem optimizePlan_results {mem : OpId → Operator} {a : Unit} (hs : Registered mem s) (hr : s.Refers) (hlevels : s.SharesOrderly)
    (hI : I.IgnoresTypes) (h : optimizePlan true s = .ok a t) :
    t.ports.Consistent t.used ∧ t.ports.Acyclic t.used ∧ SameResults α I S s t := by
  obtain ⟨ht,hkept⟩ := optimizePlan_resultsKept (S := S) hs hr hlevels hI h
  have hsound := registered_sound hs
  exact ⟨ht.consistent,ht.acyclic,hkept.sameResults hsound.consistent hsound.acyclic ht.consistent ht.acyclic⟩

/-- The optimizer makes no outputs. -/
theorem optimizePlan_isOutput {mem : OpId → Operator} {a : Unit} {o : OpId} (hs : Registered mem s) (hr : s.Refers)
    (hlevels : s.SharesOrderly) (h : optimizePlan true s = .ok a t) (hout : t.IsOutput o) : s.IsOutput o := by
  obtain ⟨s₁,s₂,levels,s₄,h1,h2,h3,h4,h5⟩ := optimizePlan_ok h
  have ho := optimized hs hr hlevels h1 h2 h3 h4 h5
  obtain ⟨hmem,hk⟩ := mergeProjectsToJoin_isOutput ho.shared.1 ho.shared.2.2.2 h5 hout
  have hprepared : (preparedPlan s).IsOutput o := ⟨ho.shared.2.1 o hmem,(ho.shared.2.2.1.bodies o).1 ▸ hk⟩
  have hsunk := mergeSelects_isOutput ho.sunk.1 ho.sunk.2.1 ho.sunk.2.2.1 h3 hprepared
  have hunsourced := addSinks_isOutput ho.unsourced.1 ho.unsourced.2 h2 hsunk
  exact removeQuerySources_rule (P := fun r => r.IsOutput o → s.IsOutput o) ho.sound id
    (fun _ _ _ _ _ _ _ _ hrem hr ho => hr (hrem.isOutput ho)) h1 hunsourced

def Body.refersFirst : Body → Bool
  | .select pred => pred.all fun b => b.attrs.all fun a => a.input = 0
  | .project projs => projs.all fun e => e.attrs.all fun a => a.input = 0
  | _ => true

theorem PlanState.Refers.of_all (h : (s.used.all fun o => (s.ops o).body.refersFirst) = true) : s.Refers := by
  intro o ho
  have hbody := List.all_eq_true.mp h o ho
  cases hb : (s.ops o).body with
  | select pred =>
    rw [hb] at hbody
    intro b hb' a ha
    simpa using List.all_eq_true.mp (List.all_eq_true.mp hbody b hb') a ha
  | project projs =>
    rw [hb] at hbody
    intro e he a ha
    simpa using List.all_eq_true.mp (List.all_eq_true.mp hbody e he) a ha
  | _ => trivial

theorem PlanState.SharesOrderly.of_clear {mem : OpId → Operator} {s₁ s₂ : PlanState} (hs : Registered mem s)
    (h1 : removeQuerySources s = .ok () s₁) (h2 : addSinks s₁ = .ok () s₂) (h3 : mergeSelects s₂ = .ok () (preparedPlan s))
    (hj : JoinsFiltered (preparedPlan s)) (hc : LevelsClear (MAX_OPS + 1) (preparedPlan s).dataSources (preparedPlan s)) : s.SharesOrderly := by
  obtain ⟨hs3,hr3⟩ := prepared_sound hs h1 h2 h3
  exact hs3.levelsOrderly hr3 hj hc

/-- A join of a stream with a view of it, and two queries for the same rows of the stream. -/
def sharedQueries : PlanState := planAfter
  [.addBaseTable streamAndView 0, .addBaseTable streamAndView 1,
    .addLogicalQueryPlan blankUninit 0 windowOfStream false, .map streamAndView 0 2,
    .addLogicalQueryPlan blankUninit 1 streamInView true, .addLogicalQueryPlan blankUninit 2 (positiveRows 1) true,
    .addLogicalQueryPlan blankUninit 3 (positiveRows 1) true]

theorem intInterp_ignoresTypes : intInterp.IgnoresTypes := by
  constructor
  · intro op _ _ _ _
    cases op <;> rfl
  · intro op _ _ _ _ _ _
    cases op <;> rfl

/-- Of the sixteen operators ten are left, and the outputs of the three queries receive what they did. -/
theorem sharedQueries_results : ∃ t, optimizePlan true sharedQueries = .ok () t ∧ sharedQueries.used.length = 16 ∧
    t.used.length = 10 ∧ SameResults ℤ intInterp (oneRow [1]) sharedQueries t := by
  have hreg : Registered blankMemory sharedQueries := Registered.start.runCalls _ (by decide +kernel)
  obtain ⟨s₁,s₂,h1,h2,h3⟩ := preparedPlan_passes (s := sharedQueries) (by decide +kernel)
  have horderly : sharedQueries.SharesOrderly := .of_clear hreg h1 h2 h3 (by decide +kernel) (by decide +kernel)
  have ht := eq_ok_of_returns (r := optimizePlan true sharedQueries) (by decide +kernel)
  obtain ⟨-,-,hsame⟩ := optimizePlan_results hreg (.of_all (by decide +kernel)) horderly intInterp_ignoresTypes ht
  exact ⟨_,ht,by decide +kernel,by decide +kernel,hsame⟩

end AqsiosCoordinator.Physical
