import AqsiosCoordinator.Metadata.SelectMeaning
import AqsiosCoordinator.Querygen.LogPlanGen

/-! # The references of selects

When the attributes of every select of a logical plan are among those of its input, the
attributes of every physical select refer to its input. Otherwise `transformAttr` has no
attribute to return.
-/
namespace AqsiosCoordinator

mutual

/-- Each select has one input, which has all attributes of its predicate. -/
def Logical.Plan.Resolves : Logical.Plan → Prop
  | .node kind _ _ inputs => (∀ bexpr, kind = .select bexpr → ∃ i, inputs = [i] ∧ Logical.Plan.checkReferences i bexpr) ∧
    Logical.Plan.AllResolve inputs

def Logical.Plan.AllResolve : List Logical.Plan → Prop
  | [] => True
  | p :: ps => p.Resolves ∧ Logical.Plan.AllResolve ps

end

namespace Physical
open Common Foundation Foundation.Outcome Metadata

theorem checkReference_attrs {p : Logical.Plan} {e : Logical.Expr} (h : Logical.Plan.checkReference p e = true) :
    ∀ a ∈ e.attrs, p.outAttrs.any (fun b => a.same b) = true := by
  induction e with
  | constVal c => simp [Expr.attrs]
  | attrRef type a => simpa [Expr.attrs,Logical.Plan.checkReference] using h
  | compExpr type op left right hl hr =>
    obtain ⟨h1,h2⟩ := Bool.and_eq_true_iff.mp h
    intro a ha
    exact (List.mem_append.mp ha).elim (hl h1 a) (hr h2 a)

/-- An attribute that the only input has is found there. -/
theorem transformAttr_input {v : Uninit} {schema : List Logical.Attr} {a : Logical.Attr}
    (h : schema.any (fun b => a.same b) = true) : (transformAttr v [schema] a).input = 0 := by
  have hfound : ∃ pos, schema.findIdx? (fun b => a.same b) = some pos := by
    rw [← Option.isSome_iff_exists, List.findIdx?_isSome]
    exact h
  obtain ⟨pos,hpos⟩ := hfound
  simp [transformAttr,findAttr,hpos]

theorem attrs_map {A B : Type} (f : A → B) (e : Common.Expr A) : (e.map f).attrs = e.attrs.map f := by
  induction e with
  | constVal c => rfl
  | attrRef type a => rfl
  | compExpr type op left right hl hr => simp [Common.Expr.map,Common.Expr.attrs,hl,hr]

theorem transformedBExpr_refers {v : Uninit} {i : Logical.Plan} {bexpr : Logical.BExpr}
    (h : Logical.Plan.checkReferences i bexpr = true) : PredRefers [transformedBExpr v [i.outAttrs] bexpr] := by
  obtain ⟨hl,hr⟩ := Bool.and_eq_true_iff.mp h
  intro b hb a ha
  obtain rfl := List.mem_singleton.mp hb
  simp only [transformedBExpr, BExpr.attrs, attrs_map, ← List.map_append, List.mem_map] at ha
  obtain ⟨x,hx,rfl⟩ := ha
  refine transformAttr_input ?_
  exact (List.mem_append.mp hx).elim (checkReference_attrs hl x) (checkReference_attrs hr x)

variable {s t u : PlanState} {op i : OpId} {v : Uninit}

theorem Added.selectsRefer {body : Body} {attrs : List Column} {bStream : Bool} {inputs : List OpId}
    (h : Added op body attrs bStream inputs s t) (hs : SelectsRefer s) (hb : ∀ pred, body = .select pred → PredRefers pred) :
    SelectsRefer t := by
  intro o ho pred hp
  by_cases hop : o = op
  · subst hop
    rw [h.self] at hp
    exact hb pred hp
  · rw [h.other o hop] at hp
    rw [h.used] at ho
    exact hs o (List.mem_of_ne_of_mem hop ho) pred hp

theorem SelectGrown.selectsRefer {child : OpId} {pred : BExpr} (h : SelectGrown child pred s t) (hs : SelectsRefer s)
    (hp : PredRefers [pred]) : SelectsRefer t := by
  obtain ⟨preds,hbody,hself⟩ := h.self
  intro o ho q hq
  rw [h.used] at ho
  by_cases hoc : o = child
  · subst hoc
    rw [hself] at hq
    obtain rfl := Body.select.inj hq
    exact hp.append (hs o ho preds hbody)
  · rw [h.other o hoc] at hq
    exact hs o ho q hq

theorem SelectsRefer.of_bodies (hs : SelectsRefer s) (hused : t.used = s.used) (hb : ∀ o, (t.ops o).body = (s.ops o).body) :
    SelectsRefer t := by
  intro o ho pred hp
  rw [hused] at ho
  rw [hb] at hp
  exact hs o ho pred hp

theorem mkOperator_refers {kind : Logical.Kind} {n : ℕ} {children : List OpId} {inputs : List Logical.Plan}
    (hpool : PoolInv s) (hc : ∀ c ∈ children, c ∈ s.used) (hs : SelectsRefer s)
    (hsel : ∀ bexpr, kind = .select bexpr → ∃ i, inputs = [i] ∧ Logical.Plan.checkReferences i bexpr)
    (h : mkOperator v kind n (inputs.map Logical.Plan.outAttrs) children s = .ok op t) : SelectsRefer t := by
  have hunary (body : Body) {f : Bool → Bool} (hb : body.kind ≠ .select)
      (h : (do mkUnary body f (← phyChild children 0)) s = .ok op t) : SelectsRefer t := by
    obtain ⟨child,hchild,h⟩ := ofChild_ok h
    refine (mkUnary_ok hpool (hc child (List.mem_of_getElem? hchild)) h).selectsRefer hs fun pred hp => ?_
    rw [hp] at hb
    exact absurd rfl hb
  have hset (body : Body) (f : Bool → Bool → Bool) (hb : body.kind ≠ .select) (h : mkSetOp body f v children s = .ok op t) :
      SelectsRefer t := by
    obtain ⟨_,_,-,-,hadd⟩ := mkSetOp_ok hpool hc h
    refine hadd.selectsRefer hs fun pred hp => ?_
    rw [hp] at hb
    exact absurd rfl hb
  cases kind with
  | streamSource varId strId =>
    cases h
    exact hs
  | relnSource varId relId =>
    cases h
    exact hs
  | rowWin numRows => exact hunary (.rowWin numRows) (by simp [Body.kind]) h
  | rangeWin timeUnits => exact hunary (.rangeWin timeUnits) (by simp [Body.kind]) h
  | nowWin => exact hunary (.rangeWin 1) (by simp [Body.kind]) h
  | partnWin partnAttrs numRows =>
    obtain ⟨_,_,h1,h2⟩ := bind_eq_ok.mp h
    obtain ⟨-,rfl⟩ := failIf_eq_ok.mp h1
    exact hunary (.partnWin _ numRows) (by simp [Body.kind]) h2
  | select bexpr =>
    obtain ⟨i,rfl,hi⟩ := hsel bexpr rfl
    have hrefs : PredRefers [transformedBExpr v [i.outAttrs] bexpr] := transformedBExpr_refers hi
    obtain ⟨child,hchild,⟨rfl,hgrown⟩ | ⟨-,hadd⟩⟩ := mkSelect_ok hpool hc h
    · exact hgrown.selectsRefer hs hrefs
    · refine hadd.selectsRefer hs fun pred hp => ?_
      obtain rfl := Body.select.inj hp
      exact hrefs
  | project projExprs =>
    obtain ⟨-,-,child,hchild,hadd⟩ := mkProject_ok hpool hc h
    exact hadd.selectsRefer hs (by simp)
  | cross =>
    simp only [mkOperator] at h
    split at h
    · simp at h
    · obtain ⟨_,_,-,-,hadd⟩ := mkBinaryJoin_ok hpool hc h
      exact hadd.selectsRefer hs (by simp)
  | streamCross =>
    simp only [mkOperator] at h
    split at h
    · simp at h
    · obtain ⟨_,_,-,-,hadd⟩ := mkBinaryJoin_ok hpool hc h
      exact hadd.selectsRefer hs (by simp)
  | groupAggr groupAttrs aggrs =>
    obtain ⟨child,hchild,hadd⟩ := mkGroupAggr_ok hpool hc h
    exact hadd.selectsRefer hs (by simp)
  | distinct => exact hunary .distinct (by simp [Body.kind]) h
  | istream => exact hunary .istream (by simp [Body.kind]) h
  | dstream => exact hunary .dstream (by simp [Body.kind]) h
  | rstream => exact hunary .rstream (by simp [Body.kind]) h
  | union => exact hset .union (fun l r => l && r) (by simp [Body.kind]) h
  | except => exact hset .except (fun _ _ => false) (by simp [Body.kind]) h

mutual

theorem genPhysicalPlan_refers : (p : Logical.Plan) → p.Resolves → {s t : PlanState} → {op : OpId} → PoolInv s →
    (∀ id, lookupSource id s.sourceOps ∈ s.used) → SelectsRefer s → genPhysicalPlan v p s = .ok op t →
    Built s t ∧ SelectsRefer t ∧ op ∈ t.used
  | .node kind outAttrs bStream inputs, hp, s, t, op, hs, hsrc, hr, h => by
    unfold Logical.Plan.Resolves at hp
    unfold genPhysicalPlan at h
    obtain ⟨children,r,h1,h2⟩ := bind_eq_ok.mp h
    obtain ⟨hb,hrefs,hc⟩ := genChildPlans_refers inputs hp.2 hs hsrc hr h1
    have hmade := mkOperator_made (hb.pool hs) hc h2
    obtain ⟨hb',hop⟩ := hmade.built (lookupSource_mem hsrc hb) hc
    exact ⟨hb.trans hb',mkOperator_refers (hb.pool hs) hc hrefs hp.1 h2,hop⟩

theorem genChildPlans_refers : (ps : List Logical.Plan) → Logical.Plan.AllResolve ps → {s t : PlanState} →
    {children : List OpId} → PoolInv s → (∀ id, lookupSource id s.sourceOps ∈ s.used) → SelectsRefer s →
    genChildPlans v ps s = .ok children t → Built s t ∧ SelectsRefer t ∧ ∀ c ∈ children, c ∈ t.used
  | [], _, s, t, children, _, _, hr, h => by
    unfold genChildPlans at h
    obtain ⟨rfl,rfl⟩ := pure_eq_ok.mp h
    exact ⟨.refl,hr,by simp⟩
  | p :: ps, hps, s, t, children, hs, hsrc, hr, h => by
    unfold Logical.Plan.AllResolve at hps
    unfold genChildPlans at h
    obtain ⟨c,r,h1,h2⟩ := bind_eq_ok.mp h
    obtain ⟨cs,r',h3,h4⟩ := bind_eq_ok.mp h2
    obtain ⟨rfl,rfl⟩ := pure_eq_ok.mp h4
    obtain ⟨hb,hrefs,hc⟩ := genPhysicalPlan_refers p hps.1 hs hsrc hr h1
    obtain ⟨hb',hrefs',hcs⟩ := genChildPlans_refers ps hps.2 (hb.pool hs) (lookupSource_mem hsrc hb) hrefs h3
    refine ⟨hb.trans hb',hrefs',fun x hx => ?_⟩
    rcases List.mem_cons.mp hx with rfl | hx
    · exact hb'.used_mono _ hc
    · exact hcs x hx

end

def Call.Resolves : Call → Prop
  | .addLogicalQueryPlan _ _ logPlan _ => logPlan.Resolves
  | _ => True

/-- The states that registration reaches when every call returns and every plan resolves. -/
inductive ResolvedRegistration (mem : OpId → Operator) : PlanState → Prop where
  | start : ResolvedRegistration mem (newPlanManager mem)
  | call {s t : PlanState} (h : ResolvedRegistration mem s) (c : Call) (hr : c.Resolves) (hc : c.run s = .ok () t) : ResolvedRegistration mem t

theorem ResolvedRegistration.registered {mem : OpId → Operator} (h : ResolvedRegistration mem s) : Registered mem s := by
  induction h with
  | start => exact .start
  | call _ c _ hc ih => exact ih.call c hc

theorem ResolvedRegistration.runCalls {mem : OpId → Operator} (h : ResolvedRegistration mem s) (cs : List Call)
    (hr : ∀ c ∈ cs, c.Resolves) (hc : Physical.runCalls cs s = .ok () t) : ResolvedRegistration mem t := by
  induction cs generalizing s with
  | nil =>
    obtain ⟨-,rfl⟩ := pure_eq_ok.mp hc
    exact h
  | cons c cs ih =>
    obtain ⟨_,r,h1,h2⟩ := bind_eq_ok.mp hc
    exact ih (h.call c (hr c List.mem_cons_self) h1) (fun d hd => hr d (List.mem_cons_of_mem _ hd)) h2

theorem QueryAdded.refers {queryId : ℕ} {logPlan : Logical.Plan} {output : Bool} (hs : PoolInv s)
    (hsrc : ∀ id, lookupSource id s.sourceOps ∈ s.used) (hr : SelectsRefer s) (hp : logPlan.Resolves)
    (h : QueryAdded v queryId logPlan s output t) : SelectsRefer t := by
  cases h with
  | inner hplan hqry =>
    obtain ⟨-,hrefs,-⟩ := genPhysicalPlan_refers logPlan hp hs hsrc hr hplan
    exact (hqry.selectsRefer hrefs (by simp)).of_bodies rfl fun _ => rfl
  | outer hplan hqry hout hclass =>
    obtain ⟨-,hrefs,-⟩ := genPhysicalPlan_refers logPlan hp hs hsrc hr hplan
    have h2 := (hqry.selectsRefer hrefs (by simp)).of_bodies rfl fun _ => rfl
    obtain ⟨f,rfl⟩ := hclass
    exact (hout.selectsRefer h2 (by simp)).of_bodies rfl fun _ => rfl

theorem ResolvedRegistration.selectsRefer {mem : OpId → Operator} (h : ResolvedRegistration mem s) : SelectsRefer s := by
  induction h with
  | start =>
    obtain ⟨-,hused,hop,-⟩ := newPlanManager_started mem
    intro o ho pred hp
    rw [hused, List.mem_singleton] at ho
    rw [ho, hop] at hp
    cases hp
  | @call s t h c hr hc ih =>
    have hs := registered_sound h.registered
    have hreg := reachable_regInv h.registered.reachable
    cases c with
    | addBaseTable tableMgr tableId =>
      obtain ⟨op,s',hadd,rfl⟩ := addBaseTable_ok hs.pool hc
      refine (hadd.selectsRefer ih fun pred hp => ?_).of_bodies rfl fun _ => rfl
      split at hp <;> cases hp
    | addLogicalQueryPlan u queryId logPlan output =>
      exact (addLogicalQueryPlan_ok hs.pool hreg.lookupSource_mem hc).refers hs.pool hreg.lookupSource_mem ih hr
    | map tableMgr queryId tableId =>
      obtain ⟨_,_,-,-,rfl⟩ := map_ok hc
      exact ih.of_bodies rfl fun _ => rfl
    | setQueryClass queryClass =>
      obtain rfl := modify_eq_ok.mp hc
      exact ih.of_bodies rfl fun _ => rfl

theorem Removed.selectsRefer {done rest : List OpId} (h : Removed done rest op i s u) (hs : SelectsRefer s) :
    SelectsRefer u := by
  intro o ho pred hp
  obtain ⟨ins,outs,-,heq⟩ := h.fields o
  rw [heq] at hp
  exact hs o (h.mem_before ho) pred hp

theorem removeQuerySources_refers {a : Unit} (hs : Sound s) (hr : SelectsRefer s) (h : removeQuerySources s = .ok a t) :
    SelectsRefer t := by
  obtain ⟨_,_,h1,h⟩ := bind_eq_ok.mp h
  obtain ⟨rfl,rfl⟩ := get_eq_ok.mp h1
  rw [hs.pool.usedList.head_eq] at h
  have hstart : QuerySourcesRemoved [] s.used s ∧ SelectsRefer s := ⟨⟨hs,rfl,by simp⟩,hr⟩
  have hrun : ∃ kept, QuerySourcesRemoved kept [] t ∧ SelectsRefer t := by
    refine removeWhere_rule (I := fun done rest r => QuerySourcesRemoved done rest r ∧ SelectsRefer r)
      (fun _ _ _ h => ⟨h.1.sound.pool,h.1.used⟩) (fun done op rest r r' hr hm => ?_)
      (fun done op rest r r' r'' next hr hm hrem => ?_) hstart h
    · obtain ⟨hk,rfl⟩ := isQuerySource_ok.mp hm
      exact ⟨hr.1.keep (by simpa using hk),hr.2⟩
    · obtain ⟨hk,rfl⟩ := isQuerySource_ok.mp hm
      obtain ⟨hnext,hremoved⟩ := hr.1.remove (by simpa using hk) hrem
      obtain ⟨-,i,hi⟩ := hr.1.removed (by simpa using hk) hrem
      exact ⟨hnext,hremoved,hi.selectsRefer hr.2⟩
  exact hrun.elim fun _ h => h.2

theorem addSinks_refers {a : Unit} (hs : Sound s) (hq : NoQuerySource s) (hr : SelectsRefer s)
    (h : addSinks s = .ok a t) : SelectsRefer t := by
  obtain ⟨_,_,h1,h⟩ := bind_eq_ok.mp h
  obtain ⟨rfl,rfl⟩ := get_eq_ok.mp h1
  rw [hs.pool.usedList.head_eq] at h
  have hrun : SinksAdded [] t ∧ SelectsRefer t := by
    refine addSinksFrom_rule (I := fun rest r => SinksAdded rest r ∧ SelectsRefer r)
      (fun _ _ h => ⟨h.1.sound.pool,h.1.used.imp fun _ h => h.1⟩) (fun _ _ _ h hn => ⟨h.1.skip hn,h.2⟩)
      (fun op rest r sink r' h hm => ?_) ⟨⟨hs,hq,[],rfl,by simp⟩,hr⟩ h
    obtain ⟨done,hused,-⟩ := h.1.used
    have hop : op ∈ r.used := by simp [hused]
    exact ⟨h.1.add hm,(mkUnary_ok h.1.sound.pool hop hm).selectsRefer h.2 (by simp)⟩
  exact hrun.2

/-- After `mergeSelects` every output and sink receives what it did, whatever the tables
hold and the operations mean. -/
theorem mergeSelects_meaning {mem : OpId → Operator} {s₀ s₁ s₂ s₃ : PlanState} (h₀ : ResolvedRegistration mem s₀)
    (h₁ : removeQuerySources s₀ = .ok () s₁) (h₂ : addSinks s₁ = .ok () s₂) (h₃ : mergeSelects s₂ = .ok () s₃)
    (α : Type) [DecidableEq α] (I : Interp α) (S : Sources α) :
    SameResults α I S s₂ s₃ := by
  have hs0 := registered_sound h₀.registered
  obtain ⟨hs1,hq1⟩ := removeQuerySources_sound hs0 h₁
  obtain ⟨hs2,hq2,hr2⟩ := addSinks_sound hs1 hq1 h₂
  obtain ⟨hs3,-,-⟩ := mergeSelects_sound hs2 hq2 hr2 h₃
  have hrefs := addSinks_refers hs1 hq1 (removeQuerySources_refers hs0 h₀.selectsRefer h₁) h₂
  obtain ⟨kept,hrun⟩ := SelectsMeant.run hs2 hq2 hr2 hrefs h₃
  exact hrun.outputs.sameResults hs2.consistent hs2.acyclic hs3.consistent hs3.acyclic I S

theorem twoJoins_resolved : ResolvedRegistration blankMemory twoJoins := by
  refine ResolvedRegistration.start.runCalls _ (fun c hc => ?_) (eq_ok_of_returns (by decide +kernel))
  simp only [List.mem_cons, List.not_mem_nil, or_false] at hc
  rcases hc with rfl | rfl | rfl | rfl | rfl | rfl <;>
    simp [Call.Resolves,windowOfStream,streamInView,Logical.Plan.Resolves,Logical.Plan.AllResolve,
      Logical.Plan.checkReferences,Logical.Plan.checkReference,Logical.Plan.outAttrs,Logical.Attr.same]

/-- The selects of two queries become part of their joins. -/
theorem twoJoins_meaning : ∃ s₂ s₃, mergeSelects s₂ = .ok () s₃ ∧ SameResults ℤ intInterp (oneRow [1]) s₂ s₃ := by
  obtain ⟨s₁,s₂,h1,h2,h3⟩ := preparedPlan_passes (s := twoJoins) (by decide +kernel)
  exact ⟨s₂,_,h3,mergeSelects_meaning twoJoins_resolved h1 h2 h3 ℤ intInterp (oneRow [1])⟩

end Physical
end AqsiosCoordinator
