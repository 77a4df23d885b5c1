import AqsiosCoordinator.Metadata.RegisteredQueries
import AqsiosCoordinator.Metadata.ProjectMeaning
import AqsiosCoordinator.Metadata.SelectReferences

/-! # The references of operators with one input

The selects and projects that are generated for a well-formed plan refer to their only
input, and the passes over the plan keep it so.
-/
namespace AqsiosCoordinator.Physical
open Common Foundation Foundation.Outcome Metadata
open Logical.Plan (WellFormed References)
variable {s t u : PlanState} {op i : OpId} {v : Uninit} {tableMgr : TableManager} {done rest : List OpId}

def Body.Refers : Body → Prop
  | .select pred => PredRefers pred
  | .project projs => ExprsRefer projs
  | _ => True

def PlanState.Refers (s : PlanState) : Prop := ∀ o ∈ s.used, (s.ops o).body.Refers

theorem PlanState.Refers.selects (h : s.Refers) : SelectsRefer s := by
  intro o ho pred hp
  have hbody := h o ho
  rwa [hp] at hbody

theorem PlanState.Refers.projects (h : s.Refers) : ProjectsRefer s := by
  intro o ho projs hp
  have hbody := h o ho
  rwa [hp] at hbody

theorem transformed_refers {schema : List Logical.Attr} {es : List Logical.Expr}
    (h : ∀ a ∈ es.flatMap Expr.attrs, schema.any (fun b => a.same b) = true) :
    ExprsRefer (es.map (Expr.map (transformAttr v [schema]))) := by
  intro e he a ha
  obtain ⟨x,hx,rfl⟩ := List.mem_map.mp he
  rw [attrs_map] at ha
  obtain ⟨y,hy,rfl⟩ := List.mem_map.mp ha
  exact transformAttr_input (h y (List.mem_flatMap.mpr ⟨x,hx,hy⟩))

theorem Added.refers {body : Body} {attrs : List Column} {bStream : Bool} {inputs : List OpId}
    (h : Added op body attrs bStream inputs s t) (hs : s.Refers) (hb : body.Refers) : t.Refers := by
  intro o ho
  by_cases hop : o = op
  · subst hop
    rw [h.self]
    exact hb
  · rw [h.other o hop]
    rw [h.used] at ho
    exact hs o (List.mem_of_ne_of_mem hop ho)

theorem PlanState.Refers.of_bodies (hs : s.Refers) (hused : t.used = s.used) (hb : ∀ o, (t.ops o).body = (s.ops o).body) : t.Refers := by
  intro o ho
  rw [hused] at ho
  rw [hb]
  exact hs o ho

theorem SelectGrown.refers {child : OpId} {pred : BExpr} (h : SelectGrown child pred s t) (hs : s.Refers) (hp : PredRefers [pred]) :
    t.Refers := by
  obtain ⟨preds,hbody,hself⟩ := h.self
  intro o ho
  rw [h.used] at ho
  by_cases hoc : o = child
  · subst hoc
    rw [hself]
    exact hp.append (hs.selects o ho preds hbody)
  · rw [h.other o hoc]
    exact hs o ho

theorem mkOperator_bodiesRefer {kind : Logical.Kind} {outAttrs : List Logical.Attr} {bStream : Bool} {inputs : List Logical.Plan}
    {children : List OpId} (hpool : PoolInv s) (hc : ∀ c ∈ children, c ∈ s.used) (hs : s.Refers)
    (hp : WellFormed tableMgr (.node kind outAttrs bStream inputs))
    (h : mkOperator v kind outAttrs.length (inputs.map Logical.Plan.outAttrs) children s = .ok op t) : t.Refers := by
  obtain ⟨⟨hderives,-⟩,-⟩ := Logical.Plan.everywhere_node.mp hp.derived
  obtain ⟨hfinds,-⟩ := Logical.Plan.everywhere_node.mp hp.references
  have hunary (body : Body) {f : Bool → Bool} (hb : body.Refers) (h : (do mkUnary body f (← phyChild children 0)) s = .ok op t) :
      t.Refers := by
    obtain ⟨child,hchild,h⟩ := ofChild_ok h
    exact (mkUnary_ok hpool (hc child (List.mem_of_getElem? hchild)) h).refers hs hb
  have hset (body : Body) (f : Bool → Bool → Bool) (hb : body.Refers) (h : mkSetOp body f v children s = .ok op t) : t.Refers := by
    obtain ⟨_,_,-,-,hadd⟩ := mkSetOp_ok hpool hc h
    exact hadd.refers hs hb
  cases kind with
  | streamSource varId strId =>
    cases h
    exact hs
  | relnSource varId relId =>
    cases h
    exact hs
  | rowWin numRows => exact hunary (.rowWin numRows) trivial h
  | rangeWin timeUnits => exact hunary (.rangeWin timeUnits) trivial h
  | nowWin => exact hunary (.rangeWin 1) trivial h
  | partnWin partnAttrs numRows =>
    obtain ⟨_,_,h1,h2⟩ := bind_eq_ok.mp h
    obtain ⟨-,rfl⟩ := failIf_eq_ok.mp h1
    exact hunary (.partnWin _ numRows) trivial h2
  | select bexpr =>
    obtain ⟨i,rfl,hi⟩ := List.map_eq_singleton_iff.mp hderives
    have hrefs : PredRefers [transformedBExpr v [i.outAttrs] bexpr] :=
      transformedBExpr_refers (Logical.Plan.checkReferences_iff.mpr hfinds)
    obtain ⟨child,hchild,⟨rfl,hgrown⟩ | ⟨-,hadd⟩⟩ := mkSelect_ok hpool hc h
    · exact hgrown.refers hs hrefs
    · exact hadd.refers hs hrefs
  | project projExprs =>
    obtain ⟨i,rfl⟩ := List.length_eq_one_iff.mp (by simpa using hderives.1)
    obtain ⟨-,-,child,hchild,hadd⟩ := mkProject_ok hpool hc h
    apply hadd.refers hs
    apply transformed_refers
    intro a ha
    obtain ⟨e,he,hae⟩ := List.mem_flatMap.mp ha
    exact Logical.Plan.finds_single.mp hfinds a (List.mem_flatMap.mpr ⟨e,List.mem_of_mem_take he,hae⟩)
  | cross =>
    simp only [mkOperator] at h
    split at h
    · simp at h
    · obtain ⟨_,_,-,-,hadd⟩ := mkBinaryJoin_ok hpool hc h
      exact hadd.refers hs trivial
  | streamCross =>
    simp only [mkOperator] at h
    split at h
    · simp at h
    · obtain ⟨_,_,-,-,hadd⟩ := mkBinaryJoin_ok hpool hc h
      exact hadd.refers hs trivial
  | groupAggr groupAttrs aggrs =>
    obtain ⟨child,hchild,hadd⟩ := mkGroupAggr_ok hpool hc h
    exact hadd.refers hs trivial
  | distinct => exact hunary .distinct trivial h
  | istream => exact hunary .istream trivial h
  | dstream => exact hunary .dstream trivial h
  | rstream => exact hunary .rstream trivial h
  | union => exact hset .union (fun l r => l && r) trivial h
  | except => exact hset .except (fun _ _ => false) trivial h

mutual

theorem genPhysicalPlan_bodiesRefer : (p : Logical.Plan) → {s t : PlanState} → {op : OpId} → PoolInv s →
    (∀ id, lookupSource id s.sourceOps ∈ s.used) → s.Refers → WellFormed tableMgr p → genPhysicalPlan v p s = .ok op t → t.Refers
  | .node kind outAttrs bStream inputs, s, t, op, hs, hsrc, hr, hp, h => by
    unfold genPhysicalPlan at h
    obtain ⟨children,r,h1,h2⟩ := bind_eq_ok.mp h
    obtain ⟨hbuilt,hrefs,hc⟩ := genChildPlans_bodiesRefer inputs hs hsrc hr hp.inputs h1
    exact mkOperator_bodiesRefer (hbuilt.pool hs) hc hrefs hp h2

theorem genChildPlans_bodiesRefer : (ps : List Logical.Plan) → {s t : PlanState} → {children : List OpId} → PoolInv s →
    (∀ id, lookupSource id s.sourceOps ∈ s.used) → s.Refers → (∀ p ∈ ps, WellFormed tableMgr p) →
    genChildPlans v ps s = .ok children t → Built s t ∧ t.Refers ∧ ∀ c ∈ children, c ∈ t.used
  | [], s, t, children, _, _, hr, _, h => by
    unfold genChildPlans at h
    obtain ⟨rfl,rfl⟩ := pure_eq_ok.mp h
    exact ⟨.refl,hr,by simp⟩
  | p :: ps, s, t, children, hs, hsrc, hr, hp, h => by
    unfold genChildPlans at h
    obtain ⟨c,r,h1,h2⟩ := bind_eq_ok.mp h
    obtain ⟨cs,_,h3,h4⟩ := bind_eq_ok.mp h2
    obtain ⟨rfl,rfl⟩ := pure_eq_ok.mp h4
    have hrefs := genPhysicalPlan_bodiesRefer p hs hsrc hr (hp p List.mem_cons_self) h1
    obtain ⟨hb,hc⟩ := genPhysicalPlan_built p hs hsrc h1
    obtain ⟨hb',hrefs',hcs⟩ := genChildPlans_bodiesRefer ps (hb.pool hs) (lookupSource_mem hsrc hb) hrefs
      (fun q hq => hp q (List.mem_cons_of_mem _ hq)) h3
    refine ⟨hb.trans hb',hrefs',fun x hx => ?_⟩
    rcases List.mem_cons.mp hx with rfl | hx
    · exact hb'.used_mono _ hc
    · exact hcs x hx

end

theorem newPlanManager_refers (mem : OpId → Operator) : (newPlanManager mem).Refers := by
  obtain ⟨-,hused,hop,-⟩ := newPlanManager_started mem
  intro o ho
  rw [hused, List.mem_singleton] at ho
  rw [ho, hop]
  trivial

theorem addBaseTable_refers {tableId : ℕ} {a : Unit} (hs : PoolInv s) (hr : s.Refers) (h : addBaseTable tableMgr tableId s = .ok a t) :
    t.Refers := by
  obtain ⟨op,s',hadd,rfl⟩ := addBaseTable_ok hs h
  refine (hadd.refers hr ?_).of_bodies rfl fun _ => rfl
  split
  · trivial
  · trivial

theorem map_refers {queryId tableId : ℕ} {a : Unit} (hr : s.Refers) (h : map tableMgr queryId tableId s = .ok a t) : t.Refers := by
  obtain ⟨_,_,-,-,rfl⟩ := map_ok h
  exact hr.of_bodies rfl fun _ => rfl

theorem addLogicalQueryPlan_refers {queryId : ℕ} {p : Logical.Plan} {output : Bool} {a : Unit} (hs : PoolInv s)
    (hsrc : ∀ id, lookupSource id s.sourceOps ∈ s.used) (hr : s.Refers) (hp : WellFormed tableMgr p)
    (h : addLogicalQueryPlan v queryId p output s = .ok a t) : t.Refers := by
  cases addLogicalQueryPlan_ok hs hsrc h with
  | inner hplan hqry =>
    exact (hqry.refers (genPhysicalPlan_bodiesRefer p hs hsrc hr hp hplan) trivial).of_bodies rfl fun _ => rfl
  | outer hplan hqry hout hclass =>
    have h2 := (hqry.refers (genPhysicalPlan_bodiesRefer p hs hsrc hr hp hplan) trivial).of_bodies rfl fun _ => rfl
    obtain ⟨f,rfl⟩ := hclass
    exact (hout.refers h2 trivial).of_bodies rfl fun _ => rfl

theorem Removed.refers (h : Removed done rest op i s u) (hs : s.Refers) : u.Refers := by
  intro o ho
  obtain ⟨ins,outs,-,heq⟩ := h.fields o
  rw [heq]
  exact hs o (h.mem_before ho)

/-- What taking one query source out keeps, the pass keeps. -/
theorem removeQuerySources_rule {P : PlanState → Prop} {a : Unit} (hs : Sound s) (hP : P s)
    (hstep : ∀ done op rest i r u, Sound r → (r.ops op).body.kind = .querySource → Removed done rest op i r u → P r → P u)
    (h : removeQuerySources s = .ok a t) : P t := by
  obtain ⟨_,_,h1,h⟩ := bind_eq_ok.mp h
  obtain ⟨rfl,rfl⟩ := get_eq_ok.mp h1
  rw [hs.pool.usedList.head_eq] at h
  have hstart : QuerySourcesRemoved [] s.used s ∧ P s := ⟨⟨hs,rfl,by simp⟩,hP⟩
  have hrun : ∃ kept, QuerySourcesRemoved kept [] t ∧ P t := by
    refine removeWhere_rule (I := fun done rest r => QuerySourcesRemoved done rest r ∧ P r)
      (fun _ _ _ h => ⟨h.1.sound.pool,h.1.used⟩) (fun done op rest r r' hr hm => ?_)
      (fun done op rest r r' r'' next hr hm hrem => ?_) hstart h
    · obtain ⟨hk,rfl⟩ := isQuerySource_ok.mp hm
      exact ⟨hr.1.keep (by simpa using hk),hr.2⟩
    · obtain ⟨hk,rfl⟩ := isQuerySource_ok.mp hm
      have hkind : (r.ops op).body.kind = .querySource := by simpa using hk
      obtain ⟨hnext,hremoved⟩ := hr.1.remove hkind hrem
      obtain ⟨-,i,hi⟩ := hr.1.removed hkind hrem
      exact ⟨hnext,hremoved,hstep done op rest i r r'' hr.1.sound hkind hi hr.2⟩
  exact hrun.elim fun _ h => h.2

/-- What adding one sink keeps, the pass keeps. -/
theorem addSinks_rule {P : PlanState → Prop} {a : Unit} (hs : Sound s) (hq : NoQuerySource s) (hP : P s)
    (hstep : ∀ op sink r u, Sound r → op ∈ r.used →
      Added sink .sink (r.ops op).attrs (r.ops op).bStream [op] r u → P r → P u)
    (h : addSinks s = .ok a t) : P t := by
  obtain ⟨_,_,h1,h⟩ := bind_eq_ok.mp h
  obtain ⟨rfl,rfl⟩ := get_eq_ok.mp h1
  rw [hs.pool.usedList.head_eq] at h
  have hrun : SinksAdded [] t ∧ P t := by
    refine addSinksFrom_rule (I := fun rest r => SinksAdded rest r ∧ P r)
      (fun _ _ h => ⟨h.1.sound.pool,h.1.used.imp fun _ h => h.1⟩) (fun _ _ _ h hn => ⟨h.1.skip hn,h.2⟩)
      (fun op rest r sink r' h hm => ?_) ⟨⟨hs,hq,[],rfl,by simp⟩,hP⟩ h
    obtain ⟨done,hused,-⟩ := h.1.used
    have hop : op ∈ r.used := by simp [hused]
    exact ⟨h.1.add hm,hstep op sink r r' h.1.sound hop (mkUnary_ok h.1.sound.pool hop hm) h.2⟩
  exact hrun.2

/-- What merging one select keeps, the pass keeps. -/
theorem mergeSelects_rule {P : PlanState → Prop} {a : Unit} (hs : Sound s) (hq : NoQuerySource s) (hread : AllRead s) (hP : P s)
    (hstep : ∀ done op rest i pred body r u, Sound r → op ∈ r.used → (r.ops op).body = .select pred → (r.ops op).inputs = [i] →
      selectInto pred (r.ops i).body = some body → Removed done rest op i (r.setOp i { r.ops i with body := body }) u → P r → P u)
    (h : mergeSelects s = .ok a t) : P t := by
  obtain ⟨_,_,h1,h⟩ := bind_eq_ok.mp h
  obtain ⟨rfl,rfl⟩ := get_eq_ok.mp h1
  rw [hs.pool.usedList.head_eq] at h
  have hstart : SelectsMerged [] s.used s ∧ P s := ⟨⟨hs,hq,hread,rfl⟩,hP⟩
  have hrun : ∃ kept, SelectsMerged kept [] t ∧ P t := by
    refine removeWhere_rule (I := fun done rest r => SelectsMerged done rest r ∧ P r)
      (fun _ _ _ h => ⟨h.1.sound.pool,h.1.used⟩) (fun done op rest r r' hr hm => ?_)
      (fun done op rest r r' r'' next hr hm hrem => ?_) hstart h
    · rcases mergeSelect_ok hm with ⟨-,rfl⟩ | ⟨_,_,_,_,he,-⟩
      · exact ⟨⟨hr.1.sound,hr.1.noQuery,hr.1.allRead,by simpa using hr.1.used⟩,hr.2⟩
      · simp at he
    · obtain ⟨hnext,pred,i,body,hbody,hin,-,-,hinto,rfl,-,hremoved⟩ := hr.1.removed hm hrem
      have hop : op ∈ r.used := by simp [hr.1.used]
      exact ⟨hnext,(hr.1.merge hm hrem).2,hstep done op rest i pred body r r'' hr.1.sound hop hbody hin hinto hremoved hr.2⟩
  exact hrun.elim fun _ h => h.2

theorem removeQuerySources_bodiesRefer {a : Unit} (hs : Sound s) (hr : s.Refers) (h : removeQuerySources s = .ok a t) : t.Refers :=
  removeQuerySources_rule hs hr (fun _ _ _ _ _ _ _ _ hrem hr => hrem.refers hr) h

theorem addSinks_bodiesRefer {a : Unit} (hs : Sound s) (hq : NoQuerySource s) (hr : s.Refers) (h : addSinks s = .ok a t) : t.Refers :=
  addSinks_rule hs hq hr (fun _ _ _ _ _ _ hadd hr => hadd.refers hr trivial) h

theorem selectInto_body {pred : List BExpr} {body body' : Body} (h : selectInto pred body = some body') (hp : PredRefers pred)
    (hb : body.Refers) : body'.Refers := by
  cases body with
  | select p =>
    obtain rfl := Option.some.inj h
    exact PredRefers.append hb hp
  | join outer inner p | strJoin outer inner p =>
    obtain rfl := Option.some.inj h
    trivial
  | _ => simp [selectInto] at h

theorem mergeSelects_bodiesRefer {a : Unit} (hs : Sound s) (hq : NoQuerySource s) (hread : AllRead s) (hr : s.Refers)
    (h : mergeSelects s = .ok a t) : t.Refers := by
  refine mergeSelects_rule hs hq hread hr (fun done op rest i pred body r u hrs hop hbody hin hinto hrem hr => ?_) h
  have hiV : i ∈ r.used := hrs.consistent.inputs_mem op hop i (by simp [hin])
  apply hrem.refers
  intro o ho
  by_cases hoi : o = i
  · subst hoi
    rw [setOp_ops_self]
    exact selectInto_body hinto (hr.selects op hop pred hbody) (hr o hiV)
  · rw [setOp_ops_of_ne _ hoi]
    exact hr o ho

end AqsiosCoordinator.Physical
