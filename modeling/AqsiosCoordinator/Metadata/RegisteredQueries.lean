import AqsiosCoordinator.Metadata.GeneratedMeaning
import AqsiosCoordinator.Metadata.QueryClasses

/-! # What a registered query carries

The query source and the output of a query read from the operator that stands for its
plan. Later registrations leave that as it is.
-/
namespace AqsiosCoordinator
open Common Foundation Foundation.Outcome Metadata

theorem Logical.Plan.Everywhere.and {P Q : Logical.Kind → List Logical.Attr → List (List Logical.Attr) → Prop} {p : Logical.Plan}
    (h : p.Everywhere P) (h' : p.Everywhere Q) : p.Everywhere fun kind outAttrs inputs => P kind outAttrs inputs ∧ Q kind outAttrs inputs := by
  induction h with
  | node here _ ih =>
    obtain ⟨here',hbelow⟩ := Logical.Plan.everywhere_node.mp h'
    exact .node ⟨here,here'⟩ fun p hp => ih p hp (hbelow p hp)

theorem Logical.Plan.everywhere_of_forall {P : Logical.Kind → List Logical.Attr → List (List Logical.Attr) → Prop} :
    (p : Logical.Plan) → (∀ kind outAttrs inputs, P kind outAttrs inputs) → p.Everywhere P
  | .node _ _ _ _, h => .node (h _ _ _) fun p _ => Logical.Plan.everywhere_of_forall p h

/-- The tables that a plan reads are known and as wide as their sources. -/
def Logical.Plan.ReadsTables (tableMgr : TableManager) (known : ℕ → Prop) : Logical.Plan → Prop :=
  Logical.Plan.Everywhere fun kind outAttrs _ =>
    ∀ id, kind.tableId = some id → known id ∧ outAttrs.length = (tableMgr.columns id).length

namespace Physical
open Logical.Plan (ReadsTables WellFormed)
variable {s t u : PlanState} {op o : OpId} {p : Logical.Plan} {tableMgr : TableManager} {v : Uninit}

/-- An operator carries what its plan computes as long as the tables of the plan lead to where they have led. -/
theorem Carries.extend (h : Carries s p op) (hop : op ∈ s.used) (hl : Later s t)
    (hread : p.Everywhere fun kind _ _ => ∀ id, kind.tableId = some id → lookupSource id t.sourceOps = lookupSource id s.sourceOps) :
    Carries t p op := by
  obtain ⟨qc,ext,heq,-⟩ := hl.old op hop
  refine ⟨by rw [heq]; exact h.width,fun {_ _ _ S D} hI hD hsup => ?_⟩
  have hsup' : s.Supplies D p := by
    unfold PlanState.Supplies at hsup ⊢
    exact Logical.Plan.Everywhere.imp (hread.and hsup) fun _ _ _ h id hid => h.1 id hid ▸ h.2 id hid
  rw [h.value hI (hl.meaning hD) hsup']
  have horder : (s.tableSources S D).order = (t.tableSources S D).order := rfl
  apply Logical.Plan.denote_congr horder
  exact Logical.Plan.Everywhere.imp hread fun _ _ _ hr id hid => congrArg D (hr id hid).symm

def PlanState.ReadsPlan (s : PlanState) (p : Logical.Plan) (o : OpId) : Prop :=
  o ∈ s.used ∧ ∃ root ∈ s.used, (s.ops o).inputs = [root] ∧ Carries s p root

theorem PlanState.ReadsPlan.extend (h : s.ReadsPlan p o) (hl : Later s t)
    (hread : p.Everywhere fun kind _ _ => ∀ id, kind.tableId = some id → lookupSource id t.sourceOps = lookupSource id s.sourceOps) :
    t.ReadsPlan p o := by
  obtain ⟨ho,root,hroot,hin,hc⟩ := h
  obtain ⟨qc,ext,heq,-⟩ := hl.old o ho
  refine ⟨hl.used o ho,root,hl.used root hroot,?_,hc.extend hroot hl hread⟩
  rw [heq]
  exact hin

structure Answered (s : PlanState) (p : Logical.Plan) (querySource : OpId) : Prop where
  body : (s.ops querySource).body = .querySource
  width : (s.ops querySource).attrs.length = p.outAttrs.length
  reads : s.ReadsPlan p querySource

theorem Answered.extend (h : Answered s p op) (hl : Later s t)
    (hread : p.Everywhere fun kind _ _ => ∀ id, kind.tableId = some id → lookupSource id t.sourceOps = lookupSource id s.sourceOps) :
    Answered t p op := by
  obtain ⟨qc,ext,heq,-⟩ := hl.old op h.reads.1
  refine ⟨?_,?_,h.reads.extend hl hread⟩
  · rw [heq]
    exact h.body
  · rw [heq]
    exact h.width

theorem PlanState.ReadsPlan.received [DecidableEq α] {I : Interp α} {S : Sources α} {D : OpId → TimeVarying α} (h : s.ReadsPlan p o)
    (hI : I.CountsRows) (hD : s.Meaning I S D) (hsup : s.Supplies D p) : s.received D o = [p.denote I (s.tableSources S D)] := by
  obtain ⟨-,root,-,hin,hc⟩ := h
  rw [PlanState.received, hin, List.map_singleton, hc.value hI hD hsup]

theorem Answered.value [DecidableEq α] {I : Interp α} {S : Sources α} {D : OpId → TimeVarying α} (h : Answered s p op)
    (hI : I.CountsRows) (hD : s.Meaning I S D) (hsup : s.Supplies D p) : D op = p.denote I (s.tableSources S D) := by
  have hself := hD op h.reads.1
  have hrec := h.reads.received hI hD hsup
  rw [PlanState.received] at hrec
  simp only [ports_inputs, hrec, Operator.meaning, h.body, Body.meaning, List.getD_cons_zero] at hself
  exact hself

theorem PlanState.sameButClasses.later (h : s.sameButClasses t) : Later s t := by
  obtain ⟨f,rfl⟩ := h
  exact ⟨fun o ho => ho,fun o _ => ⟨f o,[],by simp,by simp⟩⟩

/-- Generating a plan makes no outputs. -/
theorem genPhysicalPlan_isOutput (hs : PoolInv s) (hsrc : ∀ id, lookupSource id s.sourceOps ∈ s.used)
    (h : genPhysicalPlan v p s = .ok op t) : t.IsOutput o ↔ s.IsOutput o := by
  have hrule : PlanRule (fun r => Built s r ∧ (r.IsOutput o ↔ s.IsOutput o)) (fun _ o r => o ∈ r.used) := by
    refine ⟨fun r hr => hr.1.pool hs,fun _ _ _ _ ho => ho,fun kind _ _ inputs children r op u hr hc _ hmade => ?_⟩
    obtain ⟨hb,hop⟩ := hmade.built (lookupSource_mem hsrc hr.1) fun c hmem => by
      obtain ⟨_,-,hc⟩ := forall₂_mem_right hc hmem
      exact hc
    refine ⟨⟨hr.1.trans hb,?_⟩,hop,fun _ o ho => hb.used_mono o ho⟩
    rw [← hr.2]
    cases hmade with
    | source _ _ hst => rw [hst]
    | grown _ _ h =>
      obtain ⟨b,hb,-,hk,-⟩ := h.ops_eq o
      simp [PlanState.IsOutput,h.used,hb,hk]
    | added hkind h =>
      rw [h.isOutput_iff (hr.1.pool hs)]
      constructor
      · rintro (⟨-,he⟩ | hold)
        · rw [he] at hkind
          cases hkind
        · exact hold
      · exact .inr
  exact (hrule.plan p ⟨.refl,Iff.rfl⟩ h).1.2

/-- A new operator on top of one that carries what the plan computes. -/
theorem Added.readsPlan {root : OpId} {body : Body} {attrs : List Column} {bStream : Bool} (h : Added op body attrs bStream [root] s t)
    (hs : PoolInv s) (hroot : root ∈ s.used) (hc : Carries s p root) : t.ReadsPlan p op := by
  have hl := h.later hs
  refine ⟨h.used ▸ List.mem_cons_self,root,hl.used root hroot,by rw [h.self],hc.later hroot hl h.tables⟩

theorem everywhere_sourceOps (h : t.sourceOps = s.sourceOps) : p.Everywhere fun kind _ _ =>
    ∀ id, kind.tableId = some id → lookupSource id t.sourceOps = lookupSource id s.sourceOps :=
  Logical.Plan.everywhere_of_forall p fun _ _ _ _ _ => by rw [h]

/-- The query source and the outputs after a query has been registered. -/
structure QueryAnswered (p : Logical.Plan) (queryId : ℕ) (output : Bool) (querySource : OpId) (s t : PlanState) : Prop where
  answered : Answered t p querySource
  queryOutOps : t.queryOutOps = s.queryOutOps ++ [(queryId,querySource)]
  sourceOps : t.sourceOps = s.sourceOps
  shown : output = true → ∃ o outputId, t.ReadsPlan p o ∧ (t.ops o).body = .output outputId queryId
  outputs : ∀ o, t.IsOutput o → s.IsOutput o ∨
    output = true ∧ t.ReadsPlan p o ∧ ∃ outputId, (t.ops o).body = .output outputId queryId

theorem addLogicalQueryPlan_answered {queryId : ℕ} {output : Bool} {a : Unit} (hs : Sound s) (hreg : RegInv s)
    (hp : WellFormed tableMgr p) (hmap : s.Maps p) (h : addLogicalQueryPlan v queryId p output s = .ok a t) :
    ∃ querySource, QueryAnswered p queryId output querySource s t := by
  have hbuilt {root : OpId} {s₁ : PlanState} (hplan : genPhysicalPlan v p s = .ok root s₁) :
      Sound s₁ ∧ Stands s₁ p root ∧ s₁.tables = s.tables ∧ ∀ o, s₁.IsOutput o ↔ s.IsOutput o := by
    have hcont := continued_genPhysicalPlan hs hreg hplan
    exact ⟨hcont.sound,genPhysicalPlan_stands p hs hreg hp hmap hplan,hcont.tables,
      fun o => genPhysicalPlan_isOutput hs.pool hreg.lookupSource_mem hplan⟩
  have hsource {root querySource : OpId} {s₁ s₂ : PlanState} (hs₁ : Sound s₁) (hst : Stands s₁ p root)
      (hqry : Added querySource .querySource (s₁.ops root).attrs (s₁.ops root).bStream [root] s₁ s₂) : Answered s₂ p querySource := by
    refine ⟨by rw [hqry.self],?_,hqry.readsPlan hs₁.pool hst.used hst.carries⟩
    rw [hqry.self]
    exact hst.carries.width
  cases addLogicalQueryPlan_ok hs.pool hreg.lookupSource_mem h with
  | @inner root querySource s₁ s₂ hplan hqry =>
    obtain ⟨hs₁,hst,htab,hout⟩ := hbuilt hplan
    have hsame := everywhere_sourceOps (p := p) (s := s₂) (t := { s₂ with queryOutOps := s₂.queryOutOps ++ [(queryId,querySource)] }) rfl
    have hl : Later s₂ { s₂ with queryOutOps := s₂.queryOutOps ++ [(queryId,querySource)] } := .of_same rfl rfl
    have htables := hqry.tables.trans htab
    refine ⟨querySource,(hsource hs₁ hst hqry).extend hl hsame,?_,congrArg Tables.sourceOps htables,by simp,fun o ho => .inl ?_⟩
    · exact congrArg (· ++ [(queryId,querySource)]) (congrArg Tables.queryOutOps htables)
    · have ho' : s₂.IsOutput o := ho
      rw [hqry.isOutput_iff hs₁.pool, hout] at ho'
      simpa [Body.kind] using ho'
  | @outer root querySource outputOp s₁ s₂ s₃ _ hplan hqry houtput hclass =>
    obtain ⟨hs₁,hst,htab,hout⟩ := hbuilt hplan
    have hs₂ : Sound s₂ := hqry.sound hs₁ rfl trivial
    have hl₂ : Later s₂ { s₂ with queryOutOps := s₂.queryOutOps ++ [(queryId,querySource)] } := .of_same rfl rfl
    have hpool : PoolInv { s₂ with queryOutOps := s₂.queryOutOps ++ [(queryId,querySource)] } := ⟨hs₂.pool.1,hs₂.pool.2,hs₂.pool.3⟩
    have hl₃ := Later.trans _ _ _ hl₂ (houtput.later hpool)
    have hl₄ : Later s₃ t := Later.trans _ { s₃ with numOutputs := s₃.numOutputs + 1 } _ (.of_same rfl rfl) hclass.later
    have hl := Later.trans _ _ _ hl₃ hl₄
    have hsrc₃ : s₃.sourceOps = s₂.sourceOps := congrArg Tables.sourceOps houtput.tables
    have hsrc₄ : t.sourceOps = s₃.sourceOps := by
      obtain ⟨f,rfl⟩ := hclass
      rfl
    have hqry₄ : t.queryOutOps = s₃.queryOutOps := by
      obtain ⟨f,rfl⟩ := hclass
      rfl
    have htables := hqry.tables.trans htab
    have hreads : t.ReadsPlan p outputOp := by
      have hroot := (hqry.later hs₁.pool).used root hst.used
      have hcarries := (hst.carries.later hst.used (hqry.later hs₁.pool) hqry.tables).extend hroot hl₂ (everywhere_sourceOps rfl)
      exact (houtput.readsPlan hpool hroot hcarries).extend hl₄ (everywhere_sourceOps hsrc₄)
    have hbody : (t.ops outputOp).body = .output s₂.numOutputs queryId := by
      obtain ⟨f,rfl⟩ := hclass
      show (s₃.ops outputOp).body = _
      rw [houtput.self]
    refine ⟨querySource,(hsource hs₁ hst hqry).extend hl (everywhere_sourceOps (hsrc₄.trans hsrc₃)),?_,?_,
      fun _ => ⟨outputOp,s₂.numOutputs,hreads,hbody⟩,fun o ho => ?_⟩
    · rw [hqry₄, show s₃.queryOutOps = s₂.queryOutOps ++ [(queryId,querySource)] from congrArg Tables.queryOutOps houtput.tables]
      exact congrArg (· ++ [(queryId,querySource)]) (congrArg Tables.queryOutOps htables)
    · exact (hsrc₄.trans hsrc₃).trans (congrArg Tables.sourceOps htables)
    · have ho' : s₃.IsOutput o := by
        obtain ⟨f,rfl⟩ := hclass
        exact ho
      rw [houtput.isOutput_iff hpool] at ho'
      rcases ho' with ⟨rfl,-⟩ | ho'
      · exact .inr ⟨rfl,hreads,s₂.numOutputs,hbody⟩
      · have ho₂ : s₂.IsOutput o := ho'
        rw [hqry.isOutput_iff hs₁.pool, hout] at ho₂
        left
        simpa [Body.kind] using ho₂

end Physical
end AqsiosCoordinator
