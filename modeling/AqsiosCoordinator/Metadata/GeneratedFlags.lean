import AqsiosCoordinator.Metadata.PlanGraph
import AqsiosCoordinator.Querygen.StreamFlags

/-! # The stream flags of generated operators

The physical operator of a logical one computes its flag from its inputs in the same
way, and a source has the flag of what its table leads to.
-/
namespace AqsiosCoordinator.Physical
open Common Foundation Foundation.Outcome Metadata

variable {known : ℕ → Prop} {tableMgr : TableManager} {s t : PlanState} {op : OpId} {v : Uninit}

def PlanState.AgreesOn (s : PlanState) (known : ℕ → Prop) (tableMgr : TableManager) : Prop :=
  ∀ id, known id → (s.ops (lookupSource id s.sourceOps)).bStream = tableMgr.isStream id

def FlagOf (known : ℕ → Prop) (tableMgr : TableManager) (p : Logical.Plan) (o : OpId) (s : PlanState) : Prop :=
  o ∈ s.used ∧ (p.Flagged known tableMgr → (s.ops o).bStream = p.bStream)

theorem Added.bStream {body : Body} {attrs : List Column} {bStream : Bool} {inputs : List OpId}
    (h : Added op body attrs bStream inputs s t) (hs : PoolInv s) {o : OpId} (ho : o ∈ s.used) :
    (t.ops o).bStream = (s.ops o).bStream := by
  rw [h.other o fun he => h.not_mem hs (he ▸ ho)]

/-- A step of building a plan leaves the flags of what is in use. -/
theorem Create.bStream (h : Create s t) (hs : PoolInv s) {o : OpId} (ho : o ∈ s.used) :
    (t.ops o).bStream = (s.ops o).bStream := by
  cases h with
  | added h => exact h.bStream hs ho
  | grown h =>
    obtain ⟨b,hb,-⟩ := h.ops_eq o
    rw [hb]

theorem Built.bStream (h : Built s t) (hs : PoolInv s) {o : OpId} (ho : o ∈ s.used) :
    (t.ops o).bStream = (s.ops o).bStream := by
  induction h with
  | refl => rfl
  | step hb hc ih => exact (hc.bStream (hb.pool hs) (hb.used_mono o ho)).trans ih

theorem Built.agreesOn (h : Built s t) (hs : PoolInv s) (hsrc : ∀ id, lookupSource id s.sourceOps ∈ s.used)
    (ha : s.AgreesOn known tableMgr) : t.AgreesOn known tableMgr := by
  intro id hid
  have htab : t.sourceOps = s.sourceOps := congrArg Tables.sourceOps h.tables
  rw [htab, h.bStream hs (hsrc id)]
  exact ha id hid

theorem flags_of_inputs {inputs : List Logical.Plan} {children : List OpId}
    (h : List.Forall₂ (fun p c => FlagOf known tableMgr p c s) inputs children)
    (hf : ∀ p ∈ inputs, p.Flagged known tableMgr) :
    children.map (fun c => (s.ops c).bStream) = inputs.map Logical.Plan.bStream := by
  induction h with
  | nil => rfl
  | @cons p c ps cs hpc _ ih =>
    have hp := hpc.2 (hf p List.mem_cons_self)
    have hps := ih fun q hq => hf q (List.mem_cons_of_mem _ hq)
    simp [hp,hps]

/-- The inputs that an operator reads decide its flag. -/
theorem streams_take {kind : Logical.Kind} {n : ℕ} {flags : List Bool} (hcross : kind = .cross → flags.length = 2)
    (htakes : kind.Takes flags) (hn : n ≠ 0) (hboth : kind = .cross ∨ kind = .union → n = 2) :
    kind.streams (flags.take n) = kind.streams flags := by
  cases kind with
  | cross =>
    rw [List.take_of_length_le (by rw [hcross rfl, hboth (.inl rfl)])]
  | union =>
    have hlen : flags.length = 2 := htakes
    rw [List.take_of_length_le (by rw [hlen, hboth (.inr rfl)])]
  | select | project | distinct =>
    obtain ⟨k,rfl⟩ := Nat.exists_eq_succ_of_ne_zero hn
    cases flags <;> rfl
  | _ => rfl

theorem Made.flagOf {kind : Logical.Kind} {outAttrs : List Logical.Attr} {bStream : Bool} {inputs : List Logical.Plan}
    {children : List OpId} (h : Made kind children s op t) (hs : PoolInv s) (ha : s.AgreesOn known tableMgr)
    (hmem : op ∈ t.used) (hc : List.Forall₂ (fun p c => FlagOf known tableMgr p c s) inputs children)
    (hcross : kind = .cross → inputs.length = 2) : FlagOf known tableMgr (.node kind outAttrs bStream inputs) op t := by
  refine ⟨hmem,fun hp => ?_⟩
  obtain ⟨hknown,htakes,hflag,hbelow⟩ := Logical.Plan.flagged_node.mp hp
  have hflags := flags_of_inputs hc hbelow
  show (t.ops op).bStream = bStream
  rw [hflag, ← hflags]
  cases h with
  | source hkind hop hst =>
    subst hst hop
    rcases hkind with rfl | rfl
    · exact (ha _ hknown.1).trans hknown.2
    · exact (ha _ hknown.1).trans hknown.2
  | grown hkind hchild h =>
    obtain ⟨b,hb,-⟩ := h.ops_eq op
    subst hkind
    cases children with
    | nil => simp at hchild
    | cons c cs =>
      obtain rfl : c = op := by simpa using hchild
      rw [hb]
      rfl
  | @added body _ read hkind h hinputs harity _ hboth =>
    have hne : read.length ≠ 0 := by
      rw [harity]
      exact body.arity_ne_zero hkind
    have hflags' : read.map (fun i => (s.ops i).bStream) = (inputs.map Logical.Plan.bStream).take read.length := by
      rw [← hflags, ← List.map_take, ← hinputs]
    rw [h.self, hflags, ← streams_take (by simpa using hcross) htakes hne hboth, ← hflags']

mutual

/-- The record of a flagged plan is about flagged plans. -/
theorem recorded_flagged : (p : Logical.Plan) → {s t : PlanState} → {op : OpId} → {record : List (Logical.Plan × OpId)} →
    p.Flagged known tableMgr → genRecorded v p s = .ok (op,record) t → ∀ e ∈ record, e.1.Flagged known tableMgr
  | .node kind outAttrs bStream inputs, s, t, op, record, hp, h => by
    unfold genRecorded at h
    obtain ⟨⟨children,below⟩,r,h1,h2⟩ := bind_eq_ok.mp h
    obtain ⟨op',_,h3,h4⟩ := bind_eq_ok.mp h2
    obtain ⟨he,-⟩ := pure_eq_ok.mp h4
    obtain ⟨-,rfl⟩ := Prod.mk.inj he
    intro e he
    rcases List.mem_cons.mp he with rfl | he
    · exact hp
    · exact inputsRecorded_flagged inputs (Logical.Plan.flagged_node.mp hp).2.2.2 h1 e he

theorem inputsRecorded_flagged : (ps : List Logical.Plan) → {s t : PlanState} → {ops : List OpId} →
    {record : List (Logical.Plan × OpId)} → (∀ p ∈ ps, p.Flagged known tableMgr) →
    genChildrenRecorded v ps s = .ok (ops,record) t → ∀ e ∈ record, e.1.Flagged known tableMgr
  | [], s, t, ops, record, hps, h => by
    unfold genChildrenRecorded at h
    obtain ⟨he,-⟩ := pure_eq_ok.mp h
    obtain ⟨-,rfl⟩ := Prod.mk.inj he
    simp
  | p :: ps, s, t, ops, record, hps, h => by
    unfold genChildrenRecorded at h
    obtain ⟨⟨c,below⟩,r,h1,h2⟩ := bind_eq_ok.mp h
    obtain ⟨⟨cs,belows⟩,r',h3,h4⟩ := bind_eq_ok.mp h2
    obtain ⟨he,-⟩ := pure_eq_ok.mp h4
    obtain ⟨-,rfl⟩ := Prod.mk.inj he
    intro e he
    rcases List.mem_append.mp he with he | he
    · exact recorded_flagged p (hps p List.mem_cons_self) h1 e he
    · exact inputsRecorded_flagged ps (fun q hq => hps q (List.mem_cons_of_mem _ hq)) h3 e he

end

/-- Every logical operator of a flagged plan gets an operator with its flag. -/
theorem genRecorded_flags {p : Logical.Plan} {record : List (Logical.Plan × OpId)} (hs : PoolInv s)
    (hsrc : ∀ id, lookupSource id s.sourceOps ∈ s.used) (ha : s.AgreesOn known tableMgr)
    (hp : p.Flagged known tableMgr) (h : genRecorded v p s = .ok (op,record) t) :
    Built s t ∧ (op ∈ t.used ∧ (t.ops op).bStream = p.bStream) ∧
      ∀ e ∈ record, e.2 ∈ t.used ∧ (t.ops e.2).bStream = e.1.bStream := by
  have hrule : PlanRule (Built s) (FlagOf known tableMgr) := by
    refine ⟨fun r hr => hr.pool hs,fun _ _ _ _ ho => ho.1,?_⟩
    intro kind outAttrs bStream inputs children r o u hr hc hcross hmade
    have hmem : ∀ c ∈ children, c ∈ r.used := by
      intro c hmem
      obtain ⟨_,-,hc⟩ := forall₂_mem_right hc hmem
      exact hc.1
    obtain ⟨hb,ho⟩ := hmade.built (lookupSource_mem hsrc hr) hmem
    refine ⟨hr.trans hb,hmade.flagOf (hr.pool hs) (hr.agreesOn hs hsrc ha) ho hc hcross,fun q o hq => ?_⟩
    refine ⟨hb.used_mono o hq.1,fun hqf => ?_⟩
    rw [hb.bStream (hr.pool hs) hq.1]
    exact hq.2 hqf
  obtain ⟨hb,hop,hrec,-⟩ := hrule.recorded p .refl h
  refine ⟨hb,⟨hop.1,hop.2 hp⟩,fun e he => ?_⟩
  exact ⟨(hrec e he).1,(hrec e he).2 (recorded_flagged p hp h e he)⟩

/-- What is known of the flags after a query has been registered. -/
theorem addLogicalQueryPlan_flags {queryId : ℕ} {plan : Logical.Plan} {output : Bool} {a : Unit} {r : PlanState}
    {record : List (Logical.Plan × OpId)} (hs : PoolInv s) (hsrc : ∀ id, lookupSource id s.sourceOps ∈ s.used)
    (ha : s.AgreesOn known tableMgr) (hp : plan.Flagged known tableMgr)
    (hrec : genRecorded v plan s = .ok (op,record) r) (h : addLogicalQueryPlan v queryId plan output s = .ok a t) :
    ∃ querySource, t.queryOutOps = s.queryOutOps ++ [(queryId,querySource)] ∧ t.sourceOps = s.sourceOps ∧
      (t.ops querySource).bStream = plan.bStream ∧
      ∀ e ∈ record, e.2 ∈ t.used ∧ (t.ops e.2).bStream = e.1.bStream := by
  obtain ⟨hb,hop,hflags⟩ := genRecorded_flags hs hsrc ha hp hrec
  have hgen : genPhysicalPlan v plan s = .ok op r := by
    rw [← genRecorded_fst plan]
    exact map_eq_ok.mpr ⟨_,hrec,rfl⟩
  have hr := hb.pool hs
  have hqry : r.queryOutOps = s.queryOutOps := congrArg Tables.queryOutOps hb.tables
  have htab : r.sourceOps = s.sourceOps := congrArg Tables.sourceOps hb.tables
  -- the query source reads the plan, and what is in use keeps its flag
  have hsource {querySource : OpId} {s₂ : PlanState}
      (hadd : Added querySource .querySource (r.ops op).attrs (r.ops op).bStream [op] r s₂) :
      s₂.queryOutOps = s.queryOutOps ∧ s₂.sourceOps = s.sourceOps ∧ (s₂.ops querySource).bStream = plan.bStream ∧
        querySource ∈ s₂.used ∧ ∀ e ∈ record, e.2 ∈ s₂.used ∧ (s₂.ops e.2).bStream = e.1.bStream := by
    refine ⟨(congrArg Tables.queryOutOps hadd.tables).trans hqry,(congrArg Tables.sourceOps hadd.tables).trans htab,?_,
      hadd.used ▸ List.mem_cons_self,fun e he => ⟨hadd.used ▸ List.mem_cons_of_mem _ (hflags e he).1,?_⟩⟩
    · rw [hadd.self]
      exact hop.2
    · rw [hadd.bStream hr (hflags e he).1]
      exact (hflags e he).2
  cases addLogicalQueryPlan_ok hs hsrc h with
  | inner hplan hadd =>
    rw [hgen] at hplan
    cases hplan
    obtain ⟨h1,h2,h3,-,h5⟩ := hsource hadd
    exact ⟨_,by rw [h1],h2,h3,h5⟩
  | @outer phyPlan querySource outputOp s₁ s₂ s₃ _ hplan hadd hout hclass =>
    rw [hgen] at hplan
    cases hplan
    obtain ⟨h1,h2,h3,h4,h5⟩ := hsource hadd
    have hpool : PoolInv { s₂ with queryOutOps := s₂.queryOutOps ++ [(queryId,querySource)] } :=
      ⟨hadd.inv.1,hadd.inv.2,hadd.inv.3⟩
    have hkeep {o : OpId} (ho : o ∈ s₂.used) : (t.ops o).bStream = (s₂.ops o).bStream := by
      obtain ⟨f,rfl⟩ := hclass
      exact hout.bStream hpool ho
    have hused {o : OpId} (ho : o ∈ s₂.used) : o ∈ t.used := by
      obtain ⟨f,rfl⟩ := hclass
      show o ∈ s₃.used
      rw [hout.used]
      exact List.mem_cons_of_mem _ ho
    have htabs : t.queryOutOps = s₂.queryOutOps ++ [(queryId,querySource)] ∧ t.sourceOps = s₂.sourceOps := by
      obtain ⟨f,rfl⟩ := hclass
      exact ⟨congrArg Tables.queryOutOps hout.tables,congrArg Tables.sourceOps hout.tables⟩
    refine ⟨querySource,by rw [htabs.1, h1],htabs.2.trans h2,(hkeep h4).trans h3,fun e he => ?_⟩
    exact ⟨hused (h5 e he).1,(hkeep (h5 e he).1).trans (h5 e he).2⟩

end AqsiosCoordinator.Physical
