import AqsiosCoordinator.Metadata.RegistrationRuns
import AqsiosCoordinator.Foundation.PortGraph
import AqsiosCoordinator.Foundation.ListEdits

/-! # The plan graph during registration -/
namespace AqsiosCoordinator.Physical
open Common Foundation Foundation.Outcome Metadata

def Body.arity : Body → ℕ
  | .join _ _ _ | .strJoin _ _ _ | .joinProject _ _ | .strJoinProject _ _ | .union | .except => 2
  | .streamSource _ _ | .relnSource _ _ | .ssGen => 0
  | _ => 1

/-- The kinds whose operators are merged when they are equal. -/
def OperatorKind.combines : OperatorKind → Bool
  | .streamSource | .relnSource | .querySource | .output | .sink | .ssGen => false
  | _ => true

/-- An operator that can be merged reads something. -/
theorem Body.arity_ne_zero {body : Body} (h : body.kind.combines = true) : body.arity ≠ 0 := by
  cases body <;> simp_all [Body.kind,Body.arity,OperatorKind.combines]

/-- The parameters that an operator with `numAttrs` columns needs: a select has a
predicate, and a projection an expression for each column. -/
def Body.Complete (numAttrs : ℕ) : Body → Prop
  | .select pred => pred ≠ []
  | .project projs => projs.length = numAttrs
  | .joinProject projs _ => projs.length = numAttrs
  | .strJoinProject projs _ => projs.length = numAttrs
  | _ => True

def PlanState.ports (s : PlanState) : Ports OpId := ⟨fun o => (s.ops o).inputs,fun o => (s.ops o).outputs⟩

@[simp] theorem ports_inputs (s : PlanState) (o : OpId) : s.ports.inputs o = (s.ops o).inputs := rfl
@[simp] theorem ports_outputs (s : PlanState) (o : OpId) : s.ports.outputs o = (s.ops o).outputs := rfl

/-- The plan of a state is a layered graph of complete operators. -/
structure Sound (s : PlanState) : Prop where
  pool : PoolInv s
  consistent : s.ports.Consistent s.used
  layered : s.ports.Layered s.used
  arity : ∀ o ∈ s.used, (s.ops o).inputs.length = (s.ops o).body.arity
  complete : ∀ o ∈ s.used, (s.ops o).body.Complete (s.ops o).attrs.length

variable {s t u : PlanState} {op child : OpId} {body : Body} {attrs : List Column} {bStream : Bool}
  {inputs : List OpId}

theorem Sound.acyclic (h : Sound s) : s.ports.Acyclic s.used := h.layered.acyclic h.pool.nodup

inductive Create (s t : PlanState) : Prop where
  | added {op : OpId} {body : Body} {attrs : List Column} {bStream : Bool} {inputs : List OpId}
      (h : Added op body attrs bStream inputs s t) (harity : inputs.length = body.arity)
      (hcomplete : body.Complete attrs.length)
  | grown {child : OpId} {pred : BExpr} (h : SelectGrown child pred s t) (hmem : child ∈ s.used)

inductive Built (s : PlanState) : PlanState → Prop where
  | refl : Built s s
  | step {t u : PlanState} (h : Built s t) (hc : Create t u) : Built s u

theorem Built.trans (h : Built s t) (h' : Built t u) : Built s u := by
  induction h' with
  | refl => exact h
  | step _ hc ih => exact ih.step hc

theorem Create.built (h : Create s t) : Built s t := Built.refl.step h

theorem Added.ports (h : Added op body attrs bStream inputs s t) : Ports.Added op inputs s.ports t.ports where
  inputs_self := by simp [h.self]
  outputs_self := by simp [h.self]
  inputs_other := fun o ho => by simp [h.other o ho]
  outputs_other := fun o ho => by simp [h.other o ho]

theorem Added.sound (h : Added op body attrs bStream inputs s t) (hs : Sound s) (harity : inputs.length = body.arity)
    (hcomplete : body.Complete attrs.length) : Sound t := by
  have hop : op ∉ s.used := h.not_mem hs.pool
  have hne : ∀ o ∈ s.used, o ≠ op := fun o ho he => hop (he ▸ ho)
  refine ⟨h.inv,?_,?_,fun o ho => ?_,fun o ho => ?_⟩
  · rw [h.used]
    exact h.ports.consistent hs.consistent hop h.inputs_mem
  · rw [h.used]
    exact h.ports.layered hs.layered hop h.inputs_mem
  · rw [h.used] at ho
    rcases List.mem_cons.mp ho with rfl | ho
    · simpa [h.self] using harity
    · simpa [h.other o (hne o ho)] using hs.arity o ho
  · rw [h.used] at ho
    rcases List.mem_cons.mp ho with rfl | ho
    · simpa [h.self] using hcomplete
    · simpa [h.other o (hne o ho)] using hs.complete o ho

theorem SelectGrown.ops_eq {pred : BExpr} (h : SelectGrown child pred s t) (o : OpId) :
    ∃ b, t.ops o = { s.ops o with body := b } ∧ b.arity = (s.ops o).body.arity ∧ b.kind = (s.ops o).body.kind ∧
      ((s.ops o).body.Complete (s.ops o).attrs.length → b.Complete (s.ops o).attrs.length) := by
  by_cases ho : o = child
  · subst ho
    obtain ⟨preds,h1,h2⟩ := h.self
    refine ⟨_,h2,?_,?_,fun _ => ?_⟩
    · rw [h1]
      rfl
    · rw [h1]
      rfl
    · simp [Body.Complete]
  · exact ⟨(s.ops o).body,h.other o ho,rfl,rfl,id⟩

/-- Other parameters of the same kind of operator leave the graph as it is. -/
theorem Sound.of_bodies (hs : Sound s) (hpool : PoolInv t) (hused : t.used = s.used)
    (hops : ∀ o, ∃ b, t.ops o = { s.ops o with body := b } ∧ b.arity = (s.ops o).body.arity ∧
      ((s.ops o).body.Complete (s.ops o).attrs.length → b.Complete (s.ops o).attrs.length)) : Sound t := by
  have hin : ∀ o, (t.ops o).inputs = (s.ops o).inputs := fun o => by
    obtain ⟨b,hb,-⟩ := hops o
    rw [hb]
  have hout : ∀ o, (t.ops o).outputs = (s.ops o).outputs := fun o => by
    obtain ⟨b,hb,-⟩ := hops o
    rw [hb]
  refine ⟨hpool,?_,?_,fun o ho => ?_,fun o ho => ?_⟩
  · rw [hused]
    exact hs.consistent.congr (fun o _ => hin o) fun o _ => hout o
  · rw [hused]
    exact hs.layered.congr fun o _ => hin o
  · rw [hused] at ho
    obtain ⟨b,hb,hba,-⟩ := hops o
    rw [hb]
    exact (hs.arity o ho).trans hba.symm
  · rw [hused] at ho
    obtain ⟨b,hb,-,hbc⟩ := hops o
    rw [hb]
    exact hbc (hs.complete o ho)

theorem SelectGrown.sound {pred : BExpr} (h : SelectGrown child pred s t) (hs : Sound s) : Sound t := by
  refine hs.of_bodies h.inv h.used fun o => ?_
  obtain ⟨b,h1,h2,-,h3⟩ := h.ops_eq o
  exact ⟨b,h1,h2,h3⟩

theorem Create.sound (h : Create s t) (hs : Sound s) : Sound t := by
  cases h with
  | added h harity hcomplete => exact h.sound hs harity hcomplete
  | grown h _ => exact h.sound hs

theorem Built.sound (h : Built s t) (hs : Sound s) : Sound t := by
  induction h with
  | refl => exact hs
  | step _ hc ih => exact hc.sound ih

theorem Create.used_mono (h : Create s t) : ∀ o ∈ s.used, o ∈ t.used := by
  intro o ho
  cases h with
  | added h => exact h.used ▸ List.mem_cons_of_mem _ ho
  | grown h => exact h.used ▸ ho

theorem Create.tables (h : Create s t) : t.tables = s.tables := by
  cases h with
  | added h => exact h.tables
  | grown h => exact h.tables

theorem Create.pool (h : Create s t) : PoolInv t := by
  cases h with
  | added h => exact h.inv
  | grown h => exact h.inv

theorem Built.used_mono (h : Built s t) : ∀ o ∈ s.used, o ∈ t.used := by
  induction h with
  | refl => exact fun _ ho => ho
  | step _ hc ih => exact fun o ho => hc.used_mono o (ih o ho)

theorem Built.tables (h : Built s t) : t.tables = s.tables := by
  induction h with
  | refl => rfl
  | step _ hc ih => exact hc.tables.trans ih

theorem Built.pool (h : Built s t) (hs : PoolInv s) : PoolInv t := by
  cases h with
  | refl => exact hs
  | step _ hc => exact hc.pool

theorem Added.built (h : Added op body attrs bStream inputs s t) (harity : inputs.length = body.arity)
    (hcomplete : body.Complete attrs.length) : Built s t ∧ op ∈ t.used :=
  ⟨(Create.added h harity hcomplete).built,h.used ▸ List.mem_cons_self⟩

section genPhysicalPlan
variable {v : Uninit} {schemas : List (List Logical.Attr)} {children : List OpId}

/-- What generating the operator of a logical node on top of its children has done. -/
inductive Made (kind : Logical.Kind) (children : List OpId) (s : PlanState) (op : OpId) (t : PlanState) : Prop where
  | source {varId tableId : ℕ} (hkind : kind = .streamSource varId tableId ∨ kind = .relnSource varId tableId)
      (hop : op = lookupSource tableId s.sourceOps) (hst : t = s)
  | grown {bexpr : Logical.BExpr} {pred : BExpr} (hkind : kind = .select bexpr) (hchild : children[0]? = some op)
      (h : SelectGrown op pred s t)
  | added {body : Body} {attrs : List Column} {inputs : List OpId} (hkind : body.kind.combines = true)
      (h : Added op body attrs (kind.streams (inputs.map fun i => (s.ops i).bStream)) inputs s t)
      (hinputs : inputs = children.take inputs.length) (harity : inputs.length = body.arity)
      (hcomplete : body.Complete attrs.length) (hboth : kind = .cross ∨ kind = .union → inputs.length = 2)

theorem take_one {l : List OpId} {a : OpId} (h : l[0]? = some a) : [a] = l.take 1 := by
  cases l with
  | nil => simp at h
  | cons b l => simpa using h.symm

theorem take_two {l : List OpId} {a b : OpId} (h : l[0]? = some a) (h' : l[1]? = some b) : [a, b] = l.take 2 := by
  cases l with
  | nil => simp at h
  | cons c l =>
    cases l with
    | nil => simp at h'
    | cons d l =>
      simp only [List.getElem?_cons_zero, Option.some.injEq] at h
      simp only [List.getElem?_cons_succ, List.getElem?_cons_zero, Option.some.injEq] at h'
      simp [h,h']

theorem ofChild_made {kind : Logical.Kind} (body : Body) {f : Bool → Bool} (hs : PoolInv s)
    (hc : ∀ c ∈ children, c ∈ s.used) (hkind : body.kind.combines = true) (harity : 1 = body.arity)
    (hcomplete : ∀ n, body.Complete n) (hf : ∀ b, f b = kind.streams [b]) (hone : ¬ (kind = .cross ∨ kind = .union))
    (h : (do mkUnary body f (← phyChild children 0)) s = .ok op t) : Made kind children s op t := by
  obtain ⟨child,hchild,h⟩ := ofChild_ok h
  have hadd := mkUnary_ok hs (hc child (List.mem_of_getElem? hchild)) h
  rw [hf] at hadd
  exact .added hkind hadd (take_one hchild) harity (hcomplete _) fun hk => absurd hk hone

theorem mkOperator_made {kind : Logical.Kind} {n : ℕ} (hs : PoolInv s) (hc : ∀ c ∈ children, c ∈ s.used)
    (h : mkOperator v kind n schemas children s = .ok op t) : Made kind children s op t := by
  have hjoin (mk : ℕ → ℕ → List BExpr → Body) {f : Bool → Bool → Bool} (hkind : ∀ a b p, (mk a b p).kind.combines = true)
      (harity : ∀ a b p, 2 = (mk a b p).arity) (hcomplete : ∀ a b p n, (mk a b p).Complete n)
      (hf : ∀ b c, f b c = kind.streams [b, c]) (h : mkBinaryJoin mk f children s = .ok op t) :
      Made kind children s op t := by
    obtain ⟨outer,inner,houter,hinner,hadd⟩ := mkBinaryJoin_ok hs hc h
    rw [hf] at hadd
    exact .added (hkind _ _ _) hadd (take_two houter hinner) (harity _ _ _) (hcomplete _ _ _ _) fun _ => rfl
  have hset (body : Body) (f : Bool → Bool → Bool) (hkind : body.kind.combines = true) (harity : 2 = body.arity)
      (hcomplete : ∀ n, body.Complete n) (hf : ∀ b c, f b c = kind.streams [b, c])
      (h : mkSetOp body f v children s = .ok op t) : Made kind children s op t := by
    obtain ⟨l,r,hl,hr,hadd⟩ := mkSetOp_ok hs hc h
    rw [hf] at hadd
    exact .added hkind hadd (take_two hl hr) harity (hcomplete _) fun _ => rfl
  cases kind with
  | streamSource varId strId =>
    cases h
    exact .source (.inl rfl) rfl rfl
  | relnSource varId relId =>
    cases h
    exact .source (.inr rfl) rfl rfl
  | rowWin numRows => exact ofChild_made (.rowWin numRows) hs hc rfl rfl (fun _ => trivial) (fun _ => rfl) (by simp) h
  | rangeWin timeUnits => exact ofChild_made (.rangeWin timeUnits) hs hc rfl rfl (fun _ => trivial) (fun _ => rfl) (by simp) h
  | nowWin => exact ofChild_made (.rangeWin 1) hs hc rfl rfl (fun _ => trivial) (fun _ => rfl) (by simp) h
  | partnWin partnAttrs numRows =>
    obtain ⟨_,_,h1,h2⟩ := bind_eq_ok.mp h
    obtain ⟨-,rfl⟩ := failIf_eq_ok.mp h1
    exact ofChild_made (.partnWin _ numRows) hs hc rfl rfl (fun _ => trivial) (fun _ => rfl) (by simp) h2
  | select bexpr =>
    obtain ⟨child,hchild,⟨rfl,hgrown⟩ | ⟨-,hadd⟩⟩ := mkSelect_ok hs hc h
    · exact .grown rfl hchild hgrown
    · exact .added rfl hadd (take_one hchild) rfl (by simp [Body.Complete]) (by simp)
  | project projExprs =>
    obtain ⟨-,-,child,hchild,hadd⟩ := mkProject_ok hs hc h
    exact .added rfl hadd (take_one hchild) rfl (by simp [Body.Complete]) (by simp)
  | cross =>
    simp only [mkOperator] at h
    split at h
    · simp at h
    · exact hjoin .join (fun _ _ _ => rfl) (fun _ _ _ => rfl) (fun _ _ _ _ => trivial)
        (fun b c => by simp [Logical.Kind.streams]) h
  | streamCross =>
    simp only [mkOperator] at h
    split at h
    · simp at h
    · exact hjoin .strJoin (fun _ _ _ => rfl) (fun _ _ _ => rfl) (fun _ _ _ _ => trivial) (fun _ _ => rfl) h
  | groupAggr groupAttrs aggrs =>
    obtain ⟨child,hchild,hadd⟩ := mkGroupAggr_ok hs hc h
    exact .added rfl hadd (take_one hchild) rfl trivial (by simp)
  | distinct => exact ofChild_made .distinct hs hc rfl rfl (fun _ => trivial) (fun _ => rfl) (by simp) h
  | istream => exact ofChild_made .istream hs hc rfl rfl (fun _ => trivial) (fun _ => rfl) (by simp) h
  | dstream => exact ofChild_made .dstream hs hc rfl rfl (fun _ => trivial) (fun _ => rfl) (by simp) h
  | rstream => exact ofChild_made .rstream hs hc rfl rfl (fun _ => trivial) (fun _ => rfl) (by simp) h
  | union => exact hset .union (fun l r => l && r) rfl rfl (fun _ => trivial) (fun b c => by simp [Logical.Kind.streams]) h
  | except => exact hset .except (fun _ _ => false) rfl rfl (fun _ => trivial) (fun _ _ => rfl) h

theorem Made.built {kind : Logical.Kind} (h : Made kind children s op t) (hsrc : ∀ id, lookupSource id s.sourceOps ∈ s.used)
    (hc : ∀ c ∈ children, c ∈ s.used) : Built s t ∧ op ∈ t.used := by
  cases h with
  | source _ hop hst =>
    subst hst hop
    exact ⟨.refl,hsrc _⟩
  | grown _ hchild h =>
    have hmem : op ∈ s.used := hc op (List.mem_of_getElem? hchild)
    exact ⟨(Create.grown h hmem).built,h.used ▸ hmem⟩
  | added _ h _ harity hcomplete => exact h.built harity hcomplete

theorem lookupSource_mem (hsrc : ∀ id, lookupSource id s.sourceOps ∈ s.used) (h : Built s t) :
    ∀ id, lookupSource id t.sourceOps ∈ t.used := by
  intro id
  have htab : t.sourceOps = s.sourceOps := congrArg Tables.sourceOps h.tables
  rw [htab]
  exact h.used_mono _ (hsrc id)

theorem mkOperator_cross {n : ℕ} (h : mkOperator v .cross n schemas children s = .ok op t) : schemas.length = 2 := by
  by_contra hne
  simp [mkOperator,hne] at h

mutual

/-- `genPhysicalPlan` with a record of the operator that stands for each logical operator. -/
def genRecorded (u : Uninit) : Logical.Plan → M (OpId × List (Logical.Plan × OpId))
  | .node kind outAttrs bStream inputs => do
    let children ← genChildrenRecorded u inputs
    let op ← mkOperator u kind outAttrs.length (inputs.map Logical.Plan.outAttrs) children.1
    return (op,(.node kind outAttrs bStream inputs,op) :: children.2)

def genChildrenRecorded (u : Uninit) : List Logical.Plan → M (List OpId × List (Logical.Plan × OpId))
  | [] => pure ([],[])
  | p :: ps => do
    let c ← genRecorded u p
    let cs ← genChildrenRecorded u ps
    return (c.1 :: cs.1,c.2 ++ cs.2)

end

mutual

theorem genRecorded_fst : (p : Logical.Plan) → Prod.fst <$> genRecorded v p = genPhysicalPlan v p
  | .node kind outAttrs bStream inputs => by
    unfold genRecorded genPhysicalPlan
    rw [← genChildrenRecorded_fst inputs]
    simp only [map_bind, bind_map_left, map_pure, bind_pure]

theorem genChildrenRecorded_fst : (ps : List Logical.Plan) → Prod.fst <$> genChildrenRecorded v ps = genChildPlans v ps
  | [] => by
    unfold genChildrenRecorded genChildPlans
    simp only [map_pure]
  | p :: ps => by
    unfold genChildrenRecorded genChildPlans
    rw [← genRecorded_fst p, ← genChildrenRecorded_fst ps]
    simp only [map_bind, bind_map_left, map_pure]

end

/-- An invariant `I` of generating plans, and what `R` says of the operator of each plan. -/
structure PlanRule (I : PlanState → Prop) (R : Logical.Plan → OpId → PlanState → Prop) : Prop where
  pool : ∀ s, I s → PoolInv s
  used : ∀ p o s, I s → R p o s → o ∈ s.used
  step : ∀ kind outAttrs bStream inputs children s op t, I s → List.Forall₂ (fun p c => R p c s) inputs children →
    (kind = .cross → inputs.length = 2) → Made kind children s op t →
    I t ∧ R (.node kind outAttrs bStream inputs) op t ∧ ∀ p o, R p o s → R p o t

section PlanRule
variable {I : PlanState → Prop} {R : Logical.Plan → OpId → PlanState → Prop}

mutual

theorem PlanRule.recorded (h : PlanRule I R) : (p : Logical.Plan) → {s t : PlanState} → {op : OpId} →
    {record : List (Logical.Plan × OpId)} → I s → genRecorded v p s = .ok (op,record) t →
    I t ∧ R p op t ∧ (∀ e ∈ record, R e.1 e.2 t) ∧ ∀ q o, R q o s → R q o t
  | .node kind outAttrs bStream inputs, s, t, op, record, hs, hp => by
    unfold genRecorded at hp
    obtain ⟨⟨children,below⟩,r,h1,h2⟩ := bind_eq_ok.mp hp
    obtain ⟨op',_,h3,h4⟩ := bind_eq_ok.mp h2
    obtain ⟨he,rfl⟩ := pure_eq_ok.mp h4
    obtain ⟨rfl,rfl⟩ := Prod.mk.inj he
    obtain ⟨hr,hc,hbelow,hkeep⟩ := PlanRule.recordedInputs h inputs hs h1
    have hused : ∀ c ∈ children, c ∈ r.used := by
      intro c hmem
      obtain ⟨p,-,hp⟩ := forall₂_mem_right hc hmem
      exact h.used p c r hr hp
    have hcross : kind = .cross → inputs.length = 2 := by
      rintro rfl
      simpa using mkOperator_cross h3
    obtain ⟨ht,hop,hkeep'⟩ := h.step kind outAttrs bStream inputs children r op' _ hr hc hcross
      (mkOperator_made (h.pool r hr) hused h3)
    refine ⟨ht,hop,fun e he => ?_,fun q o hq => hkeep' q o (hkeep q o hq)⟩
    rcases List.mem_cons.mp he with rfl | he
    · exact hop
    · exact hkeep' _ _ (hbelow e he)

theorem PlanRule.recordedInputs (h : PlanRule I R) : (ps : List Logical.Plan) → {s t : PlanState} → {ops : List OpId} →
    {record : List (Logical.Plan × OpId)} → I s → genChildrenRecorded v ps s = .ok (ops,record) t →
    I t ∧ List.Forall₂ (fun p c => R p c t) ps ops ∧ (∀ e ∈ record, R e.1 e.2 t) ∧ ∀ q o, R q o s → R q o t
  | [], s, t, ops, record, hs, hp => by
    unfold genChildrenRecorded at hp
    obtain ⟨he,rfl⟩ := pure_eq_ok.mp hp
    obtain ⟨rfl,rfl⟩ := Prod.mk.inj he
    exact ⟨hs,.nil,fun _ he => absurd he List.not_mem_nil,fun _ _ hq => hq⟩
  | p :: ps, s, t, ops, record, hs, hp => by
    unfold genChildrenRecorded at hp
    obtain ⟨⟨c,below⟩,r,h1,h2⟩ := bind_eq_ok.mp hp
    obtain ⟨⟨cs,belows⟩,r',h3,h4⟩ := bind_eq_ok.mp h2
    obtain ⟨he,rfl⟩ := pure_eq_ok.mp h4
    obtain ⟨rfl,rfl⟩ := Prod.mk.inj he
    obtain ⟨hr,hc,hbelow,hkeep⟩ := PlanRule.recorded h p hs h1
    obtain ⟨ht,hcs,hbelows,hkeep'⟩ := PlanRule.recordedInputs h ps hr h3
    refine ⟨ht,.cons (hkeep' p c hc) hcs,fun e he => ?_,fun q o hq => hkeep' q o (hkeep q o hq)⟩
    rcases List.mem_append.mp he with he | he
    · exact hkeep' _ _ (hbelow e he)
    · exact hbelows e he

end

theorem PlanRule.plan (h : PlanRule I R) (p : Logical.Plan) (hs : I s) (hp : genPhysicalPlan v p s = .ok op t) :
    I t ∧ R p op t ∧ ∀ q o, R q o s → R q o t := by
  rw [← genRecorded_fst p] at hp
  obtain ⟨⟨op',record⟩,hrec,rfl⟩ := map_eq_ok.mp hp
  obtain ⟨ht,hop,-,hkeep⟩ := h.recorded p hs hrec
  exact ⟨ht,hop,hkeep⟩

end PlanRule

theorem genPhysicalPlan_built (p : Logical.Plan) (hs : PoolInv s) (hsrc : ∀ id, lookupSource id s.sourceOps ∈ s.used)
    (h : genPhysicalPlan v p s = .ok op t) : Built s t ∧ op ∈ t.used := by
  have hrule : PlanRule (Built s) (fun _ o r => o ∈ r.used) := by
    refine ⟨fun r hr => hr.pool hs,fun _ _ _ _ ho => ho,fun kind _ _ inputs children r op u hr hc _ hmade => ?_⟩
    obtain ⟨hb,hop⟩ := hmade.built (lookupSource_mem hsrc hr) fun c hmem => by
      obtain ⟨_,-,hc⟩ := forall₂_mem_right hc hmem
      exact hc
    exact ⟨hr.trans hb,hop,fun _ o ho => hb.used_mono o ho⟩
  obtain ⟨hb,hop,-⟩ := hrule.plan p .refl h
  exact ⟨hb,hop⟩

end genPhysicalPlan

/-! What a registration call has done when it returns. -/

theorem addBaseTable_ok {tableMgr : TableManager} {tableId : ℕ} {a : Unit} (hs : PoolInv s)
    (h : addBaseTable tableMgr tableId s = .ok a t) : ∃ op s',
      Added op (if tableMgr.isStream tableId then .streamSource tableId s.numBaseTables
        else .relnSource tableId s.numBaseTables) (tableMgr.columns tableId) (tableMgr.isStream tableId) [] s s' ∧
      t = { s' with
        numBaseTables := s'.numBaseTables + 1, sourceOps := s'.sourceOps ++ [(tableId,op)] } := by
  obtain ⟨_,_,h1,h⟩ := bind_eq_ok.mp h
  obtain ⟨rfl,rfl⟩ := get_eq_ok.mp h1
  obtain ⟨op,r,h2,h⟩ := bind_eq_ok.mp h
  obtain ⟨_,_,h3,h⟩ := bind_eq_ok.mp h
  obtain rfl := modifyOp_ok.mp h3
  obtain ⟨_,_,h4,h⟩ := bind_eq_ok.mp h
  obtain ⟨-,rfl⟩ := failIf_eq_ok.mp h4
  obtain ⟨_,_,h5,h⟩ := bind_eq_ok.mp h
  obtain rfl := modifyOp_ok.mp h5
  obtain ⟨_,_,h6,h⟩ := bind_eq_ok.mp h
  obtain ⟨rfl,rfl⟩ := get_eq_ok.mp h6
  obtain ⟨_,_,h7,h⟩ := bind_eq_ok.mp h
  obtain ⟨-,rfl⟩ := failIf_eq_ok.mp h7
  obtain ⟨_,_,h8,h⟩ := bind_eq_ok.mp h
  obtain rfl := modify_eq_ok.mp h8
  obtain ⟨_,_,h9,h⟩ := bind_eq_ok.mp h
  obtain ⟨rfl,rfl⟩ := get_eq_ok.mp h9
  obtain ⟨_,_,h10,h⟩ := bind_eq_ok.mp h
  obtain ⟨-,rfl⟩ := failIf_eq_ok.mp h10
  obtain rfl := modify_eq_ok.mp h
  have hn := newOp_ok hs h2
  refine ⟨op,_,⟨(hn.inv.setOp _ _).setOp _ _,hn.used,hn.free,by simp,?_,fun o ho => ?_,hn.tables⟩,rfl⟩
  · simp only [setOp_ops_self, hn.self]
  · rw [setOp_ops_of_ne _ ho, setOp_ops_of_ne _ ho, hn.other o ho]
    simp

def PlanState.sameButClasses (s t : PlanState) : Prop :=
  ∃ f : OpId → ℤ, t = { s with ops := fun o => { s.ops o with queryClassId := f o } }

theorem sameButClasses_refl (s : PlanState) : s.sameButClasses s := ⟨fun o => (s.ops o).queryClassId,rfl⟩

theorem PlanState.sameButClasses.trans (h : s.sameButClasses t) (h' : t.sameButClasses u) : s.sameButClasses u := by
  obtain ⟨f,rfl⟩ := h
  obtain ⟨g,rfl⟩ := h'
  exact ⟨g,rfl⟩

theorem sameButClasses_setOp (o : OpId) (qc : ℤ) : s.sameButClasses (s.setOp o { s.ops o with queryClassId := qc }) := by
  refine ⟨fun p => if p = o then qc else (s.ops p).queryClassId,?_⟩
  unfold PlanState.setOp
  congr 1
  funext p
  by_cases hp : p = o
  · subst hp
    simp
  · simp [hp]

theorem addQueryClasses_ok {fuel : ℕ} {o : OpId} {a : Unit} (h : addQueryClasses fuel o s = .ok a t) :
    s.sameButClasses t := by
  induction fuel generalizing o s t with
  | zero => simp [addQueryClasses] at h
  | succ fuel ih =>
    have hall {l : List OpId} {s t : PlanState} {a : PUnit} (h : l.forM (addQueryClasses fuel) s = .ok a t) :
        s.sameButClasses t := by
      induction l generalizing s with
      | nil =>
        obtain ⟨-,rfl⟩ := pure_eq_ok.mp h
        exact sameButClasses_refl s
      | cons o l ihl =>
        obtain ⟨_,r,h1,h2⟩ := bind_eq_ok.mp h
        exact (ih h1).trans (ihl h2)
    unfold addQueryClasses at h
    obtain ⟨x,_,h1,h⟩ := bind_eq_ok.mp h
    obtain ⟨rfl,rfl⟩ := getOp_ok.mp h1
    obtain ⟨_,_,h2,h⟩ := bind_eq_ok.mp h
    obtain ⟨rfl,rfl⟩ := get_eq_ok.mp h2
    split at h
    · obtain ⟨_,_,h3,h⟩ := bind_eq_ok.mp h
      obtain rfl := modifyOp_ok.mp h3
      exact (sameButClasses_setOp o s.currentQueryClass).trans (hall h)
    · obtain ⟨-,rfl⟩ := pure_eq_ok.mp h
      exact sameButClasses_refl s

theorem PlanState.sameButClasses.sound (h : s.sameButClasses t) (hs : Sound s) : Sound t := by
  obtain ⟨f,rfl⟩ := h
  exact ⟨⟨hs.pool.1,hs.pool.2,hs.pool.3⟩,hs.consistent,hs.layered,hs.arity,hs.complete⟩

/-- A query has been registered: its physical plan, the query source and possibly an output on top of it. -/
inductive QueryAdded (v : Uninit) (queryId : ℕ) (logPlan : Logical.Plan) (s : PlanState) : Bool → PlanState → Prop where
  | inner {phyPlan querySource : OpId} {s₁ s₂ : PlanState} (hplan : genPhysicalPlan v logPlan s = .ok phyPlan s₁)
      (hqry : Added querySource .querySource (s₁.ops phyPlan).attrs (s₁.ops phyPlan).bStream [phyPlan] s₁ s₂) :
      QueryAdded v queryId logPlan s false { s₂ with queryOutOps := s₂.queryOutOps ++ [(queryId,querySource)] }
  | outer {phyPlan querySource outputOp : OpId} {s₁ s₂ s₃ t : PlanState}
      (hplan : genPhysicalPlan v logPlan s = .ok phyPlan s₁)
      (hqry : Added querySource .querySource (s₁.ops phyPlan).attrs (s₁.ops phyPlan).bStream [phyPlan] s₁ s₂)
      (hout : Added outputOp (.output s₂.numOutputs queryId) (s₂.ops phyPlan).attrs (s₂.ops phyPlan).bStream [phyPlan]
        { s₂ with queryOutOps := s₂.queryOutOps ++ [(queryId,querySource)] } s₃)
      (hclass : { s₃ with numOutputs := s₃.numOutputs + 1 }.sameButClasses t) : QueryAdded v queryId logPlan s true t

/-- The steps of registering a query, up to the classes of its operators. -/
inductive QuerySteps (v : Uninit) (queryId : ℕ) (logPlan : Logical.Plan) (s : PlanState) : Bool → PlanState → Prop where
  | inner {phyPlan querySource : OpId} {s₁ s₂ : PlanState} (hplan : genPhysicalPlan v logPlan s = .ok phyPlan s₁)
      (hqry : Added querySource .querySource (s₁.ops phyPlan).attrs (s₁.ops phyPlan).bStream [phyPlan] s₁ s₂) :
      QuerySteps v queryId logPlan s false { s₂ with queryOutOps := s₂.queryOutOps ++ [(queryId,querySource)] }
  | outer {phyPlan querySource outputOp : OpId} {s₁ s₂ s₃ t : PlanState}
      (hplan : genPhysicalPlan v logPlan s = .ok phyPlan s₁)
      (hqry : Added querySource .querySource (s₁.ops phyPlan).attrs (s₁.ops phyPlan).bStream [phyPlan] s₁ s₂)
      (hout : Added outputOp (.output s₂.numOutputs queryId) (s₂.ops phyPlan).attrs (s₂.ops phyPlan).bStream [phyPlan]
        { s₂ with queryOutOps := s₂.queryOutOps ++ [(queryId,querySource)] } s₃)
      (hclass : addQueryClasses (MAX_OPS + 1) outputOp { s₃ with numOutputs := s₃.numOutputs + 1 } = .ok () t) :
      QuerySteps v queryId logPlan s true t

theorem addLogicalQueryPlan_steps {v : Uninit} {queryId : ℕ} {logPlan : Logical.Plan} {output : Bool} {a : Unit}
    (hs : PoolInv s) (hsrc : ∀ id, lookupSource id s.sourceOps ∈ s.used)
    (h : addLogicalQueryPlan v queryId logPlan output s = .ok a t) : QuerySteps v queryId logPlan s output t := by
  obtain ⟨phyPlan,s₁,hplan,h⟩ := bind_eq_ok.mp h
  obtain ⟨querySource,s₂,h2,h⟩ := bind_eq_ok.mp h
  obtain ⟨_,_,h3,h⟩ := bind_eq_ok.mp h
  obtain ⟨rfl,rfl⟩ := get_eq_ok.mp h3
  obtain ⟨_,_,h4,h⟩ := bind_eq_ok.mp h
  obtain ⟨-,rfl⟩ := failIf_eq_ok.mp h4
  obtain ⟨_,_,h5,h⟩ := bind_eq_ok.mp h
  obtain rfl := modify_eq_ok.mp h5
  obtain ⟨hb,hmem⟩ := genPhysicalPlan_built logPlan hs hsrc hplan
  have hqry := mkUnary_ok (hb.pool hs) hmem h2
  cases output with
  | false =>
    obtain ⟨-,rfl⟩ := pure_eq_ok.mp h
    exact .inner hplan hqry
  | true =>
    obtain ⟨_,_,h6,h⟩ := bind_eq_ok.mp h
    obtain ⟨rfl,rfl⟩ := get_eq_ok.mp h6
    obtain ⟨_,_,h7,h⟩ := bind_eq_ok.mp h
    obtain ⟨-,rfl⟩ := failIf_eq_ok.mp h7
    obtain ⟨outputOp,s₃,h8,h⟩ := bind_eq_ok.mp h
    obtain ⟨_,_,h9,h⟩ := bind_eq_ok.mp h
    obtain ⟨rfl,rfl⟩ := get_eq_ok.mp h9
    obtain ⟨_,_,h10,h⟩ := bind_eq_ok.mp h
    obtain rfl := modifyOp_ok.mp h10
    obtain ⟨_,_,h11,h⟩ := bind_eq_ok.mp h
    obtain rfl := modify_eq_ok.mp h11
    have hpool : PoolInv { s₂ with queryOutOps := s₂.queryOutOps ++ [(queryId,querySource)] } :=
      ⟨hqry.inv.1,hqry.inv.2,hqry.inv.3⟩
    have hout := mkUnary_ok hpool (hqry.used ▸ List.mem_cons_of_mem _ hmem) h8
    have hnum : s₃.numOutputs = s₂.numOutputs := congrArg Tables.numOutputs hout.tables
    refine .outer hplan hqry ⟨hout.inv.setOp _ _,hout.used,hout.free,hout.inputs_mem,?_,fun o ho => ?_,hout.tables⟩ h
    · simp only [setOp_ops_self, hout.self, hnum]
    · rw [setOp_ops_of_ne _ ho]
      exact hout.other o ho

theorem addLogicalQueryPlan_ok {v : Uninit} {queryId : ℕ} {logPlan : Logical.Plan} {output : Bool} {a : Unit}
    (hs : PoolInv s) (hsrc : ∀ id, lookupSource id s.sourceOps ∈ s.used)
    (h : addLogicalQueryPlan v queryId logPlan output s = .ok a t) : QueryAdded v queryId logPlan s output t := by
  cases addLogicalQueryPlan_steps hs hsrc h with
  | inner hplan hqry => exact .inner hplan hqry
  | outer hplan hqry hout hclass => exact .outer hplan hqry hout (addQueryClasses_ok hclass)

theorem map_ok {tableMgr : TableManager} {queryId tableId : ℕ} {a : Unit}
    (h : map tableMgr queryId tableId s = .ok a t) : ∃ q queryOutOp,
      s.queryOutOps.find? (fun e => e.1 == queryId) = some (q,queryOutOp) ∧
      tableMgr.columns tableId = (s.ops queryOutOp).attrs ∧
      t = { s with sourceOps := s.sourceOps ++ [(tableId,queryOutOp)] } := by
  obtain ⟨_,_,h1,h⟩ := bind_eq_ok.mp h
  obtain ⟨rfl,rfl⟩ := get_eq_ok.mp h1
  cases hfind : s.queryOutOps.find? (fun e => e.1 == queryId) with
  | none => simp [hfind] at h
  | some e =>
    simp only [hfind] at h
    obtain ⟨_,_,h2,h⟩ := bind_eq_ok.mp h
    obtain ⟨hcols,rfl⟩ := failIf_eq_ok.mp h2
    obtain ⟨_,_,h3,h⟩ := bind_eq_ok.mp h
    obtain ⟨-,rfl⟩ := failIf_eq_ok.mp h3
    obtain rfl := set_eq_ok.mp h
    exact ⟨e.1,e.2,rfl,not_not.mp hcols,rfl⟩

/-- The states that registration reaches when every call returns. -/
inductive Registered (mem : OpId → Operator) : PlanState → Prop where
  | start : Registered mem (newPlanManager mem)
  | call {s t : PlanState} (h : Registered mem s) (c : Call) (hc : c.run s = .ok () t) : Registered mem t

theorem Registered.reachable {mem : OpId → Operator} (h : Registered mem s) : Reachable mem s := by
  induction h with
  | start => exact .start
  | call _ c hc ih =>
    have hnext := ih.call c
    rwa [hc] at hnext

theorem Registered.of_returns {mem : OpId → Operator} (h : Registered mem s) (c : Call)
    (hc : returns (c.run s) = true) : Registered mem (finalState (c.run s)) := by
  obtain ⟨_,t,ht⟩ := exists_of_returns hc
  rw [ht]
  exact h.call c ht

def runCalls : List Call → M Unit
  | [] => pure ()
  | c :: cs => do c.run; runCalls cs

theorem Registered.runCalls {mem : OpId → Operator} (h : Registered mem s) (cs : List Call)
    (hc : returns (runCalls cs s) = true) : Registered mem (finalState (Physical.runCalls cs s)) := by
  induction cs generalizing s with
  | nil => exact h
  | cons c cs ih =>
    rw [eq_ok_of_returns hc]
    obtain ⟨_,t,h1,h2⟩ := bind_eq_ok.mp (eq_ok_of_returns hc)
    have hrest := ih (h.call c h1) (by rw [h2]; rfl)
    rw [h2] at hrest
    exact hrest

theorem RegInv.lookupSource_mem (hs : RegInv s) (id : ℕ) : lookupSource id s.sourceOps ∈ s.used := by
  unfold lookupSource
  cases h : s.sourceOps.find? (fun e => e.1 == id) with
  | none => exact hs.default.1
  | some e => exact (hs.sources e (List.mem_of_find?_eq_some h)).1

theorem QueryAdded.sound {v : Uninit} {queryId : ℕ} {logPlan : Logical.Plan} {output : Bool} (hs : Sound s)
    (hsrc : ∀ id, lookupSource id s.sourceOps ∈ s.used) (h : QueryAdded v queryId logPlan s output t) : Sound t := by
  cases h with
  | inner hplan hqry =>
    have hbuilt := (genPhysicalPlan_built logPlan hs.pool hsrc hplan).1.sound hs
    have hq := hqry.sound hbuilt rfl trivial
    exact ⟨⟨hq.pool.1,hq.pool.2,hq.pool.3⟩,hq.consistent,hq.layered,hq.arity,hq.complete⟩
  | outer hplan hqry hout hclass =>
    have hbuilt := (genPhysicalPlan_built logPlan hs.pool hsrc hplan).1.sound hs
    have hq := hqry.sound hbuilt rfl trivial
    have ho := hout.sound ⟨⟨hq.pool.1,hq.pool.2,hq.pool.3⟩,hq.consistent,hq.layered,hq.arity,hq.complete⟩ rfl trivial
    exact hclass.sound ⟨⟨ho.pool.1,ho.pool.2,ho.pool.3⟩,ho.consistent,ho.layered,ho.arity,ho.complete⟩

theorem newPlanManager_sound (mem : OpId → Operator) : Sound (newPlanManager mem) := by
  obtain ⟨hpool,hused,hop,-⟩ := newPlanManager_started mem
  refine ⟨hpool,⟨?_,?_,?_⟩,?_,?_,?_⟩ <;> rw [hused] <;>
    simp [hop,Ports.Layered,Body.arity,Body.Complete]

theorem registered_sound {mem : OpId → Operator} (h : Registered mem s) : Sound s := by
  induction h with
  | start => exact newPlanManager_sound mem
  | @call s t h c hc ih =>
    have hreg := reachable_regInv h.reachable
    cases c with
    | addBaseTable tableMgr tableId =>
      obtain ⟨op,s',hadd,rfl⟩ := addBaseTable_ok ih.pool hc
      have hs' := hadd.sound ih (by split <;> rfl) (by split <;> trivial)
      exact ⟨⟨hs'.pool.1,hs'.pool.2,hs'.pool.3⟩,hs'.consistent,hs'.layered,hs'.arity,hs'.complete⟩
    | addLogicalQueryPlan u queryId logPlan output =>
      exact (addLogicalQueryPlan_ok ih.pool hreg.lookupSource_mem hc).sound ih hreg.lookupSource_mem
    | map tableMgr queryId tableId =>
      obtain ⟨_,_,-,-,rfl⟩ := map_ok hc
      exact ⟨⟨ih.pool.1,ih.pool.2,ih.pool.3⟩,ih.consistent,ih.layered,ih.arity,ih.complete⟩
    | setQueryClass queryClass =>
      obtain rfl := modify_eq_ok.mp hc
      exact ⟨⟨ih.pool.1,ih.pool.2,ih.pool.3⟩,ih.consistent,ih.layered,ih.arity,ih.complete⟩

end AqsiosCoordinator.Physical
