import AqsiosCoordinator.Metadata.SelectMeaning

/-! # Merging projects into joins keeps what a plan computes -/
namespace AqsiosCoordinator.Physical
open Common Foundation Foundation.Outcome Metadata
variable {α : Type} {I : Interp α} {l r : Row α} {outer : ℕ}

def ExprsRefer (es : List Expr) : Prop := ∀ e ∈ es, ∀ a ∈ e.attrs, a.input = 0

theorem projectedRow_transToJoinExpr {projs : List Expr} (hp : ExprsRefer projs) :
    projectedRow I [l, r] (projs.map (transToJoinExpr outer)) = projectedRow I [joinedRow I outer l r] projs := by
  unfold projectedRow
  rw [List.map_map]
  exact List.map_congr_left fun e he => value_transToJoinExpr (hp e he)

theorem projectInto_meaning [DecidableEq α] {S : Sources α} {projs : List Expr} {body body' : Body} {n : ℕ}
    (h : projectInto (projs.take n) body = some body') (hp : ExprsRefer projs) (m : ℕ) (vs : List (TimeVarying α)) :
    body'.meaning I S n vs = (Body.project projs).meaning I S n [body.meaning I S m vs] := by
  have hrow (outer : ℕ) (l r : Row α) : projectedRow I [l, r] (((projs.take n).map (transToJoinExpr outer)).take n) =
      projectedRow I [joinedRow I outer l r] (projs.take n) := by
    rw [← List.map_take, List.take_take, min_self]
    exact projectedRow_transToJoinExpr fun e he => hp e (List.mem_of_mem_take he)
  cases body with
  | join outer inner p =>
    obtain rfl := Option.some.inj h
    simp only [Body.meaning, List.getD_cons_zero, TimeVarying.map_join, hrow]
  | strJoin outer inner p =>
    obtain rfl := Option.some.inj h
    simp only [Body.meaning, List.getD_cons_zero, TimeVarying.map_streamJoin, hrow]
  | _ => simp [projectInto] at h

def ProjectsRefer (s : PlanState) : Prop := ∀ o ∈ s.used, ∀ projs, (s.ops o).body = .project projs → ExprsRefer projs

variable {s₀ s t u : PlanState} {op i : OpId} {done rest : List OpId} {ρ : OpId → OpId}

structure Fused (s t : PlanState) (op i : OpId) : Prop where
  input : (s.ops op).inputs = [i]
  body : ∃ projs, (s.ops op).body = .project projs ∧
    projectInto (projs.take (s.ops op).attrs.length) (s.ops i).body = some (t.ops i).body
  attrs : (t.ops i).attrs = (s.ops op).attrs
  outputs : (t.ops i).outputs.Perm (s.ops op).outputs

structure Unfused (s t : PlanState) (o : OpId) : Prop where
  body : (t.ops o).body = (s.ops o).body
  attrs : (t.ops o).attrs = (s.ops o).attrs
  outputs : (t.ops o).outputs = (s.ops o).outputs

/-- The loop that merges the projects of `s₀`. `ρ` maps the projects that are gone to their joins. -/
structure ProjectsFused (s₀ : PlanState) (ρ : OpId → OpId) (done rest : List OpId) (s : PlanState) : Prop where
  plan : Plausible s
  used : s.used = done ++ rest
  mem : ∀ o ∈ s.used, o ∈ s₀.used ∧ ρ o = o
  inputs : ∀ o ∈ s.used, (s.ops o).inputs = (s₀.ops o).inputs.map ρ
  gone : ∀ op ∈ s₀.used, op ∉ s.used → ρ op ∈ s.used ∧ Fused s₀ s op (ρ op)
  kept : ∀ o ∈ s.used, (∀ op ∈ s₀.used, ρ op = o → op = o) → Unfused s₀ s o

theorem ProjectsFused.start (h : Plausible s) : ProjectsFused s id [] s.used s :=
  ⟨h,rfl,fun _ ho => ⟨ho,rfl⟩,fun _ _ => by simp,fun _ ho hn => absurd ho hn,fun _ _ _ => ⟨rfl,rfl,rfl⟩⟩

theorem projectInto_join {projs : List Expr} {body body' : Body} (h : projectInto projs body = some body') :
    (body.kind = .join ∨ body.kind = .strJoin) ∧ (body'.kind = .joinProject ∨ body'.kind = .strJoinProject) := by
  cases body <;> simp only [projectInto, Option.some.injEq, reduceCtorEq] at h
  · subst h
    exact ⟨.inl rfl,.inl rfl⟩
  · subst h
    exact ⟨.inr rfl,.inr rfl⟩

/-- Operators that are not joins with projections are no fused ones. -/
theorem ProjectsFused.unfused (h : ProjectsFused s₀ ρ done rest s) {o : OpId} (ho : o ∈ s.used)
    (hk : ¬ ((s.ops o).body.kind = .joinProject ∨ (s.ops o).body.kind = .strJoinProject)) :
    (∀ op ∈ s₀.used, ρ op = o → op = o) ∧ Unfused s₀ s o := by
  have hinj : ∀ op ∈ s₀.used, ρ op = o → op = o := by
    rintro op hop rfl
    by_cases hs : op ∈ s.used
    · exact (h.mem op hs).2.symm
    · obtain ⟨projs,-,hinto⟩ := (h.gone op hop hs).2.body
      exact absurd (projectInto_join hinto).2 hk
  exact ⟨hinj,h.kept o ho hinj⟩

theorem ProjectsFused.merge {next : Option OpId} (h : ProjectsFused s₀ ρ done (op :: rest) s)
    (hc : s₀.ports.Consistent s₀.used) (hm : mergeProject op s = .ok true t) (hr : removeOp op t = .ok next u) :
    next = rest.head? ∧ ∃ ρ', ProjectsFused s₀ ρ' done rest u := by
  obtain ⟨hnext,projs,i,body,hbody,hin,hne,hout,hinto,rfl,ht,hrem⟩ := h.plan.fused h.used hm hr
  obtain ⟨hkind,hkind'⟩ := projectInto_join hinto
  have hop : op ∈ s.used := by simp [h.used]
  have hi : i ∈ s.used := h.plan.consistent.inputs_mem op hop i (by simp [hin])
  obtain ⟨hopinj,hopkept⟩ := h.unfused hop (by rw [hbody]; simp [Body.kind])
  obtain ⟨hiinj,hikept⟩ := h.unfused hi (by rcases hkind with hk | hk <;> rw [hk] <;> simp)
  have hmem : ∀ o, o ∈ u.used ↔ o ≠ op ∧ o ∈ s.used := by
    intro o
    rw [hrem.erase ⟨ht.pool.1,ht.pool.2,ht.pool.3⟩]
    exact ht.pool.nodup.mem_erase_iff
  have hfields (o : OpId) (ho : o ≠ i) : (u.ops o).body = (s.ops o).body ∧ (u.ops o).attrs = (s.ops o).attrs := by
    obtain ⟨ins,outs,-,heq⟩ := hrem.fields o
    rw [heq, setOp_ops_of_ne _ ho]
    exact ⟨rfl,rfl⟩
  have hself : (u.ops i).body = body ∧ (u.ops i).attrs = (s.ops op).attrs := by
    obtain ⟨ins,outs,-,heq⟩ := hrem.fields i
    rw [heq, setOp_ops_self]
    exact ⟨rfl,rfl⟩
  have houts (o : OpId) (ho : o ∈ s.used) (hoop : o ≠ op) (hoi : o ≠ i) : (u.ops o).outputs = (s.ops o).outputs := by
    have hsame := hrem.bypassed.outputs_other o ho hoop hoi
    rw [ports_outputs, ports_outputs, setOp_ops_of_ne _ hoi] at hsame
    exact hsame
  have hsetins (o : OpId) : ((s.setOp i { s.ops i with body := body, attrs := (s.ops op).attrs }).ops o).inputs =
      (s.ops o).inputs := by
    by_cases ho : o = i
    · simp [ho]
    · rw [setOp_ops_of_ne _ ho]
  obtain ⟨c,hc₀,hci⟩ : ∃ c, (s₀.ops op).inputs = [c] ∧ ρ c = i := by
    have hmap := h.inputs op hop
    rw [hin] at hmap
    cases hl : (s₀.ops op).inputs with
    | nil => simp [hl] at hmap
    | cons c cs =>
      cases cs with
      | nil => exact ⟨c,rfl,by simpa [hl] using hmap.symm⟩
      | cons d ds => simp [hl] at hmap
  have hcV : c ∈ s₀.used := hc.inputs_mem op (h.mem op hop).1 c (by simp [hc₀])
  obtain rfl : c = i := hiinj c hcV hci
  refine ⟨hnext,Function.update ρ op c,ht.removed hrem,hrem.used,fun o ho => ?_,fun o ho => ?_,fun q hq hgone => ?_,
    fun o ho hinj => ?_⟩
  · obtain ⟨hoop,hoV⟩ := (hmem o).mp ho
    rw [Function.update_of_ne hoop]
    exact h.mem o hoV
  · obtain ⟨hoop,hoV⟩ := (hmem o).mp ho
    have hins := hrem.bypassed.inputs o hoV hoop
    rw [ports_inputs, ports_inputs, hsetins, h.inputs o hoV, List.map_map] at hins
    rw [hins]
    refine List.map_congr_left fun x hx => ?_
    have hxV := hc.inputs_mem o (h.mem o hoV).1 x hx
    by_cases hxop : x = op
    · simp [hxop,(h.mem op hop).2]
    · have hρ : ρ x ≠ op := fun he => hxop (hopinj x hxV he)
      simp [hxop,hρ]
  · by_cases hqop : q = op
    · subst hqop
      rw [Function.update_self]
      refine ⟨(hmem c).mpr ⟨hne,hi⟩,hc₀,⟨projs,hopkept.body ▸ hbody,?_⟩,hself.2.trans hopkept.attrs,?_⟩
      · rw [← hopkept.attrs, ← hikept.body, hself.1]
        exact hinto
      · have hperm := hrem.bypassed.outputs_input
        simp only [ports_outputs, setOp_ops_self, setOp_ops_of_ne _ (Ne.symm hne), hout, List.erase_cons_head,
          List.nil_append] at hperm
        rw [← hopkept.outputs]
        exact hperm
    · rw [Function.update_of_ne hqop]
      have hqs : q ∉ s.used := fun hqs => hgone ((hmem q).mpr ⟨hqop,hqs⟩)
      obtain ⟨hρV,hf⟩ := h.gone q hq hqs
      have hρop : ρ q ≠ op := fun he => hqop (hopinj q hq he)
      have hρi : ρ q ≠ c := fun he => hqs (hiinj q hq he ▸ hi)
      obtain ⟨hb,ha⟩ := hfields (ρ q) hρi
      refine ⟨(hmem _).mpr ⟨hρop,hρV⟩,hf.input,?_,ha.trans hf.attrs,?_⟩
      · rw [hb]
        exact hf.body
      · rw [houts _ hρV hρop hρi]
        exact hf.outputs
  · obtain ⟨hoop,hoV⟩ := (hmem o).mp ho
    have hoi : o ≠ c := by
      rintro rfl
      exact hne (hinj op (h.mem op hop).1 (Function.update_self ..)).symm
    obtain ⟨hb,ha⟩ := hfields o hoi
    have hk := h.kept o hoV fun q hq hρ => by
      by_cases hqop : q = op
      · subst hqop
        exact absurd (hρ.symm.trans (h.mem q hop).2) hoop
      · exact hinj q hq (by rw [Function.update_of_ne hqop]; exact hρ)
    exact ⟨hb.trans hk.body,ha.trans hk.attrs,(houts o hoV hoop hoi).trans hk.outputs⟩

structure ProjectsMeant (s₀ : PlanState) (done rest : List OpId) (s : PlanState) : Prop where
  fused : ∃ ρ, ProjectsFused s₀ ρ done rest s
  outputs : OutputsKept s₀ s

theorem ProjectsMeant.merge {next : Option OpId} (h : ProjectsMeant s₀ done (op :: rest) s)
    (hc : s₀.ports.Consistent s₀.used) (hrefs : ProjectsRefer s₀) (hm : mergeProject op s = .ok true t)
    (hr : removeOp op t = .ok next u) : next = rest.head? ∧ ProjectsMeant s₀ done rest u := by
  obtain ⟨ρ,hf⟩ := h.fused
  obtain ⟨hnext,hρ'⟩ := hf.merge hc hm hr
  obtain ⟨-,projs,i,body,hbody,hin,-,hout,hinto,rfl,-,hrem⟩ := hf.plan.fused hf.used hm hr
  have hop : op ∈ s.used := by simp [hf.used]
  obtain ⟨-,hkept⟩ := hf.unfused hop (by rw [hbody]; simp [Body.kind])
  have hproj := hrefs op (hf.mem op hop).1 projs (hkept.body ▸ hbody)
  have hki : (s.ops i).body.kind.isOutput = false := by
    rcases (projectInto_join hinto).1 with hk | hk <;> rw [hk] <;> rfl
  refine ⟨hnext,hρ',?_⟩
  refine h.outputs.merge (x := { s.ops i with body := body, attrs := (s.ops op).attrs }) hf.plan.pool
    hf.plan.consistent hop hin hout rfl hrem (by rw [hbody]; rfl) hki fun α _ I S vs => ?_
  simp only [Operator.meaning, hbody]
  exact projectInto_meaning hinto hproj _ vs

theorem ProjectsMeant.run {a : Unit} (hs : Plausible s) (hrefs : ProjectsRefer s) (h : mergeProjectsToJoin s = .ok a t) :
    ∃ kept, ProjectsMeant s kept [] t := by
  obtain ⟨_,_,h1,h⟩ := bind_eq_ok.mp h
  obtain ⟨rfl,rfl⟩ := get_eq_ok.mp h1
  rw [hs.pool.usedList.head_eq] at h
  refine removeWhere_rule (I := fun done rest r => ProjectsMeant s done rest r)
    (fun _ _ _ h => h.fused.elim fun _ h => ⟨h.plan.pool,h.used⟩) (fun done op rest r r' hr hm => ?_)
    (fun done op rest r r' r'' next hr hm hrem => hr.merge hs.consistent hrefs hm hrem)
    ⟨⟨id,.start hs⟩,.refl s⟩ h
  rcases mergeProject_ok hm with ⟨-,rfl⟩ | ⟨_,_,_,_,he,-⟩
  · obtain ⟨ρ,hf⟩ := hr.fused
    exact ⟨⟨ρ,hf.plan,by simpa using hf.used,hf.mem,hf.inputs,hf.gone,hf.kept⟩,hr.outputs⟩
  · simp at he

/-- A join with the projects of `op` in place of the join `i`: it has the predicate and,
up to the projects that are gone, the inputs of the join, and the columns and readers of the
project. Its expressions have for a pair of rows the values that they had for the joined row. -/
structure JoinProject (s t : PlanState) (ρ : OpId → OpId) (op i : OpId) : Prop where
  input : (s.ops op).inputs = [i]
  inputs : (t.ops i).inputs = (s.ops i).inputs.map ρ
  attrs : (t.ops i).attrs = (s.ops op).attrs
  outputs : (t.ops i).outputs.Perm (s.ops op).outputs
  body : ∃ projs projs' outer inner pred, (s.ops op).body = .project projs ∧
    ((s.ops i).body = .join outer inner pred ∧ (t.ops i).body = .joinProject projs' pred ∨
      (s.ops i).body = .strJoin outer inner pred ∧ (t.ops i).body = .strJoinProject projs' pred) ∧
    ∀ (α : Type) (I : Interp α) (l r : Row α),
      projectedRow I [l, r] projs' = projectedRow I [joinedRow I outer l r] (projs.take (s.ops op).attrs.length)

theorem Fused.joinProject (h : Fused s t op i) (hrefs : ∀ projs, (s.ops op).body = .project projs → ExprsRefer projs)
    (hins : (t.ops i).inputs = (s.ops i).inputs.map ρ) : JoinProject s t ρ op i := by
  obtain ⟨projs,hbody,hinto⟩ := h.body
  have hrow (outer : ℕ) (α : Type) (I : Interp α) (l r : Row α) :
      projectedRow I [l, r] ((projs.take (s.ops op).attrs.length).map (transToJoinExpr outer)) =
        projectedRow I [joinedRow I outer l r] (projs.take (s.ops op).attrs.length) :=
    projectedRow_transToJoinExpr fun e he => hrefs projs hbody e (List.mem_of_mem_take he)
  refine ⟨h.input,hins,h.attrs,h.outputs,?_⟩
  cases hb : (s.ops i).body with
  | join outer inner pred =>
    rw [hb] at hinto
    exact ⟨projs,_,outer,inner,pred,hbody,.inl ⟨rfl,(Option.some.inj hinto).symm⟩,hrow outer⟩
  | strJoin outer inner pred =>
    rw [hb] at hinto
    exact ⟨projs,_,outer,inner,pred,hbody,.inr ⟨rfl,(Option.some.inj hinto).symm⟩,hrow outer⟩
  | _ =>
    rw [hb] at hinto
    simp [projectInto] at hinto

/-- After `mergeProjectsToJoin` every output and sink receives what it did. The operators
that are gone are projects, each in its join, and all others are as they were, up to what
they read from. -/
theorem mergeProjectsToJoin_meaning (hs : Plausible s) (hrefs : ProjectsRefer s) (h : mergeProjectsToJoin s = .ok () t) :
    (∀ (α : Type) [DecidableEq α] (I : Interp α) (S : Sources α), SameResults α I S s t) ∧
    ∃ ρ : OpId → OpId, (∀ o ∈ t.used, o ∈ s.used ∧ ρ o = o ∧ (t.ops o).inputs = (s.ops o).inputs.map ρ) ∧
      (∀ op ∈ s.used, op ∉ t.used → ρ op ∈ t.used ∧ JoinProject s t ρ op (ρ op)) ∧
      ∀ o ∈ t.used, Unfused s t o ∨ ∃ op ∈ s.used, op ∉ t.used ∧ ρ op = o := by
  obtain ⟨kept,hrun⟩ := ProjectsMeant.run hs hrefs h
  obtain ⟨ρ,hf⟩ := hrun.fused
  have ht := hf.plan
  refine ⟨fun α _ I S => hrun.outputs.sameResults hs.consistent hs.acyclic ht.consistent ht.acyclic I S,ρ,
    fun o ho => ⟨(hf.mem o ho).1,(hf.mem o ho).2,hf.inputs o ho⟩,fun op hop hgone => ?_,fun o ho => ?_⟩
  · obtain ⟨hρ,hfused⟩ := hf.gone op hop hgone
    exact ⟨hρ,hfused.joinProject (hrefs op hop) (hf.inputs _ hρ)⟩
  · by_cases hinj : ∀ op ∈ s.used, ρ op = o → op = o
    · exact .inl (hf.kept o ho hinj)
    · simp only [not_forall] at hinj
      obtain ⟨op,hop,hρ,hne⟩ := hinj
      exact .inr ⟨op,hop,fun hopt => hne (((hf.mem op hopt).2).symm.trans hρ),hρ⟩

theorem Sound.toPlausible (hs : Sound s) : Plausible s := by
  refine ⟨hs.pool,hs.consistent,hs.acyclic,fun o ho hk => (hs.arity o ho).trans ?_⟩
  cases hb : (s.ops o).body <;> simp [hb,Body.kind,Body.arity] at hk ⊢

/-- Whether an operator is no project, or one that refers to its input. -/
def Body.projectRefers : Body → Bool
  | .project projs => projs.all fun e => e.attrs.all fun a => a.input = 0
  | _ => true

theorem ProjectsRefer.of_all (h : (s.used.all fun o => (s.ops o).body.projectRefers) = true) : ProjectsRefer s := by
  intro o ho projs hb e he a ha
  have hall := List.all_eq_true.mp h o ho
  rw [hb] at hall
  simpa using List.all_eq_true.mp (List.all_eq_true.mp hall e he) a ha

/-- The projects of two queries become part of their joins. -/
theorem twoJoins_projects : ∃ t, mergeProjectsToJoin (preparedPlan twoJoins) = .ok () t ∧
    SameResults ℤ intInterp (oneRow [1]) (preparedPlan twoJoins) t ∧
    ∃ op ∈ (preparedPlan twoJoins).used, op ∉ t.used ∧ ∃ ρ, JoinProject (preparedPlan twoJoins) t ρ op (ρ op) := by
  have hreg : Registered blankMemory twoJoins := Registered.start.runCalls _ (by decide +kernel)
  obtain ⟨s₁,s₂,h1,h2,h3⟩ := preparedPlan_passes (s := twoJoins) (by decide +kernel)
  have hs := (prepared_sound hreg h1 h2 h3).1.toPlausible
  have ht := eq_ok_of_returns (r := mergeProjectsToJoin (preparedPlan twoJoins)) (by decide +kernel)
  have hgone : ((preparedPlan twoJoins).used.any fun op =>
      decide (op ∉ (finalState (mergeProjectsToJoin (preparedPlan twoJoins))).used)) = true := by decide +kernel
  obtain ⟨op,hop,hopt⟩ := List.any_eq_true.mp hgone
  obtain ⟨hsame,ρ,-,hjoin,-⟩ := mergeProjectsToJoin_meaning hs (.of_all (by decide +kernel)) ht
  exact ⟨_,ht,hsame ℤ intInterp (oneRow [1]),op,hop,of_decide_eq_true hopt,ρ,(hjoin op hop (of_decide_eq_true hopt)).2⟩

end AqsiosCoordinator.Physical
