import AqsiosCoordinator.Metadata.SharedPlans

/-! # One pass merges all selects that can be merged -/
namespace AqsiosCoordinator.Physical
open Common Foundation Foundation.Outcome Metadata

def OperatorKind.takesSelect (kind : OperatorKind) : Bool := kind = .select || kind = .join || kind = .strJoin

theorem selectInto_isSome (pred : List BExpr) (body : Body) :
    (selectInto pred body).isSome = body.kind.takesSelect := by
  cases body <;> rfl

variable {s t u : PlanState} {op i : OpId} {done rest : List OpId}

/-- A select that is kept has an input that others read too, or of another kind. -/
theorem mergeSelect_false (h : mergeSelect op s = .ok false t) (hk : (s.ops op).body.kind = .select)
    (hin : (s.ops op).inputs = [i]) (hi : (s.ops i).body.kind.takesSelect = true) : (s.ops i).outputs.length ≠ 1 := by
  intro hlen
  obtain ⟨_,_,h1,h⟩ := bind_eq_ok.mp h
  obtain ⟨rfl,rfl⟩ := getOp_ok.mp h1
  cases hbody : (s.ops op).body with
  | select pred =>
    simp only [hbody, hin] at h
    obtain ⟨_,_,h2,h⟩ := bind_eq_ok.mp h
    obtain ⟨rfl,rfl⟩ := getOp_ok.mp h2
    rw [if_neg (not_not.mpr hlen)] at h
    rw [← selectInto_isSome pred, Option.isSome_iff_exists] at hi
    obtain ⟨body,hinto⟩ := hi
    simp only [hinto] at h
    obtain ⟨_,_,-,h⟩ := bind_eq_ok.mp h
    obtain ⟨h3,-⟩ := pure_eq_ok.mp h
    simp at h3
  | _ => simp [hbody,Body.kind] at hk

/-- The selects of `done` read from nothing that they could be merged into. -/
def Settled (done : List OpId) (s : PlanState) : Prop := ∀ q ∈ done, (s.ops q).body.kind = .select →
  ∀ i ∈ (s.ops q).inputs, (s.ops i).body.kind.takesSelect = true → (s.ops i).outputs.length ≠ 1

theorem Settled.keep (h : Settled done s) (hs : Sound s) (hop : op ∈ s.used) (hm : mergeSelect op s = .ok false t) :
    Settled (done ++ [op]) s := by
  intro q hq hk i hi hkind
  rcases List.mem_append.mp hq with hq | hq
  · exact h q hq hk i hi hkind
  · obtain rfl := List.mem_singleton.mp hq
    have harity : (s.ops q).body.arity = 1 := by
      cases hb : (s.ops q).body <;> simp [hb,Body.kind,Body.arity] at hk ⊢
    obtain ⟨j,hin,-⟩ := single_input hs hop harity
    rw [hin, List.mem_singleton] at hi
    rw [hi] at hkind ⊢
    exact mergeSelect_false hm hk hin hkind

/-- Taking a select out leaves its input with the select's readers, of which those before
it have been found not to be the only ones. -/
theorem Settled.remove (h : Settled done s) (hs : Sound s) (hused : s.used = done ++ op :: rest)
    (hop : (s.ops op).body.kind = .select) (hlen : (s.ops i).outputs.length = 1) (hr : Removed done rest op i s u) :
    Settled done u := by
  intro q hq hk c hc hkind
  have hbody (o : OpId) : (u.ops o).body = (s.ops o).body := by
    obtain ⟨ins,outs,-,heq⟩ := hr.fields o
    rw [heq]
  rw [hbody] at hk hkind
  have hnd : (done ++ op :: rest).Nodup := hused ▸ hs.pool.nodup
  have hqop : q ≠ op := by
    rintro rfl
    exact (List.nodup_append.mp hnd).2.2 q hq q List.mem_cons_self rfl
  have hqV : q ∈ s.used := by simp [hused,hq]
  have hopV : op ∈ s.used := by simp [hused]
  have hiV : i ∈ s.used := hs.consistent.inputs_mem op hopV i (by simp [hr.input])
  have hself : (s.ops i).outputs = [op] :=
    eq_singleton_of_mem ((hs.consistent.mem_iff hopV hiV).mp (by simp [hr.input])) hlen.le
  have hout : (u.ops i).outputs.length = (s.ops op).outputs.length := by
    simpa [hself] using hr.bypassed.outputs_input.length_eq
  have hins : (u.ops q).inputs = _ := hr.bypassed.inputs q hqV hqop
  rw [hins, List.mem_map] at hc
  obtain ⟨x,hx,rfl⟩ := hc
  rw [ports_inputs] at hx
  by_cases hxop : x = op
  · rw [if_pos hxop, hout]
    rw [hxop] at hx
    exact h q hq hk op hx (by rw [hop]; rfl)
  · rw [if_neg hxop] at hkind ⊢
    have hxi : x ≠ i := by
      intro he
      have hmem := (hs.consistent.mem_iff hqV hiV).mp (he ▸ hx : i ∈ (s.ops q).inputs)
      rw [ports_outputs, hself] at hmem
      exact hqop (List.mem_singleton.mp hmem)
    have hsame : (u.ops x).outputs = (s.ops x).outputs :=
      hr.bypassed.outputs_other x (hs.consistent.inputs_mem q hqV x hx) hxop hxi
    rw [hsame]
    exact h q hq hk x hx hkind

/-- Changing the body of an operator, but not its kind. -/
theorem Settled.setBody {body : Body} (h : Settled done s) (hk : body.kind = (s.ops i).body.kind) :
    Settled done (s.setOp i { s.ops i with body := body }) := by
  have hops (o : OpId) : ∃ b, (s.setOp i { s.ops i with body := body }).ops o = { s.ops o with body := b } ∧
      b.kind = (s.ops o).body.kind := by
    by_cases ho : o = i
    · subst ho
      exact ⟨body,setOp_ops_self _ _,hk⟩
    · exact ⟨(s.ops o).body,setOp_ops_of_ne _ ho,rfl⟩
  intro q hq hkq c hc hkc
  obtain ⟨b,hb,hbk⟩ := hops q
  obtain ⟨b',hb',hbk'⟩ := hops c
  rw [hb] at hkq hc
  rw [hb'] at hkc ⊢
  exact h q hq (hbk ▸ hkq) c hc (hbk' ▸ hkc)

theorem mergeSelects_settled {a : Unit} (hs : Sound s) (hq : NoQuerySource s) (hr : AllRead s)
    (h : mergeSelects s = .ok a t) : Settled t.used t := by
  obtain ⟨_,_,h1,h⟩ := bind_eq_ok.mp h
  obtain ⟨rfl,rfl⟩ := get_eq_ok.mp h1
  rw [hs.pool.usedList.head_eq] at h
  have hstart : SelectsMerged [] s.used s ∧ Settled [] s := ⟨⟨hs,hq,hr,rfl⟩,by simp [Settled]⟩
  have hrun : ∃ kept, SelectsMerged kept [] t ∧ Settled kept t := by
    refine removeWhere_rule (I := fun done rest r => SelectsMerged done rest r ∧ Settled done r)
      (fun _ _ _ h => ⟨h.1.sound.pool,h.1.used⟩) (fun done op rest r r' hr hm => ?_)
      (fun done op rest r r' r'' next hr hm hrem => ?_) hstart h
    · have hop : op ∈ r.used := by simp [hr.1.used]
      have hkept := hr.2.keep hr.1.sound hop hm
      rcases mergeSelect_ok hm with ⟨-,rfl⟩ | ⟨_,_,_,_,he,-⟩
      · exact ⟨⟨hr.1.sound,hr.1.noQuery,hr.1.allRead,by simpa using hr.1.used⟩,hkept⟩
      · simp at he
    · obtain ⟨hnext,pred,i,body,hbody,-,hi,hlen,hinto,rfl,ht,hremoved⟩ := hr.1.removed hm hrem
      refine ⟨hnext,(hr.1.merge hm hrem).2,?_⟩
      refine (hr.2.setBody (selectInto_spec hinto).1).remove ht.sound ht.used ?_ ?_ hremoved
      · rw [setOp_ops_of_ne _ (Ne.symm hi), hbody]
        rfl
      · rw [setOp_ops_self]
        exact hlen
  obtain ⟨kept,hdone,hsettled⟩ := hrun
  rw [hdone.used, List.append_nil]
  exact hsettled

def PlanState.OnlyReader (s : PlanState) (op i : OpId) : Prop := ∀ q ∈ s.used, i ∈ (s.ops q).inputs → q = op

/-- An operator with one input that alone reads from it is its only output. -/
theorem PlanState.OnlyReader.outputs_length (h : s.OnlyReader op i) (hs : Sound s) (hop : op ∈ s.used)
    (hin : (s.ops op).inputs = [i]) : (s.ops i).outputs.length = 1 := by
  have hiV : i ∈ s.used := hs.consistent.inputs_mem op hop i (by simp [hin])
  have hall : ∀ q ∈ (s.ops i).outputs, op = q := by
    intro q hq
    have hqV := hs.consistent.outputs_mem i hiV q hq
    exact (h q hqV ((hs.consistent.mem_iff hqV hiV).mpr hq)).symm
  rw [← List.count_eq_length.mpr hall]
  have hcount := hs.consistent.balanced op hop i hiV
  simpa [hin] using hcount.symm

/-- After `mergeSelects` no select is the only reader of a select or a join. -/
theorem mergeSelects_fixpoint {mem : OpId → Operator} {s₀ s₁ s₂ s₃ : PlanState} (h₀ : Registered mem s₀)
    (h₁ : removeQuerySources s₀ = .ok () s₁) (h₂ : addSinks s₁ = .ok () s₂) (h₃ : mergeSelects s₂ = .ok () s₃) :
    ∀ op ∈ s₃.used, (s₃.ops op).body.kind = .select → ∀ i ∈ (s₃.ops op).inputs,
      (s₃.ops i).body.kind = .select ∨ (s₃.ops i).body.kind = .join ∨ (s₃.ops i).body.kind = .strJoin →
      ¬ s₃.OnlyReader op i := by
  intro op hop hk i hi hkind honly
  obtain ⟨hs1,hq1⟩ := removeQuerySources_sound (registered_sound h₀) h₁
  obtain ⟨hs2,hq2,hr2⟩ := addSinks_sound hs1 hq1 h₂
  obtain ⟨hs3,-,-⟩ := mergeSelects_sound hs2 hq2 hr2 h₃
  have harity : (s₃.ops op).body.arity = 1 := by
    cases hb : (s₃.ops op).body <;> simp [hb,Body.kind,Body.arity] at hk ⊢
  obtain ⟨j,hin,-⟩ := single_input hs3 hop harity
  obtain rfl : i = j := by simpa [hin] using hi
  refine mergeSelects_settled hs2 hq2 hr2 h₃ op hop hk i hi ?_ (honly.outputs_length hs3 hop hin)
  rcases hkind with h | h | h <;> rw [h] <;> rfl

def selectsOverView : PlanState := planAfter
  [.addBaseTable oneAttrTables 0, .addBaseTable oneAttrTables 1,
    .addLogicalQueryPlan blankUninit 0 (positiveRows 1) true, .map oneAttrTables 0 2,
    .addLogicalQueryPlan blankUninit 1 (positiveRows 2) true, .addLogicalQueryPlan blankUninit 2 (positiveRows 2) true]

/-- The select of the first query stays above the select of the view, which has other readers. -/
theorem selectsOverView_fixpoint : ¬ (preparedPlan selectsOverView).OnlyReader ⟨9,by decide +kernel⟩ ⟨3,by decide +kernel⟩ := by
  have hreg : Registered blankMemory selectsOverView := Registered.start.runCalls _ (by decide +kernel)
  obtain ⟨s₁,s₂,h1,h2,h3⟩ := preparedPlan_passes (s := selectsOverView) (by decide +kernel)
  exact mergeSelects_fixpoint hreg h1 h2 h3 ⟨9,by decide +kernel⟩ (by decide +kernel) (by decide +kernel) ⟨3,by decide +kernel⟩
    (by decide +kernel) (by decide +kernel)

end AqsiosCoordinator.Physical
