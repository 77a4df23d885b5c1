import AqsiosCoordinator.Metadata.PlanMeaning
import AqsiosCoordinator.Metadata.SelectFixpoint

/-! # Merging selects keeps what a plan computes -/
namespace AqsiosCoordinator.Physical
open Common Foundation Foundation.Outcome Metadata
variable {α : Type} {I : Interp α} {l r : Row α} {outer : ℕ}

theorem attrValue_transToJoinAttr {a : Attr} (ha : a.input = 0) :
    attrValue I [l, r] (transToJoinAttr outer a) = attrValue I [joinedRow I outer l r] a := by
  obtain ⟨input,pos⟩ := a
  simp only at ha
  subst ha
  unfold transToJoinAttr attrValue joinedRow
  by_cases h : outer ≤ pos
  · rw [if_pos h]
    simp only [List.getD_cons_zero, List.getD_cons_succ]
    rw [List.getD_append_right _ _ _ _ (by simpa using h), length_fit]
  · have hlt : pos < outer := not_le.mp h
    rw [if_neg h]
    simp only [List.getD_cons_zero]
    rw [List.getD_append _ _ _ _ (by simpa using hlt), getD_fit hlt]

/-- An expression over the row of a join is the transformed one over the pair of rows. -/
theorem value_transToJoinExpr {e : Expr} (he : ∀ a ∈ e.attrs, a.input = 0) :
    I.value (attrValue I [l, r]) (transToJoinExpr outer e) = I.value (attrValue I [joinedRow I outer l r]) e := by
  unfold transToJoinExpr
  rw [Interp.value_map]
  exact Interp.value_congr fun a ha => attrValue_transToJoinAttr (he a ha)

def PredRefers (pred : List BExpr) : Prop := ∀ b ∈ pred, ∀ a ∈ b.attrs, a.input = 0

theorem PredRefers.append {p q : List BExpr} (hp : PredRefers p) (hq : PredRefers q) : PredRefers (p ++ q) := by
  intro b hb
  exact (List.mem_append.mp hb).elim (hp b) (hq b)

theorem holds_transToJoinPred {pred : List BExpr} (hp : PredRefers pred) :
    I.holds (attrValue I [l, r]) (transToJoinPred outer pred) = I.holds (attrValue I [joinedRow I outer l r]) pred := by
  unfold Interp.holds transToJoinPred
  rw [List.all_map]
  rw [Bool.eq_iff_iff, List.all_eq_true, List.all_eq_true]
  refine forall₂_congr fun b hb => ?_
  have h := hp b hb
  simp only [BExpr.attrs, List.mem_append] at h
  simp only [Function.comp, Interp.compare]
  rw [value_transToJoinExpr fun a ha => h a (.inl ha), value_transToJoinExpr fun a ha => h a (.inr ha)]
  simp [transToJoinExpr]

variable [DecidableEq α] {S : Sources α}

/-- What a select is merged into computes what the two did one after the other. -/
theorem selectInto_meaning {pred : List BExpr} {body body' : Body} (h : selectInto pred body = some body')
    (hp : PredRefers pred) (m n : ℕ) (vs : List (TimeVarying α)) :
    body'.meaning I S n vs = (Body.select pred).meaning I S m [body.meaning I S n vs] := by
  cases body with
  | select p =>
    obtain rfl := Option.some.inj h
    simp only [Body.meaning, List.getD_cons_zero, TimeVarying.filter_filter, Interp.holds_append, Bool.and_comm]
  | join outer inner p =>
    obtain rfl := Option.some.inj h
    simp only [Body.meaning, List.getD_cons_zero, TimeVarying.filter_join, Interp.holds_append,
      holds_transToJoinPred hp]
  | strJoin outer inner p =>
    obtain rfl := Option.some.inj h
    simp only [Body.meaning, List.getD_cons_zero, TimeVarying.filter_streamJoin, Interp.holds_append,
      holds_transToJoinPred hp]
  | _ => simp [selectInto] at h

def SelectsRefer (s : PlanState) : Prop := ∀ o ∈ s.used, ∀ pred, (s.ops o).body = .select pred → PredRefers pred

variable {s t u : PlanState} {op i : OpId} {done rest : List OpId}

theorem selectInto_refers {pred q : List BExpr} {body : Body} (h : selectInto pred body = some (.select q))
    (hp : PredRefers pred) (hb : ∀ p, body = .select p → PredRefers p) : PredRefers q := by
  cases body with
  | select p =>
    obtain rfl := Body.select.inj (Option.some.inj h)
    exact (hb p rfl).append hp
  | _ => simp [selectInto] at h

/-- The loop that merges the selects of `s₀`: the operators that are left compute what they did. -/
structure SelectsMeant (s₀ : PlanState) (done rest : List OpId) (s : PlanState) : Prop where
  merged : SelectsMerged done rest s
  refers : SelectsRefer s
  outputs : OutputsKept s₀ s

theorem SelectsMeant.start (h : SelectsMerged [] s.used s) (hr : SelectsRefer s) : SelectsMeant s [] s.used s :=
  ⟨h,hr,.refl s⟩

theorem SelectsMeant.merge {s₀ : PlanState} {next : Option OpId} (h : SelectsMeant s₀ done (op :: rest) s)
    (hm : mergeSelect op s = .ok true t) (hr : removeOp op t = .ok next u) :
    next = rest.head? ∧ SelectsMeant s₀ done rest u := by
  obtain ⟨hnext,pred,i,body,hbody,hin,-,hlen,hinto,rfl,-,hrem⟩ := h.merged.removed hm hr
  have hs := h.merged.sound
  have hop : op ∈ s.used := by simp [h.merged.used]
  have hiV : i ∈ s.used := hs.consistent.inputs_mem op hop i (by simp [hin])
  have hout : (s.ops i).outputs = [op] :=
    eq_singleton_of_mem ((hs.consistent.mem_iff hop hiV).mp (by simp [hin])) hlen.le
  have hpred := h.refers op hop pred hbody
  have hki : (s.ops i).body.kind.isOutput = false := by
    have htakes := selectInto_isSome pred (s.ops i).body
    rw [hinto] at htakes
    cases hb : (s.ops i).body <;> simp [hb,Body.kind,OperatorKind.isOutput,OperatorKind.takesSelect] at htakes ⊢
  refine ⟨hnext,(h.merged.merge hm hr).2,fun o ho p hp => ?_,?_⟩
  · obtain ⟨ins,outs,-,heq⟩ := hrem.fields o
    have hoV := hrem.mem_before ho
    rw [heq] at hp
    by_cases hoi : o = i
    · subst hoi
      simp only [setOp_ops_self] at hp
      exact selectInto_refers (hp ▸ hinto) hpred fun q hq => h.refers o hiV q hq
    · simp only [setOp_ops_of_ne _ hoi] at hp
      exact h.refers o hoV p hp
  · refine h.outputs.merge (x := { s.ops i with body := body }) hs.pool hs.consistent hop hin hout rfl hrem
      (by rw [hbody]; rfl) hki fun α _ I S vs => ?_
    simp only [Operator.meaning, hbody]
    exact selectInto_meaning hinto hpred _ _ vs

theorem SelectsMeant.run {a : Unit} (hs : Sound s) (hq : NoQuerySource s) (hr : AllRead s) (hrefs : SelectsRefer s)
    (h : mergeSelects s = .ok a t) : ∃ kept, SelectsMeant s kept [] t := by
  obtain ⟨_,_,h1,h⟩ := bind_eq_ok.mp h
  obtain ⟨rfl,rfl⟩ := get_eq_ok.mp h1
  rw [hs.pool.usedList.head_eq] at h
  refine removeWhere_rule (fun _ _ _ h => ⟨h.merged.sound.pool,h.merged.used⟩) (fun done op rest r r' hr hm => ?_)
    (fun done op rest r r' r'' next hr hm hrem => hr.merge hm hrem) (SelectsMeant.start ⟨hs,hq,hr,rfl⟩ hrefs) h
  rcases mergeSelect_ok hm with ⟨-,rfl⟩ | ⟨_,_,_,_,he,-⟩
  · exact ⟨⟨hr.merged.sound,hr.merged.noQuery,hr.merged.allRead,by simpa using hr.merged.used⟩,hr.refers,hr.outputs⟩
  · simp at he

end AqsiosCoordinator.Physical
