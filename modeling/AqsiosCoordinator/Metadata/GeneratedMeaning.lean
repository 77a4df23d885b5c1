import AqsiosCoordinator.Metadata.PlanMeaning
import AqsiosCoordinator.Querygen.PlanReferences
import AqsiosCoordinator.Foundation.RowInvariants

/-! # Generated plans compute what logical plans do

A logical plan looks its attributes up by name, a physical plan by position. The operator
that stands for a logical plan carries the bag that the plan computes from what the source
operators of its tables carry.
-/
namespace AqsiosCoordinator
open Common Foundation Foundation.Outcome Metadata

def Common.Interp.CountsRows {α : Type} (I : Interp α) : Prop :=
  ∀ xs ys : Multiset α, xs.card = ys.card → I.aggr .count xs = I.aggr .count ys

namespace Logical

def Kind.tableId : Kind → Option ℕ
  | .streamSource _ tableId | .relnSource _ tableId => some tableId
  | _ => none

/-- The inputs of a set operation have the same number of columns. -/
def Kind.Compatible (kind : Kind) (inputs : List (List Attr)) : Prop :=
  kind = .union ∨ kind = .except → ∀ l ∈ inputs, ∀ r ∈ inputs, l.length = r.length

namespace Plan
variable {tableMgr : TableManager} {p : Plan} {α : Type} [DecidableEq α] {I : Interp α} {S : Sources α}

/-- The schemas are derived, crosses are binary, and the attributes are found in the inputs. -/
structure WellFormed (tableMgr : TableManager) (p : Plan) : Prop where
  derived : DerivedBinary tableMgr p
  references : References p
  compatible : p.Everywhere fun kind _ inputs => kind.Compatible inputs

theorem WellFormed.inputs {kind : Kind} {outAttrs : List Attr} {bStream : Bool} {inputs : List Plan}
    (h : WellFormed tableMgr (.node kind outAttrs bStream inputs)) : ∀ i ∈ inputs, WellFormed tableMgr i := fun i hi =>
  ⟨(everywhere_node.mp h.derived).2 i hi,(everywhere_node.mp h.references).2 i hi,(everywhere_node.mp h.compatible).2 i hi⟩

def HasWidth (n : ℕ) (r : Row α) : Prop := r.length = n

/-- The rows of a plan have a value for each attribute of its schema. -/
theorem DerivedBinary.width (h : DerivedBinary tableMgr p) : (p.denote I S).AllRows (HasWidth p.outAttrs.length) := by
  induction h with
  | @node kind outAttrs bStream inputs hhere _ ih =>
    obtain ⟨hderives,hbinary⟩ := hhere
    rw [denote_node, outAttrs_node]
    have hfit : (R : TimeVarying α) → (R.map (fit I.null outAttrs.length)).AllRows (HasWidth outAttrs.length) :=
      fun R => TimeVarying.allRows_map fun r => length_fit ..
    -- an operator that copies its schema has one input with the schema
    have hcopy (hk : inputs.map Plan.outAttrs = [outAttrs]) : ∃ R : TimeVarying α, R.AllRows (HasWidth outAttrs.length) ∧
        inputs.map (fun p => (p.outAttrs,p.denote I S)) = [(outAttrs,R)] := by
      obtain ⟨i,rfl,hi⟩ := List.map_eq_singleton_iff.mp hk
      have hrows := ih i (List.mem_singleton_self i)
      rw [hi] at hrows
      exact ⟨i.denote I S,hrows,by simp [hi]⟩
    have hfactors (now : ℕ) (factors : List (ℕ × Multiset (Row α)))
        (hlen : factors.map Prod.fst = inputs.map fun p => p.outAttrs.length) (hout : outAttrs = (inputs.map Plan.outAttrs).flatten) :
        ∀ r ∈ product I.null factors, HasWidth outAttrs.length r := by
      intro r hr
      rw [HasWidth, length_of_mem_product hr, hlen, hout, List.length_flatten, List.map_map]
      rfl
    cases kind with
    | streamSource varId tableId => exact hfit _
    | relnSource varId tableId => exact hfit _
    | rowWin numRows =>
      obtain ⟨R,hR,hin⟩ := hcopy hderives
      rw [hin]
      exact hR.partitionWindow S.listed _ _
    | rangeWin timeUnits =>
      obtain ⟨R,hR,hin⟩ := hcopy hderives
      rw [hin]
      exact hR.rangeWindow _
    | nowWin =>
      obtain ⟨R,hR,hin⟩ := hcopy hderives
      rw [hin]
      exact hR.rangeWindow _
    | partnWin partnAttrs numRows =>
      obtain ⟨R,hR,hin⟩ := hcopy hderives
      rw [hin]
      exact hR.partitionWindow S.listed _ _
    | select bexpr =>
      obtain ⟨R,hR,hin⟩ := hcopy hderives
      rw [hin]
      exact hR.filter _
    | project projExprs =>
      refine TimeVarying.allRows_map fun r => ?_
      rw [HasWidth, hderives.2, List.length_map]
      exact List.length_map ..
    | cross =>
      refine fun now r hr => hfactors now _ ?_ hderives r hr
      simp
    | groupAggr groupAttrs aggrs =>
      have hrow (k : Row α) (rows : Multiset (Row α)) (hk : k.length = groupAttrs.length) :
          HasWidth outAttrs.length (k ++ aggrRow I aggrs rows) := by
        rw [HasWidth, hderives.2]
        simp [hk,aggrRow]
      intro now r hr
      simp only [Kind.denote, TimeVarying.group] at hr
      split at hr
      · obtain ⟨k,hk,rfl⟩ := Multiset.mem_map.mp hr
        obtain ⟨x,-,rfl⟩ := Multiset.mem_map.mp (Multiset.mem_dedup.mp hk)
        exact hrow _ _ (List.length_map ..)
      · rename_i hgrouped
        obtain rfl := Multiset.mem_singleton.mp hr
        have hnil : groupAttrs = [] := by simpa using hgrouped
        simpa using hrow [] _ (by simp [hnil])
    | distinct =>
      obtain ⟨R,hR,hin⟩ := hcopy hderives
      rw [hin]
      exact hR.distinct
    | istream =>
      obtain ⟨R,hR,hin⟩ := hcopy hderives
      rw [hin]
      exact TimeVarying.allRows_accumulate hR.arrivals
    | dstream =>
      obtain ⟨R,hR,hin⟩ := hcopy hderives
      rw [hin]
      exact TimeVarying.allRows_accumulate hR.removals
    | rstream =>
      obtain ⟨R,hR,hin⟩ := hcopy hderives
      rw [hin]
      exact TimeVarying.allRows_accumulate hR
    | streamCross =>
      obtain ⟨l,r,rfl⟩ := List.length_eq_two.mp (by simpa using hbinary (.inr rfl))
      refine TimeVarying.allRows_accumulate fun now x hx => hfactors now _ ?_ hderives x hx
      simp
    | union =>
      obtain ⟨l,r,hin,hout⟩ := hderives
      obtain ⟨i,rest,rfl,hi,hrest⟩ := List.map_eq_cons_iff.mp hin
      obtain ⟨j,rfl,hj⟩ := List.map_eq_singleton_iff.mp hrest
      have hleft := ih i List.mem_cons_self
      rw [hi, show l.length = outAttrs.length by simp [hout]] at hleft
      exact TimeVarying.AllRows.union hleft (hfit _)
    | except =>
      obtain ⟨l,r,hin,hout⟩ := hderives
      obtain ⟨i,rest,rfl,hi,hrest⟩ := List.map_eq_cons_iff.mp hin
      have hleft := ih i List.mem_cons_self
      rw [hi, show l.length = outAttrs.length by simp [hout]] at hleft
      exact TimeVarying.AllRows.except hleft

/-- The contents of the tables that a plan reads decide what it computes. -/
theorem denote_congr {S' : Sources α} (horder : S'.order = S.order)
    (h : p.Everywhere fun kind _ _ => ∀ id, kind.tableId = some id → S'.table id = S.table id) : p.denote I S' = p.denote I S := by
  induction h with
  | @node kind outAttrs bStream inputs here _ ih =>
    rw [denote_node, denote_node]
    have hinputs : (inputs.map fun p => (p.outAttrs,p.denote I S')) = inputs.map fun p => (p.outAttrs,p.denote I S) :=
      List.map_congr_left fun i hi => by rw [ih i hi]
    rw [hinputs]
    cases kind with
    | streamSource varId tableId => simp only [Kind.denote, here tableId rfl]
    | relnSource varId tableId => simp only [Kind.denote, here tableId rfl]
    | _ => simp only [Kind.denote, horder]

end Plan
end Logical

namespace Physical
open Logical.Plan (HasWidth WellFormed)
variable {α : Type} {I : Interp α} {v : Uninit} {schema : List Logical.Attr} {r : Row α}

/-- An attribute that the input has is found by position where it is found by name. -/
theorem attrValue_transformAttr {a : Logical.Attr} (h : schema.any (fun b => a.same b) = true) :
    attrValue I [r] (transformAttr v [schema] a) = Logical.lookup I schema r a := by
  obtain ⟨pos,hpos⟩ : ∃ pos, schema.findIdx? (fun b => a.same b) = some pos := by
    rw [← Option.isSome_iff_exists, List.findIdx?_isSome]
    exact h
  simp [attrValue,transformAttr,findAttr,Logical.lookup,hpos]

theorem value_transformExpr {e : Logical.Expr} (h : ∀ a ∈ e.attrs, schema.any (fun b => a.same b) = true) :
    I.value (attrValue I [r]) (e.map (transformAttr v [schema])) = I.value (Logical.lookup I schema r) e := by
  rw [Interp.value_map]
  exact Interp.value_congr fun a ha => attrValue_transformAttr (h a ha)

theorem compare_transformedBExpr {b : Logical.BExpr} (h : ∀ a ∈ b.attrs, schema.any (fun b => a.same b) = true) :
    I.compare (attrValue I [r]) (transformedBExpr v [schema] b) = I.compare (Logical.lookup I schema r) b := by
  simp only [BExpr.attrs, List.mem_append] at h
  simp only [Interp.compare, transformedBExpr, Expr.type_map]
  rw [value_transformExpr fun a ha => h a (.inl ha), value_transformExpr fun a ha => h a (.inr ha)]

theorem projectedRow_transformed {es : List Logical.Expr}
    (h : ∀ a ∈ es.flatMap Expr.attrs, schema.any (fun b => a.same b) = true) :
    projectedRow I [r] (es.map (Expr.map (transformAttr v [schema]))) = Logical.exprRow I schema es r := by
  rw [projectedRow, Logical.exprRow, List.map_map]
  exact List.map_congr_left fun e he => value_transformExpr fun a ha => h a (List.mem_flatMap.mpr ⟨e,he,ha⟩)

theorem attrValues_transformed {attrs : List Logical.Attr} (h : ∀ a ∈ attrs, schema.any (fun b => a.same b) = true) :
    (attrs.map (transformAttr v [schema])).map (attrValue I [r]) = attrs.map (Logical.lookup I schema r) := by
  rw [List.map_map]
  exact List.map_congr_left fun a ha => attrValue_transformAttr (h a ha)

/-- The aggregations of a group of rows. What is counted is another column, with as many values. -/
theorem aggregatedRow_transformed {aggrs : List (AggrFn × Logical.Attr)} (hI : I.CountsRows)
    (h : ∀ a ∈ aggrs, a.1 ≠ .count → schema.any (fun b => a.2.same b) = true) (rows : Multiset (Row α)) :
    aggregatedRow I (aggrs.map (transformAggr v [schema]))
        (rows.map fun r => (aggrs.map (transformAggr v [schema])).map fun a => attrValue I [r] a.2) =
      Logical.aggrRow I aggrs (rows.map fun r => aggrs.map fun a => Logical.lookup I schema r a.2) := by
  unfold aggregatedRow Logical.aggrRow
  rw [List.zipIdx_map, List.map_map]
  refine List.map_congr_left fun ⟨a,k⟩ ha => ?_
  obtain ⟨-,hlt,hk⟩ := List.mem_zipIdx ha
  simp only [Nat.zero_add, Nat.sub_zero] at hlt hk
  have hlt' : k < aggrs.length := hlt
  simp only [Function.comp_apply, Prod.map_fst, Prod.map_snd, id_eq, Multiset.map_map, transformAggr]
  by_cases hc : a.1 = .count
  · rw [hc]
    exact hI _ _ (by simp)
  · congr 1
    refine Multiset.map_congr rfl fun r _ => ?_
    simp only [List.map_map]
    rw [List.getD_eq_getElem _ _ (by simpa using hlt'), List.getD_eq_getElem _ _ (by simpa using hlt')]
    simp only [List.getElem_map, Function.comp_apply, ← hk, transformAggr, ne_eq, hc, not_false_eq_true, if_true]
    exact attrValue_transformAttr (h a (hk ▸ List.getElem_mem hlt') hc)

theorem group_congr {β : Type} [DecidableEq β] {grouped : Bool} {key key' aggregates aggregates' : Row β → Row β}
    {values values' : Multiset (Row β) → Row β} {R : TimeVarying β} (hkey : ∀ r, key r = key' r)
    (hvalues : ∀ rows : Multiset (Row β), values (rows.map aggregates) = values' (rows.map aggregates')) :
    R.group grouped key aggregates values = R.group grouped key' aggregates' values' := by
  obtain rfl : key = key' := funext hkey
  funext now
  simp only [TimeVarying.group, hvalues]

def PlanState.tableSources {α : Type} (s : PlanState) (S : Sources α) (D : OpId → TimeVarying α) : Sources α :=
  { S with table := fun tableId => D (lookupSource tableId s.sourceOps) }

/-- The tables of the plan lead to operators with as many columns as they have. -/
def PlanState.Maps (s : PlanState) : Logical.Plan → Prop := Logical.Plan.Everywhere fun kind outAttrs _ =>
  ∀ tableId, kind.tableId = some tableId → (s.ops (lookupSource tableId s.sourceOps)).attrs.length = outAttrs.length

def PlanState.Supplies {α : Type} (s : PlanState) (D : OpId → TimeVarying α) : Logical.Plan → Prop :=
  Logical.Plan.Everywhere fun kind outAttrs _ =>
    ∀ tableId, kind.tableId = some tableId → (D (lookupSource tableId s.sourceOps)).AllRows (HasWidth outAttrs.length)

/-- The operator carries what the plan computes from the tables. -/
structure Carries (s : PlanState) (p : Logical.Plan) (op : OpId) : Prop where
  width : (s.ops op).attrs.length = p.outAttrs.length
  value : ∀ {α : Type} [DecidableEq α] {I : Interp α} {S : Sources α} {D : OpId → TimeVarying α}, I.CountsRows → s.Meaning I S D →
    s.Supplies D p → D op = p.denote I (s.tableSources S D)

variable {s t : PlanState} {op child : OpId} {i : Logical.Plan} {tableMgr : TableManager}

theorem Later.meaning [DecidableEq α] {S : Sources α} {D : OpId → TimeVarying α} (h : Later s t) (hD : t.Meaning I S D) :
    s.Meaning I S D := by
  intro o ho
  obtain ⟨qc,ext,heq,-⟩ := h.old o ho
  have hval := hD o (h.used o ho)
  simp only [ports_inputs, Operator.meaning, heq] at hval
  exact hval

theorem Carries.later {p : Logical.Plan} (h : Carries s p op) (hop : op ∈ s.used) (hl : Later s t) (htab : t.tables = s.tables) :
    Carries t p op := by
  have hsrc : t.sourceOps = s.sourceOps := congrArg Tables.sourceOps htab
  obtain ⟨qc,ext,heq,-⟩ := hl.old op hop
  refine ⟨by rw [heq]; exact h.width,fun {_ _ _ S D} hI hD hsup => ?_⟩
  have hsame : t.tableSources S D = s.tableSources S D := by simp only [PlanState.tableSources, hsrc]
  rw [hsame]
  refine h.value hI (hl.meaning hD) ?_
  unfold PlanState.Supplies at hsup ⊢
  rwa [← hsrc]

theorem Added.later {body : Body} {attrs : List Column} {bStream : Bool} {inputs : List OpId}
    (h : Added op body attrs bStream inputs s t) (hs : PoolInv s) : Later s t := by
  have hop := h.not_mem hs
  refine ⟨fun o ho => h.used ▸ List.mem_cons_of_mem _ ho,fun o ho => ?_⟩
  refine ⟨(s.ops o).queryClassId,List.replicate (inputs.count o) op,h.other o fun he => hop (he ▸ ho),fun x hx => ?_⟩
  obtain rfl := List.eq_of_mem_replicate hx
  exact ⟨h.used ▸ List.mem_cons_self,hop⟩

theorem Added.value [DecidableEq α] {S : Sources α} {D : OpId → TimeVarying α} {body : Body} {attrs : List Column} {bStream : Bool}
    {inputs : List OpId} (h : Added op body attrs bStream inputs s t) (hD : t.Meaning I S D) :
    D op = body.meaning I S attrs.length (inputs.map D) := by
  have hval := hD op (h.used ▸ List.mem_cons_self)
  simpa [Operator.meaning,h.self] using hval

/-- A new operator on top of operators that stand for the inputs of a node. -/
theorem Added.carries {kind : Logical.Kind} {outAttrs : List Logical.Attr} {flag : Bool} {inputs : List Logical.Plan} {body : Body}
    {attrs : List Column} {bStream : Bool} {cs : List OpId} (h : Added op body attrs bStream cs s t) (hs : PoolInv s)
    (hc : List.Forall₂ (Carries s) inputs cs) (hd : ∀ i ∈ inputs, Logical.Plan.DerivedBinary tableMgr i)
    (hwidth : attrs.length = outAttrs.length)
    (hvalue : ∀ {α : Type} [DecidableEq α] {I : Interp α} {S S' : Sources α} (R : Logical.Plan → TimeVarying α), I.CountsRows →
      S'.order = S.order → (∀ i ∈ inputs, (R i).AllRows (HasWidth i.outAttrs.length)) →
      body.meaning I S attrs.length (inputs.map R) = kind.denote I S' outAttrs.length (inputs.map fun i => (i.outAttrs,R i))) :
    Carries t (.node kind outAttrs flag inputs) op := by
  refine ⟨by rw [h.self]; exact hwidth,fun {_ _ I S D} hI hD hsup => ?_⟩
  have hins : cs.map D = inputs.map fun i => i.denote I (t.tableSources S D) := by
    have hbelow := (Logical.Plan.everywhere_node.mp hsup).2
    clear hvalue hsup hd
    have hmem := h.inputs_mem
    have hl := h.later hs
    have htab := h.tables
    clear h
    induction hc with
    | nil => rfl
    | @cons i c inputs cs hi _ ih =>
      rw [List.map_cons, List.map_cons, ih (fun i hi => hbelow i (List.mem_cons_of_mem _ hi)) fun c hc => hmem c (List.mem_cons_of_mem _ hc)]
      congr 1
      exact (hi.later (hmem c List.mem_cons_self) hl htab).value hI hD (hbelow i List.mem_cons_self)
  rw [h.value hD, hins, Logical.Plan.denote_node]
  exact hvalue (fun i => i.denote I (t.tableSources S D)) hI rfl fun i hi => (hd i hi).width

/-- An operator without outputs is read by nobody. -/
theorem Sound.not_read (hs : Sound s) (hop : op ∈ s.used) (hout : (s.ops op).outputs = []) : ∀ o ∈ s.used, op ∉ (s.ops o).inputs := by
  intro o ho hread
  have hmem := (hs.consistent.mem_iff ho hop).mp hread
  rw [ports_outputs, hout] at hmem
  exact List.not_mem_nil hmem

/-- The value of a select before it got another predicate. -/
theorem SelectGrown.meaning_before [DecidableEq α] {S : Sources α} {D : OpId → TimeVarying α} {pred : BExpr} {preds : List BExpr}
    (h : SelectGrown op pred s t) (hs : Sound s) (hop : op ∈ s.used) (hout : (s.ops op).outputs = [])
    (hbody : (s.ops op).body = .select preds) (hD : t.Meaning I S D) : ∃ R : TimeVarying α,
      s.Meaning I S (Function.update D op (R.filter fun r => I.holds (attrValue I [r]) preds)) ∧
      D op = R.filter fun r => I.holds (attrValue I [r]) (pred :: preds) := by
  obtain ⟨preds',hbody',hself⟩ := h.self
  obtain rfl := Body.select.inj (hbody.symm.trans hbody')
  have hread := hs.not_read hop hout
  have hkeep {o : OpId} (ho : o ∈ s.used) (f : TimeVarying α) : (s.ops o).inputs.map (Function.update D op f) = (s.ops o).inputs.map D :=
    List.map_congr_left fun c hc => Function.update_of_ne (fun he : c = op => hread o ho (he ▸ hc)) _ _
  refine ⟨((s.ops op).inputs.map D).getD 0 fun _ => 0,fun o ho => ?_,?_⟩
  · rw [ports_inputs, hkeep ho]
    by_cases hoo : o = op
    · subst hoo
      simp only [Function.update_self, Operator.meaning, hbody, Body.meaning]
    · rw [Function.update_of_ne hoo]
      have hval := hD o (h.used ▸ ho)
      simp only [ports_inputs, h.other o hoo] at hval
      exact hval
  · have hval := hD op (h.used ▸ hop)
    simpa only [ports_inputs, hself, Operator.meaning, Body.meaning] using hval

theorem RegInv.lookup_kind (hs : RegInv s) (tableId : ℕ) : isSourceKind (s.ops (lookupSource tableId s.sourceOps)).body.kind = true := by
  unfold lookupSource
  cases hfind : s.sourceOps.find? (fun e => e.1 == tableId) with
  | none => exact hs.default.2
  | some e => exact (hs.sources e (List.mem_of_find?_eq_some hfind)).2

/-- A select that gets the predicate of the select above it stands for that one. -/
theorem SelectGrown.carries {bexpr : Logical.BExpr} {outAttrs : List Logical.Attr} {flag : Bool}
    (h : SelectGrown op (transformedBExpr v [i.outAttrs] bexpr) s t) (hs : Sound s) (hreg : RegInv s) (hop : op ∈ s.used)
    (hout : (s.ops op).outputs = []) (hc : Carries s i op) (hattrs : i.outAttrs = outAttrs)
    (hfinds : (Logical.Kind.select bexpr).Finds [i.outAttrs]) : Carries t (.node (.select bexpr) outAttrs flag [i]) op := by
  obtain ⟨preds,hbody,hself⟩ := h.self
  have htab : t.sourceOps = s.sourceOps := congrArg Tables.sourceOps h.tables
  refine ⟨by rw [hself, Logical.Plan.outAttrs_node, ← hattrs]; exact hc.width,fun {_ _ I S D} hI hD hsup => ?_⟩
  obtain ⟨R,hbefore,hval⟩ := h.meaning_before hs hop hout hbody hD
  -- the select is no source, so the tables are what they were
  have hsource (tableId : ℕ) : lookupSource tableId s.sourceOps ≠ op := by
    intro he
    have hk := hreg.lookup_kind tableId
    rw [he, hbody] at hk
    cases hk
  have hlookup (tableId : ℕ) (f) : Function.update D op f (lookupSource tableId s.sourceOps) = D (lookupSource tableId s.sourceOps) :=
    Function.update_of_ne (hsource tableId) _ _
  have hbelow : s.Supplies (Function.update D op (R.filter fun r => I.holds (attrValue I [r]) preds)) i := by
    unfold PlanState.Supplies
    simp only [hlookup]
    rw [← htab]
    exact (Logical.Plan.everywhere_node.mp hsup).2 i (List.mem_singleton_self i)
  have hi := hc.value hI hbefore hbelow
  rw [Function.update_self] at hi
  have hsame : s.tableSources S (Function.update D op (R.filter fun r => I.holds (attrValue I [r]) preds)) = t.tableSources S D := by
    simp only [PlanState.tableSources, hlookup, htab]
  rw [hsame] at hi
  rw [hval, Logical.Plan.denote_node, List.map_singleton, ← hi]
  simp only [Logical.Kind.denote, List.headD_cons, TimeVarying.filter_filter]
  congr 1
  funext r
  rw [Interp.holds, List.all_cons, compare_transformedBExpr (Logical.Plan.finds_single.mp hfinds)]
  rfl

/-- A join without a predicate makes the rows of a product. -/
theorem pairs_joinedRow {m n : ℕ} {L R : Multiset (Row α)} (hR : ∀ r ∈ R, HasWidth n r) :
    TimeVarying.pairs (fun l r => I.holds (attrValue I [l, r]) []) (joinedRow I m) L R =
      L.bind fun l => R.map fun r => fit I.null m l ++ fit I.null n r := by
  unfold TimeVarying.pairs
  refine Multiset.bind_congr fun l _ => ?_
  have hall : R.filter (fun r => I.holds (attrValue I [l, r]) [] = true) = R := Multiset.filter_eq_self.mpr fun _ _ => rfl
  rw [hall]
  refine Multiset.map_congr rfl fun r hr => ?_
  rw [joinedRow, fit_of_length (hR r hr)]

/-- The inputs of an operator of these kinds have the schema of the operator. -/
theorem one_input {inputs : List Logical.Plan} {children : List OpId} {outAttrs : List Logical.Attr}
    (hc : List.Forall₂ (Carries s) inputs children) (hin : inputs.map Logical.Plan.outAttrs = [outAttrs]) (hchild : children[0]? = some child) :
    ∃ i, inputs = [i] ∧ children = [child] ∧ i.outAttrs = outAttrs ∧ Carries s i child := by
  obtain ⟨i,rfl,hi⟩ := List.map_eq_singleton_iff.mp hin
  cases hc with
  | cons hic hrest =>
    cases hrest
    obtain rfl : _ = child := by simpa using hchild
    exact ⟨i,rfl,rfl,hi,hic⟩

/-- What is so of an operator that has been generated for a plan. -/
structure Stands (s : PlanState) (p : Logical.Plan) (op : OpId) : Prop where
  carries : Carries s p op
  used : op ∈ s.used
  /-- Only the plan above it can read from a select. -/
  unread : (s.ops op).body.kind = .select → (s.ops op).outputs = []

theorem Added.stands {kind : Logical.Kind} {outAttrs : List Logical.Attr} {flag : Bool} {inputs : List Logical.Plan} {body : Body}
    {attrs : List Column} {bStream : Bool} {cs : List OpId} (h : Added op body attrs bStream cs s t)
    (hc : Carries t (.node kind outAttrs flag inputs) op) : Stands t (.node kind outAttrs flag inputs) op :=
  ⟨hc,h.used ▸ List.mem_cons_self,fun _ => by rw [h.self]⟩

section mkOperator
variable {kind : Logical.Kind} {outAttrs : List Logical.Attr} {flag : Bool} {inputs : List Logical.Plan} {children : List OpId}

/-- The operators with one input whose schema they copy. -/
theorem ofChild_stands (body : Body) {f : Bool → Bool} (hs : PoolInv s) (hc : List.Forall₂ (Carries s) inputs children)
    (hu : ∀ c ∈ children, c ∈ s.used) (hd : ∀ i ∈ inputs, Logical.Plan.DerivedBinary tableMgr i)
    (hin : inputs.map Logical.Plan.outAttrs = [outAttrs])
    (hvalue : ∀ {α : Type} [DecidableEq α] {I : Interp α} {S S' : Sources α} {R : TimeVarying α}, S'.order = S.order →
      body.meaning I S outAttrs.length [R] = kind.denote I S' outAttrs.length [(outAttrs,R)])
    (h : (do mkUnary body f (← phyChild children 0)) s = .ok op t) : Stands t (.node kind outAttrs flag inputs) op := by
  obtain ⟨child,hchild,h⟩ := ofChild_ok h
  obtain ⟨i,rfl,rfl,rfl,hi⟩ := one_input hc hin hchild
  have hadd := mkUnary_ok hs (hu child (List.mem_singleton_self child)) h
  refine hadd.stands (hadd.carries hs hc hd hi.width fun R _ horder _ => ?_)
  rw [hi.width]
  exact hvalue horder

theorem mkSource_stands {tableId : ℕ} (hs : RegInv s) (hk : kind.tableId = some tableId)
    (hvalue : ∀ {α : Type} [DecidableEq α] {I : Interp α} {S : Sources α} {inputs}, kind.denote I S outAttrs.length inputs =
      (S.table tableId).map (fit I.null outAttrs.length))
    (hmap : s.Maps (.node kind outAttrs flag inputs)) :
    Stands s (.node kind outAttrs flag inputs) (lookupSource tableId s.sourceOps) := by
  refine ⟨⟨(Logical.Plan.everywhere_node.mp hmap).1 tableId hk,fun {_ _ I S D} _ _ hsup => ?_⟩,hs.lookupSource_mem tableId,fun hsel => ?_⟩
  · rw [Logical.Plan.denote_node, hvalue]
    have hrows := (Logical.Plan.everywhere_node.mp hsup).1 tableId hk
    funext now
    refine ((Multiset.map_congr rfl fun r hr => ?_).trans (Multiset.map_id _)).symm
    exact fit_of_length (hrows now r hr)
  · have hkind := hs.lookup_kind tableId
    rw [hsel] at hkind
    cases hkind

/-- The two inputs of an operator and the operators that stand for them. -/
theorem two_inputs {l r : OpId} (hc : List.Forall₂ (Carries s) inputs children) (htwo : inputs.length = 2) (hl : children[0]? = some l)
    (hr : children[1]? = some r) : ∃ i j, inputs = [i, j] ∧ children = [l, r] ∧ Carries s i l ∧ Carries s j r := by
  obtain ⟨i,j,rfl⟩ := List.length_eq_two.mp htwo
  cases hc with
  | cons hi hrest =>
    cases hrest with
    | cons hj hnil =>
      cases hnil
      obtain rfl : _ = l := by simpa using hl
      obtain rfl : _ = r := by simpa using hr
      exact ⟨i,j,rfl,rfl,hi,hj⟩

theorem mkBinaryJoin_stands {mk : ℕ → ℕ → List BExpr → Body} {f : Bool → Bool → Bool} (hs : PoolInv s)
    (hc : List.Forall₂ (Carries s) inputs children) (hu : ∀ c ∈ children, c ∈ s.used)
    (hd : ∀ i ∈ inputs, Logical.Plan.DerivedBinary tableMgr i) (htwo : inputs.length = 2)
    (hout : outAttrs = (inputs.map Logical.Plan.outAttrs).flatten)
    (hvalue : ∀ {α : Type} [DecidableEq α] {I : Interp α} {S S' : Sources α} {m n k : ℕ} {as bs : List Logical.Attr} {L R : TimeVarying α},
      as.length = m → bs.length = n → R.AllRows (HasWidth n) →
      (mk m n []).meaning I S k [L, R] = kind.denote I S' outAttrs.length [(as,L), (bs,R)])
    (h : mkBinaryJoin mk f children s = .ok op t) : Stands t (.node kind outAttrs flag inputs) op := by
  obtain ⟨l,r,hl,hr,hadd⟩ := mkBinaryJoin_ok hs hu h
  obtain ⟨i,j,rfl,rfl,hi,hj⟩ := two_inputs hc htwo hl hr
  refine hadd.stands (hadd.carries hs hc hd ?_ fun R _ _ hrows => ?_)
  · rw [List.length_append, hi.width, hj.width, hout]
    simp
  · rw [hi.width, hj.width]
    exact hvalue rfl rfl (hrows j (by simp))

theorem unionColumns_length (l r : List Column) : (unionColumns v l r).length = l.length := by
  induction l generalizing r with
  | nil => rfl
  | cons c l ih => simp [unionColumns,ih]

theorem mkSetOp_stands (body : Body) {f : Bool → Bool → Bool} (hs : PoolInv s) (hc : List.Forall₂ (Carries s) inputs children)
    (hu : ∀ c ∈ children, c ∈ s.used) (hd : ∀ i ∈ inputs, Logical.Plan.DerivedBinary tableMgr i)
    (hin : ∃ l r, inputs.map Logical.Plan.outAttrs = [l, r] ∧ outAttrs.length = l.length ∧ r.length = outAttrs.length)
    (hvalue : ∀ {α : Type} [DecidableEq α] {I : Interp α} {S S' : Sources α} {k : ℕ} {as bs : List Logical.Attr} {L R : TimeVarying α},
      R.map (fit I.null outAttrs.length) = R →
      body.meaning I S k [L, R] = kind.denote I S' outAttrs.length [(as,L), (bs,R)])
    (h : mkSetOp body f v children s = .ok op t) : Stands t (.node kind outAttrs flag inputs) op := by
  obtain ⟨l,r,hl,hr,hadd⟩ := mkSetOp_ok hs hu h
  obtain ⟨as,bs,hin,hleft,hright⟩ := hin
  have htwo : inputs.length = 2 := by simpa using congrArg List.length hin
  obtain ⟨i,j,rfl,rfl,hi,hj⟩ := two_inputs hc htwo hl hr
  obtain ⟨rfl,hrest⟩ := List.cons.inj hin
  obtain ⟨rfl,-⟩ := List.cons.inj hrest
  refine hadd.stands (hadd.carries hs hc hd ?_ fun R _ _ hrows => hvalue ?_)
  · rw [unionColumns_length, hi.width, hleft]
  · funext now
    refine (Multiset.map_congr rfl fun x hx => ?_).trans (Multiset.map_id _)
    exact fit_of_length ((hrows j (by simp) now x hx).trans hright)

theorem mkPartnWin_stands {partnAttrs : List Logical.Attr} {numRows : ℕ} (hs : PoolInv s)
    (hc : List.Forall₂ (Carries s) inputs children) (hu : ∀ c ∈ children, c ∈ s.used)
    (hd : ∀ i ∈ inputs, Logical.Plan.DerivedBinary tableMgr i) (hin : inputs.map Logical.Plan.outAttrs = [outAttrs])
    (hfound : ∀ a ∈ partnAttrs, outAttrs.any (fun b => a.same b) = true)
    (h : mkPartnWin v [outAttrs] partnAttrs numRows children s = .ok op t) :
    Stands t (.node (.partnWin partnAttrs numRows) outAttrs flag inputs) op := by
  obtain ⟨_,_,h1,h2⟩ := bind_eq_ok.mp h
  obtain ⟨-,rfl⟩ := failIf_eq_ok.mp h1
  refine ofChild_stands _ hs hc hu hd hin (fun horder => ?_) h2
  simp only [Body.meaning, Logical.Kind.denote, horder, List.getD_cons_zero, List.headD_cons]
  congr 1
  funext r
  exact attrValues_transformed hfound

theorem mkSelect_stands {bexpr : Logical.BExpr} (hs : Sound s) (hreg : RegInv s) (hc : List.Forall₂ (Carries s) inputs children)
    (hu : ∀ c ∈ children, c ∈ s.used) (hunread : ∀ c, children = [c] → (s.ops c).body.kind = .select → (s.ops c).outputs = [])
    (hd : ∀ i ∈ inputs, Logical.Plan.DerivedBinary tableMgr i) (hin : inputs.map Logical.Plan.outAttrs = [outAttrs])
    (hfinds : (Logical.Kind.select bexpr).Finds [outAttrs]) (h : mkSelect v [outAttrs] bexpr children s = .ok op t) :
    Stands t (.node (.select bexpr) outAttrs flag inputs) op := by
  obtain ⟨child,hchild,⟨rfl,hgrown⟩ | ⟨-,hadd⟩⟩ := mkSelect_ok hs.pool hu h
  · obtain ⟨i,rfl,rfl,rfl,hi⟩ := one_input hc hin hchild
    have hop := hu op (List.mem_singleton_self op)
    obtain ⟨preds,hbody,hself⟩ := hgrown.self
    have hout := hunread op rfl (by rw [hbody]; rfl)
    refine ⟨hgrown.carries hs hreg hop hout hi rfl hfinds,hgrown.used ▸ hop,fun _ => ?_⟩
    rw [hself]
    exact hout
  · obtain ⟨i,rfl,rfl,rfl,hi⟩ := one_input hc hin hchild
    refine hadd.stands (hadd.carries hs.pool hc hd hi.width fun R _ _ _ => ?_)
    simp only [Body.meaning, Logical.Kind.denote, List.map_singleton, List.getD_cons_zero, List.headD_cons]
    congr 1
    funext r
    rw [← @compare_transformedBExpr _ _ v _ _ _ (Logical.Plan.finds_single.mp hfinds)]
    exact Bool.and_true _

theorem mkProject_stands {projExprs : List Logical.Expr} {schema : List Logical.Attr} (hs : PoolInv s)
    (hc : List.Forall₂ (Carries s) inputs children) (hu : ∀ c ∈ children, c ∈ s.used)
    (hd : ∀ i ∈ inputs, Logical.Plan.DerivedBinary tableMgr i) (hin : inputs.map Logical.Plan.outAttrs = [schema])
    (hout : outAttrs.length = projExprs.length) (hfinds : (Logical.Kind.project projExprs).Finds [schema])
    (h : mkProject v [schema] projExprs outAttrs.length children s = .ok op t) :
    Stands t (.node (.project projExprs) outAttrs flag inputs) op := by
  obtain ⟨-,-,child,hchild,hadd⟩ := mkProject_ok hs hu h
  obtain ⟨i,rfl,rfl,rfl,-⟩ := one_input hc hin hchild
  refine hadd.stands (hadd.carries hs hc hd (by simp [hout]) fun R _ _ _ => ?_)
  simp only [Body.meaning, Logical.Kind.denote, List.map_singleton, List.getD_cons_zero, List.headD_cons]
  congr 1
  funext r
  rw [List.take_of_length_le (by simp), List.take_of_length_le (by rw [hout])]
  exact projectedRow_transformed (Logical.Plan.finds_single.mp hfinds)

theorem mkJoin_stands (hs : PoolInv s) (hc : List.Forall₂ (Carries s) inputs children) (hu : ∀ c ∈ children, c ∈ s.used)
    (hd : ∀ i ∈ inputs, Logical.Plan.DerivedBinary tableMgr i) (htwo : inputs.length = 2)
    (hout : outAttrs = (inputs.map Logical.Plan.outAttrs).flatten) (h : mkJoin children s = .ok op t) :
    Stands t (.node .cross outAttrs flag inputs) op := by
  refine mkBinaryJoin_stands hs hc hu hd htwo hout (fun has hbs hrows => ?_) h
  subst has hbs
  funext now
  simp only [Body.meaning, Logical.Kind.denote, List.getD_cons_zero, List.getD_cons_succ, TimeVarying.join, TimeVarying.cross,
    List.map_cons, List.map_nil, product_pair]
  exact pairs_joinedRow (hrows now)

theorem mkStrJoin_stands (hs : PoolInv s) (hc : List.Forall₂ (Carries s) inputs children) (hu : ∀ c ∈ children, c ∈ s.used)
    (hd : ∀ i ∈ inputs, Logical.Plan.DerivedBinary tableMgr i) (htwo : inputs.length = 2)
    (hout : outAttrs = (inputs.map Logical.Plan.outAttrs).flatten) (h : mkStrJoin children s = .ok op t) :
    Stands t (.node .streamCross outAttrs flag inputs) op := by
  refine mkBinaryJoin_stands hs hc hu hd htwo hout (fun has hbs hrows => ?_) h
  subst has hbs
  simp only [Body.meaning, Logical.Kind.denote, List.getD_cons_zero, List.getD_cons_succ, TimeVarying.streamJoin,
    TimeVarying.streamCross, List.map_cons, List.map_nil, product_pair]
  congr 1
  funext now
  exact pairs_joinedRow (hrows now)

theorem mkGroupAggr_stands {groupAttrs : List Logical.Attr} {aggrs : List (AggrFn × Logical.Attr)} {schema : List Logical.Attr}
    (hs : PoolInv s) (hc : List.Forall₂ (Carries s) inputs children) (hu : ∀ c ∈ children, c ∈ s.used)
    (hd : ∀ i ∈ inputs, Logical.Plan.DerivedBinary tableMgr i) (hin : inputs.map Logical.Plan.outAttrs = [schema])
    (hout : outAttrs.length = groupAttrs.length + aggrs.length) (hfinds : (Logical.Kind.groupAggr groupAttrs aggrs).Finds [schema])
    (h : mkGroupAggr v [schema] groupAttrs aggrs children s = .ok op t) :
    Stands t (.node (.groupAggr groupAttrs aggrs) outAttrs flag inputs) op := by
  obtain ⟨child,hchild,hadd⟩ := mkGroupAggr_ok hs hu h
  obtain ⟨i,rfl,rfl,rfl,-⟩ := one_input hc hin hchild
  have hfound := Logical.Plan.finds_single.mp hfinds
  refine hadd.stands (hadd.carries hs hc hd (by simp [hout]) fun R hI _ _ => ?_)
  simp only [Body.meaning, Logical.Kind.denote, List.map_singleton, List.getD_cons_zero, List.headD_cons, List.isEmpty_map]
  refine group_congr (fun r => attrValues_transformed fun a ha => hfound a (List.mem_append_left _ ha)) fun rows => ?_
  refine aggregatedRow_transformed hI (fun a ha hcount => hfound a.2 (List.mem_append_right _ ?_)) rows
  exact List.mem_map_of_mem (List.mem_filter.mpr ⟨ha,by simpa using hcount⟩)

theorem mkOperator_stands (hs : Sound s) (hreg : RegInv s) (hc : List.Forall₂ (Carries s) inputs children)
    (hu : ∀ c ∈ children, c ∈ s.used) (hunread : ∀ c, children = [c] → (s.ops c).body.kind = .select → (s.ops c).outputs = [])
    (hp : WellFormed tableMgr (.node kind outAttrs flag inputs)) (hmap : s.Maps (.node kind outAttrs flag inputs))
    (h : mkOperator v kind outAttrs.length (inputs.map Logical.Plan.outAttrs) children s = .ok op t) :
    Stands t (.node kind outAttrs flag inputs) op := by
  obtain ⟨⟨hderives,hbinary⟩,hd⟩ := Logical.Plan.everywhere_node.mp hp.derived
  have hfinds : kind.Finds (inputs.map Logical.Plan.outAttrs) := (Logical.Plan.everywhere_node.mp hp.references).1
  have hcompatible : kind.Compatible (inputs.map Logical.Plan.outAttrs) := (Logical.Plan.everywhere_node.mp hp.compatible).1
  have hset (hk : kind = .union ∨ kind = .except)
      (hderives : ∃ l r, inputs.map Logical.Plan.outAttrs = [l, r] ∧ outAttrs = l.map fun a => .unnamed (Logical.Plan.attrType tableMgr a)) :
      ∃ l r, inputs.map Logical.Plan.outAttrs = [l, r] ∧ outAttrs.length = l.length ∧ r.length = outAttrs.length := by
    obtain ⟨l,r,hin,rfl⟩ := hderives
    refine ⟨l,r,hin,List.length_map ..,?_⟩
    rw [List.length_map]
    exact hcompatible hk r (by simp [hin]) l (by simp [hin])
  have hcopy (body : Body) {f : Bool → Bool} (hin : inputs.map Logical.Plan.outAttrs = [outAttrs])
      (hvalue : ∀ {α : Type} [DecidableEq α] {I : Interp α} {S S' : Sources α} {R : TimeVarying α}, S'.order = S.order →
        body.meaning I S outAttrs.length [R] = kind.denote I S' outAttrs.length [(outAttrs,R)])
      (h : (do mkUnary body f (← phyChild children 0)) s = .ok op t) : Stands t (.node kind outAttrs flag inputs) op :=
    ofChild_stands body hs.pool hc hu hd hin hvalue h
  cases kind with
  | streamSource varId strId =>
    cases h
    exact mkSource_stands hreg rfl rfl hmap
  | relnSource varId relId =>
    cases h
    exact mkSource_stands hreg rfl rfl hmap
  | rowWin numRows => exact hcopy (.rowWin numRows) hderives (fun horder => by simp [Body.meaning,Logical.Kind.denote,horder]) h
  | rangeWin timeUnits => exact hcopy (.rangeWin timeUnits) hderives (fun _ => rfl) h
  | nowWin => exact hcopy (.rangeWin 1) hderives (fun _ => rfl) h
  | partnWin partnAttrs numRows =>
    rw [show inputs.map Logical.Plan.outAttrs = [outAttrs] from hderives] at h hfinds
    exact mkPartnWin_stands hs.pool hc hu hd hderives (Logical.Plan.finds_single.mp hfinds) h
  | select bexpr =>
    rw [show inputs.map Logical.Plan.outAttrs = [outAttrs] from hderives] at h hfinds
    exact mkSelect_stands hs hreg hc hu hunread hd hderives hfinds h
  | project projExprs =>
    obtain ⟨schema,hin⟩ := List.length_eq_one_iff.mp (show (inputs.map Logical.Plan.outAttrs).length = 1 from hderives.1)
    rw [hin] at h hfinds
    exact mkProject_stands hs.pool hc hu hd hin (by rw [hderives.2, List.length_map]) hfinds h
  | cross =>
    simp only [mkOperator] at h
    split at h
    · simp at h
    · exact mkJoin_stands hs.pool hc hu hd (by simpa using hbinary (.inl rfl)) hderives h
  | streamCross =>
    simp only [mkOperator] at h
    split at h
    · simp at h
    · exact mkStrJoin_stands hs.pool hc hu hd (by simpa using hbinary (.inr rfl)) hderives h
  | groupAggr groupAttrs aggrs =>
    obtain ⟨schema,hin⟩ := List.length_eq_one_iff.mp (show (inputs.map Logical.Plan.outAttrs).length = 1 from hderives.1)
    rw [hin] at h hfinds
    exact mkGroupAggr_stands hs.pool hc hu hd hin (by rw [hderives.2]; simp) hfinds h
  | distinct => exact hcopy .distinct hderives (fun _ => rfl) h
  | istream => exact hcopy .istream hderives (fun _ => rfl) h
  | dstream => exact hcopy .dstream hderives (fun _ => rfl) h
  | rstream => exact hcopy .rstream hderives (fun _ => rfl) h
  | union =>
    simp only [mkOperator, mkUnion] at h
    refine mkSetOp_stands .union hs.pool hc hu hd (hset (.inl rfl) hderives) (fun hfit => ?_) h
    simp only [Body.meaning, Logical.Kind.denote, List.getD_cons_zero, List.getD_cons_succ, List.headD_cons, hfit]
  | except =>
    simp only [mkOperator, mkExcept] at h
    refine mkSetOp_stands .except hs.pool hc hu hd (hset (.inr rfl) hderives) (fun hfit => ?_) h
    simp only [Body.meaning, Logical.Kind.denote, List.getD_cons_zero, List.getD_cons_succ, List.headD_cons, hfit]

end mkOperator

structure Continued (s t : PlanState) : Prop where
  sound : Sound t
  regInv : RegInv t
  later : Later s t
  tables : t.tables = s.tables

theorem Continued.trans {u : PlanState} (h : Continued s t) (h' : Continued t u) : Continued s u :=
  ⟨h'.sound,h'.regInv,Later.trans s t u h.later h'.later,h'.tables.trans h.tables⟩

theorem PlanState.Maps.later {p : Logical.Plan} (h : s.Maps p) (hreg : RegInv s) (hl : Later s t) (htab : t.tables = s.tables) : t.Maps p := by
  have hsrc : t.sourceOps = s.sourceOps := congrArg Tables.sourceOps htab
  refine Logical.Plan.Everywhere.imp h fun kind outAttrs inputs hk tableId hid => ?_
  obtain ⟨qc,ext,heq,-⟩ := hl.old _ (hreg.lookupSource_mem tableId)
  rw [hsrc, heq]
  exact hk tableId hid

/-- The step of `genPhysicalPlan` at a node. -/
theorem continued_genPhysicalPlan {p : Logical.Plan} (hs : Sound s) (hreg : RegInv s) (h : genPhysicalPlan v p s = .ok op t) :
    Continued s t := by
  obtain ⟨hbuilt,-⟩ := genPhysicalPlan_built p hs.pool hreg.lookupSource_mem h
  obtain ⟨hreg',hlater,-⟩ := framed_genPhysicalPlan v p s hreg trivial
  rw [h] at hreg' hlater
  exact ⟨hbuilt.sound hs,hreg',hlater,hbuilt.tables⟩

mutual

/-- The operator that `genPhysicalPlan` returns stands for the plan. -/
theorem genPhysicalPlan_stands : (p : Logical.Plan) → {s t : PlanState} → {op : OpId} → Sound s → RegInv s → WellFormed tableMgr p →
    s.Maps p → genPhysicalPlan v p s = .ok op t → Stands t p op
  | .node kind outAttrs bStream inputs, s, t, op, hs, hreg, hp, hmap, h => by
    have hmaps := (Logical.Plan.everywhere_node.mp hmap).2
    unfold genPhysicalPlan at h
    obtain ⟨children,r,h1,h2⟩ := bind_eq_ok.mp h
    obtain ⟨hcont,hc,hunread⟩ := genChildPlans_stands inputs hs hreg hp.inputs hmaps h1
    have hu : ∀ c ∈ children, c ∈ r.used := by
      intro c hmem
      obtain ⟨i,-,hi⟩ := forall₂_mem_right hc hmem
      exact hi.2
    exact mkOperator_stands hcont.sound hcont.regInv (hc.imp fun _ _ h => h.1) hu hunread hp (hmap.later hreg hcont.later hcont.tables) h2

theorem genChildPlans_stands : (ps : List Logical.Plan) → {s t : PlanState} → {cs : List OpId} → Sound s → RegInv s →
    (∀ p ∈ ps, WellFormed tableMgr p) → (∀ p ∈ ps, s.Maps p) → genChildPlans v ps s = .ok cs t →
    Continued s t ∧ List.Forall₂ (fun p c => Carries t p c ∧ c ∈ t.used) ps cs ∧
      ∀ c, cs = [c] → (t.ops c).body.kind = .select → (t.ops c).outputs = []
  | [], s, t, cs, hs, hreg, _, _, h => by
    unfold genChildPlans at h
    obtain ⟨rfl,rfl⟩ := pure_eq_ok.mp h
    exact ⟨⟨hs,hreg,Later.refl s,rfl⟩,.nil,by simp⟩
  | p :: ps, s, t, cs, hs, hreg, hp, hmap, h => by
    unfold genChildPlans at h
    obtain ⟨c,r,h1,h2⟩ := bind_eq_ok.mp h
    obtain ⟨cs',_,h3,h4⟩ := bind_eq_ok.mp h2
    obtain ⟨rfl,rfl⟩ := pure_eq_ok.mp h4
    have hstands := genPhysicalPlan_stands p hs hreg (hp p List.mem_cons_self) (hmap p List.mem_cons_self) h1
    have hcont := continued_genPhysicalPlan hs hreg h1
    obtain ⟨hcont',hcs,-⟩ := genChildPlans_stands ps hcont.sound hcont.regInv (fun q hq => hp q (List.mem_cons_of_mem _ hq))
      (fun q hq => (hmap q (List.mem_cons_of_mem _ hq)).later hreg hcont.later hcont.tables) h3
    refine ⟨hcont.trans hcont',.cons ⟨hstands.carries.later hstands.used hcont'.later hcont'.tables,hcont'.later.used c hstands.used⟩ hcs,?_⟩
    intro d hd hsel
    obtain ⟨rfl,rfl⟩ := List.cons.inj hd
    -- the only input is the last operator that has been generated
    cases hcs
    unfold genChildPlans at h3
    obtain ⟨-,rfl⟩ := pure_eq_ok.mp h3
    exact hstands.unread hsel

end

/-- From every state that registration reaches, the operator that `genPhysicalPlan` returns carries
what the plan computes, and the operators that were there carry what they did. -/
theorem genPhysicalPlan_meaning {mem : OpId → Operator} {p : Logical.Plan} (hs : Registered mem s) (hp : WellFormed tableMgr p)
    (hmap : s.Maps p) (h : genPhysicalPlan v p s = .ok op t) [DecidableEq α] (hI : I.CountsRows) (S : Sources α) :
    (∃ D, t.Meaning I S D) ∧ ∀ D, t.Meaning I S D →
      s.Meaning I S D ∧ (t.Supplies D p → D op = p.denote I (t.tableSources S D)) := by
  have hsound := registered_sound hs
  have hreg := reachable_regInv hs.reachable
  have hcont := continued_genPhysicalPlan hsound hreg h
  refine ⟨exists_meaning I S hcont.sound.consistent hcont.sound.acyclic,fun D hD => ⟨hcont.later.meaning hD,fun hsup => ?_⟩⟩
  exact (genPhysicalPlan_stands p hsound hreg hp hmap h).carries.value hI hD hsup

def oneStream : PlanState := finalState ((Call.addBaseTable oneAttrTables 1).run (newPlanManager blankMemory))

theorem positiveRows_wellFormed : WellFormed oneAttrTables (positiveRows 1) := by
  refine ⟨?_,?_,?_⟩ <;> unfold positiveRows
  · simp [Logical.Plan.DerivedBinary,Logical.Plan.everywhere_node,Logical.Kind.Derives,Logical.tableAttrs,TableManager.getNumAttrs,
      TableManager.attrs,oneAttrTables]
  · simp [Logical.Plan.References,Logical.Plan.everywhere_node,Logical.Kind.Finds,Logical.Kind.refs,BExpr.attrs,Expr.attrs,Logical.Attr.same]
  · simp [Logical.Plan.everywhere_node,Logical.Kind.Compatible]

/-- The positive rows of the stream. -/
theorem positiveRows_meaning : ∃ op t D, genPhysicalPlan blankUninit (positiveRows 1) oneStream = .ok op t ∧
    t.Meaning intInterp (oneRow [1]) D ∧ D op = (positiveRows 1).denote intInterp (t.tableSources (oneRow [1]) D) := by
  have hreg : Registered blankMemory oneStream := Registered.start.of_returns _ (by decide +kernel)
  obtain ⟨op,t,h⟩ := exists_of_returns (r := genPhysicalPlan blankUninit (positiveRows 1) oneStream) (by decide +kernel)
  have hcounts : intInterp.CountsRows := fun xs ys hxy => by simp [intInterp,hxy]
  have hmap : oneStream.Maps (positiveRows 1) := by
    have hwidth : (oneStream.ops (lookupSource 1 oneStream.sourceOps)).attrs.length = 1 := by decide +kernel
    unfold PlanState.Maps positiveRows
    simp [Logical.Plan.everywhere_node,Logical.Kind.tableId,hwidth]
  obtain ⟨⟨D,hD⟩,hvalue⟩ := genPhysicalPlan_meaning hreg positiveRows_wellFormed hmap h hcounts (oneRow [1])
  obtain ⟨hold,hval⟩ := hvalue D hD
  refine ⟨op,t,D,h,hD,hval ?_⟩
  have hsrc : t.sourceOps = oneStream.sourceOps := congrArg Tables.sourceOps
    (continued_genPhysicalPlan (registered_sound hreg) (reachable_regInv hreg.reachable) h).tables
  have hbody : (oneStream.ops (lookupSource 1 oneStream.sourceOps)).body = .streamSource 1 0 := by decide +kernel
  have hrows : D (lookupSource 1 t.sourceOps) = (oneRow [1]).table 1 := by
    have hself := hold _ ((reachable_regInv hreg.reachable).lookupSource_mem 1)
    rw [hsrc, hself]
    show (oneStream.ops _).body.meaning intInterp (oneRow [1]) _ _ = _
    rw [hbody]
    rfl
  unfold PlanState.Supplies positiveRows
  simp [Logical.Plan.everywhere_node,Logical.Kind.tableId,hrows,oneRow,TimeVarying.AllRows,HasWidth]

end Physical
end AqsiosCoordinator
