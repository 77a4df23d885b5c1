import AqsiosCoordinator.Querygen.GeneratedSchemas
import AqsiosCoordinator.Foundation.RowInvariants

/-! # Rows and their schemas

The rows of a plan have a value for every attribute of its schema, and columns with the
same attribute have the same value.
-/
namespace AqsiosCoordinator.Logical
open Common Foundation Foundation.TimeVarying Metadata
variable {α : Type} {I : Interp α}

/-- A row of the schema in which columns of one attribute agree. -/
structure Coherent (null : α) (schema : List Attr) (r : Row α) : Prop where
  length : r.length = schema.length
  columns : ∀ j k a, schema[j]? = some a → schema[k]? = some a → a.same a = true → r.getD j null = r.getD k null

/-- The column of an attribute is the one that is found by name. -/
theorem Coherent.lookup_eq {schema : List Attr} {r : Row α} (h : Coherent I.null schema r) {k : ℕ} {a : Attr}
    (ha : schema[k]? = some a) (hsame : a.same a = true) : lookup I schema r a = r.getD k I.null := by
  obtain ⟨j,hj⟩ : ∃ j, schema.findIdx? (fun b => a.same b) = some j := by
    rw [← Option.isSome_iff_exists, List.findIdx?_isSome, List.any_eq_true]
    exact ⟨a,List.mem_of_getElem? ha,hsame⟩
  obtain ⟨hlt,hb,-⟩ := List.findIdx?_eq_some_iff_getElem.mp hj
  have hget : schema[j]? = some a := by
    rw [List.getElem?_eq_getElem hlt, ← Attr.eq_of_same hb]
  simp only [lookup, hj]
  exact h.columns j k a hget ha hsame

/-- A row that is computed together with its schema. -/
theorem coherent_map {ι : Type} {null : α} {l : List ι} {g : ι → Attr} {f : ι → α}
    (h : ∀ x ∈ l, ∀ y ∈ l, g x = g y → (g x).same (g x) = true → f x = f y) : Coherent null (l.map g) (l.map f) := by
  refine ⟨by simp,fun j k a hj hk hsame => ?_⟩
  rw [List.getElem?_map] at hj hk
  obtain ⟨x,hx,rfl⟩ := Option.map_eq_some_iff.mp hj
  obtain ⟨y,hy,hxy⟩ := Option.map_eq_some_iff.mp hk
  rw [List.getD_eq_getElem?_getD, List.getD_eq_getElem?_getD, List.getElem?_map, List.getElem?_map, hx, hy]
  exact h x (List.mem_of_getElem? hx) y (List.mem_of_getElem? hy) hxy.symm hsame

theorem Coherent.append {null : α} {s t : List Attr} {x y : Row α} (hx : Coherent null s x) (hy : Coherent null t y)
    (hapart : Apart s t) : Coherent null (s ++ t) (x ++ y) := by
  have hnot : ∀ (j k : ℕ) (a : Attr), s[j]? = some a → t[k]? = some a → a.same a = true → False := by
    intro j k a hj hk hsame
    have hnone := List.any_eq_false.mp (hapart a (List.mem_of_getElem? hj)) a (List.mem_of_getElem? hk)
    exact hnone hsame
  refine ⟨by simp [hx.length,hy.length],fun j k a hj hk hsame => ?_⟩
  rw [List.getElem?_append] at hj hk
  have hleft (j : ℕ) (h : j < s.length) : (x ++ y).getD j null = x.getD j null :=
    List.getD_append _ _ _ _ (by rw [hx.length]; exact h)
  have hright (j : ℕ) (h : ¬ j < s.length) : (x ++ y).getD j null = y.getD (j - s.length) null := by
    rw [List.getD_append_right _ _ _ _ (by rw [hx.length]; omega), hx.length]
  split at hj
  · split at hk
    · rename_i h1 h2
      rw [hleft j h1, hleft k h2]
      exact hx.columns j k a hj hk hsame
    · exact (hnot _ _ a hj hk hsame).elim
  · split at hk
    · exact (hnot _ _ a hk hj hsame).elim
    · rename_i h1 h2
      rw [hright j h1, hright k h2]
      exact hy.columns _ _ a hj hk hsame

theorem Coherent.fit {null : α} {schema : List Attr} {r : Row α} (h : Coherent null schema r) : fit null schema.length r = r :=
  fit_of_length h.length

/-- The rows of a product of factors whose rows are coherent. -/
theorem coherent_product {null : α} {factors : List (List Attr × Multiset (Row α))} (hapart : (factors.map Prod.fst).Pairwise Apart)
    (h : ∀ f ∈ factors, ∀ r ∈ f.2, Coherent null f.1 r) :
    ∀ r ∈ product null (factors.map fun f => (f.1.length,f.2)), Coherent null (factors.map Prod.fst).flatten r := by
  induction factors with
  | nil =>
    intro r hr
    obtain rfl := Multiset.mem_singleton.mp hr
    exact ⟨rfl,fun j k a hj => by simp at hj⟩
  | cons f factors ih =>
    intro r hr
    obtain ⟨x,hx,y,hy,rfl⟩ := mem_product_cons.mp hr
    rw [List.map_cons, List.pairwise_cons] at hapart
    have hf := h f List.mem_cons_self x hx
    rw [hf.fit, List.map_cons, List.flatten_cons]
    refine hf.append (ih hapart.2 (fun g hg => h g (List.mem_cons_of_mem _ hg)) y hy) fun a ha => ?_
    rw [List.any_eq_false]
    intro b hb
    obtain ⟨s,hs,hbs⟩ := List.mem_flatten.mp hb
    exact List.any_eq_false.mp (hapart.1 s hs a ha) b hbs

section Kinds
variable {schema : List Attr} {r : Row α}

theorem coherent_exprRow (exprs : List Expr) : Coherent I.null (exprs.map Plan.exprAttr) (exprRow I schema exprs r) := by
  refine coherent_map fun x _ y _ hxy hsame => ?_
  have hattr (e : Expr) (h : (Plan.exprAttr e).same (Plan.exprAttr e) = true) : I.value (lookup I schema r) e =
      lookup I schema r (Plan.exprAttr e) := by
    cases e with
    | attrRef type a => rfl
    | constVal c => simp [Plan.exprAttr,Attr.same] at h
    | compExpr type op left right => simp [Plan.exprAttr,Attr.same] at h
  rw [hattr x hsame, hattr y (hxy ▸ hsame), hxy]

theorem coherent_groupAttrs (groupAttrs : List Attr) : Coherent I.null groupAttrs (groupAttrs.map (lookup I schema r)) := by
  have h : Coherent I.null (groupAttrs.map id) (groupAttrs.map (lookup I schema r)) :=
    coherent_map fun x _ y _ hxy _ => congrArg _ hxy
  rwa [List.map_id] at h

theorem coherent_fit (tableMgr : TableManager) (varId tableId : ℕ) (null : α) :
    Coherent null (tableAttrs tableMgr varId tableId) (fit null (tableAttrs tableMgr varId tableId).length r) := by
  unfold tableAttrs Foundation.fit
  rw [List.length_map, List.length_range]
  refine coherent_map fun x _ y _ hxy _ => ?_
  obtain ⟨-,-,rfl⟩ := Attr.named.inj hxy
  rfl

/-- Aggregations with the same attribute are the same. -/
theorem coherent_aggrRow {aggrs : List (AggrFn × Attr)} (hnamed : ∀ a ∈ aggrs, a.2.isNamed = true) (rows : Multiset (Row α)) :
    Coherent I.null (aggrs.map fun a => Plan.aggrAttr a.1 a.2)
      (aggrRow I aggrs (rows.map fun r => aggrs.map fun a => lookup I schema r a.2)) := by
  have hzip : (aggrs.map fun a => Plan.aggrAttr a.1 a.2) = aggrs.zipIdx.map fun a => Plan.aggrAttr a.1.1 a.1.2 := by
    conv_lhs => rw [← List.zipIdx_map_fst 0 aggrs, List.map_map]
    rfl
  rw [hzip]
  have hcol (x : (AggrFn × Attr) × ℕ) (hx : x ∈ aggrs.zipIdx) :
      ((rows.map fun r => aggrs.map fun a => lookup I schema r a.2).map fun r => r.getD x.2 I.null) =
        rows.map fun r => lookup I schema r x.1.2 := by
    rw [Multiset.map_map]
    refine Multiset.map_congr rfl fun r _ => ?_
    have hget := List.mk_mem_zipIdx_iff_getElem?.mp hx
    simp [List.getD_eq_getElem?_getD,hget]
  refine coherent_map fun x hx y hy hxy _ => ?_
  have hattr : x.1 = y.1 := by
    have h1 := hnamed x.1 (List.fst_mem_of_mem_zipIdx hx)
    have h2 := hnamed y.1 (List.fst_mem_of_mem_zipIdx hy)
    obtain ⟨⟨fn,a⟩,j⟩ := x
    obtain ⟨⟨fn',a'⟩,k⟩ := y
    cases a <;> cases a' <;> simp_all [Attr.isNamed,Plan.aggrAttr]
  rw [hcol x hx, hcol y hy, hattr]

end Kinds

variable [DecidableEq α] {S : Sources α} {tableMgr : TableManager} {p : Plan}

theorem apart_aggrAttrs {groupAttrs : List Attr} {aggrs : List (AggrFn × Attr)} (hgroup : ∀ a ∈ groupAttrs, a.isNamed = true)
    (hnamed : ∀ a ∈ aggrs, a.2.isNamed = true) : Apart groupAttrs (aggrs.map fun a => Plan.aggrAttr a.1 a.2) := by
  intro a ha
  rw [List.any_eq_false]
  intro b hb
  obtain ⟨⟨fn,c⟩,hc,rfl⟩ := List.mem_map.mp hb
  have h1 := hgroup a ha
  have h2 := hnamed (fn,c) hc
  cases a <;> cases c <;> simp_all [Attr.isNamed,Plan.aggrAttr,Attr.same]

theorem coherent_group {schema groupAttrs : List Attr} {aggrs : List (AggrFn × Attr)}
    (hgroup : ∀ a ∈ groupAttrs, a.isNamed = true) (hnamed : ∀ a ∈ aggrs, a.2.isNamed = true) (R : TimeVarying α) :
    AllRows (Coherent I.null (groupAttrs ++ aggrs.map fun a => Plan.aggrAttr a.1 a.2))
      (R.group (!groupAttrs.isEmpty) (fun r => groupAttrs.map (lookup I schema r))
        (fun r => aggrs.map fun a => lookup I schema r a.2) (aggrRow I aggrs)) := by
  intro now r hr
  cases groupAttrs with
  | nil =>
    obtain rfl := Multiset.mem_singleton.mp hr
    exact coherent_aggrRow hnamed (R now)
  | cons g gs =>
    obtain ⟨k,hk,rfl⟩ := Multiset.mem_map.mp hr
    obtain ⟨r',-,rfl⟩ := Multiset.mem_map.mp (Multiset.mem_dedup.mp hk)
    exact (coherent_groupAttrs (g :: gs)).append (coherent_aggrRow hnamed _) (apart_aggrAttrs hgroup hnamed)

omit [DecidableEq α] in
/-- Columns without a name are never compared. -/
theorem coherent_unnamed {null : α} {inputs : List (List Attr)} {outAttrs : List Attr} {r : Row α}
    (h : ∃ s t, inputs = [s, t] ∧ outAttrs.length = s.length ∧ ∀ a ∈ outAttrs, ∀ b, a.same b = false)
    (hlen : r.length = outAttrs.length) : Coherent null outAttrs r := by
  obtain ⟨-,-,-,-,hunnamed⟩ := h
  refine ⟨hlen,fun j k a hj _ hsame => ?_⟩
  rw [hunnamed a (List.mem_of_getElem? hj) a] at hsame
  cases hsame

/-- All rows of a plan are coherent at all times. -/
theorem Plan.Schemed.coherent (h : Plan.Schemed tableMgr p) : AllRows (Coherent I.null p.outAttrs) (p.denote I S) := by
  induction h with
  | @node kind outAttrs bStream inputs here _ ih =>
    rw [Plan.denote_node, Plan.outAttrs_node]
    have hcopied (hin : inputs.map Plan.outAttrs = [outAttrs]) : ∃ i, inputs = [i] ∧ i.outAttrs = outAttrs ∧
        AllRows (Coherent I.null outAttrs) (i.denote I S) := by
      obtain ⟨i,rfl,rfl⟩ := List.map_eq_singleton_iff.mp hin
      exact ⟨i,rfl,rfl,ih i (List.mem_singleton_self i)⟩
    have hone (hlen : (inputs.map Plan.outAttrs).length = 1) : ∃ i, inputs = [i] :=
      List.length_eq_one_iff.mp (by simpa using hlen)
    have hset (hin : ∃ l r, inputs.map Plan.outAttrs = [l, r] ∧ outAttrs.length = l.length ∧ ∀ a ∈ outAttrs, ∀ b, a.same b = false) :
        ∃ i j, inputs = [i, j] ∧ AllRows (Coherent I.null outAttrs) (i.denote I S) := by
      obtain ⟨l,r,hmap,hlen,-⟩ := id hin
      obtain ⟨i,j,rfl⟩ := List.length_eq_two.mp (show inputs.length = 2 by simpa using congrArg List.length hmap)
      obtain ⟨rfl,-⟩ := List.cons.inj hmap
      exact ⟨i,j,rfl,fun now r hr => coherent_unnamed hin ((ih i (by simp) now r hr).length.trans hlen.symm)⟩
    cases kind with
    | streamSource varId strId =>
      obtain ⟨-,rfl⟩ := here
      exact allRows_map fun r => coherent_fit tableMgr varId strId I.null
    | relnSource varId relId =>
      obtain ⟨-,rfl⟩ := here
      exact allRows_map fun r => coherent_fit tableMgr varId relId I.null
    | rowWin numRows =>
      obtain ⟨i,rfl,rfl,hi⟩ := hcopied here
      exact hi.partitionWindow S.listed _ _
    | rangeWin timeUnits =>
      obtain ⟨i,rfl,rfl,hi⟩ := hcopied here
      exact hi.rangeWindow _
    | nowWin =>
      obtain ⟨i,rfl,rfl,hi⟩ := hcopied here
      exact hi.rangeWindow _
    | partnWin partnAttrs numRows =>
      obtain ⟨i,rfl,rfl,hi⟩ := hcopied here
      exact hi.partitionWindow S.listed _ _
    | select bexpr =>
      obtain ⟨i,rfl,rfl,hi⟩ := hcopied here
      exact hi.filter _
    | project projExprs =>
      obtain ⟨hlen,rfl⟩ := here
      obtain ⟨i,rfl⟩ := hone hlen
      exact allRows_map fun r => coherent_exprRow projExprs
    | cross =>
      obtain ⟨rfl,hapart⟩ := here
      intro now r hr
      have hfactors (f) (hf : f ∈ inputs.map fun i => (i.outAttrs,i.denote I S now)) : ∀ r ∈ f.2, Coherent I.null f.1 r := by
        obtain ⟨i,hi,rfl⟩ := List.mem_map.mp hf
        exact ih i hi now
      have hprod := coherent_product (by simpa [Function.comp_def] using hapart) hfactors r
      simp only [List.map_map, Function.comp_def] at hprod
      exact hprod (by simpa [Kind.denote,TimeVarying.cross,Function.comp_def] using hr)
    | groupAggr groupAttrs aggrs =>
      obtain ⟨hlen,rfl,hgroup,hnamed⟩ := here
      obtain ⟨i,rfl⟩ := hone hlen
      exact coherent_group hgroup hnamed _
    | distinct =>
      obtain ⟨i,rfl,rfl,hi⟩ := hcopied here
      exact hi.distinct
    | istream =>
      obtain ⟨i,rfl,rfl,hi⟩ := hcopied here
      exact allRows_accumulate hi.arrivals
    | dstream =>
      obtain ⟨i,rfl,rfl,hi⟩ := hcopied here
      exact allRows_accumulate hi.removals
    | rstream =>
      obtain ⟨i,rfl,rfl,hi⟩ := hcopied here
      exact allRows_accumulate hi
    | streamCross =>
      obtain ⟨rfl,hapart⟩ := here
      cases inputs with
      | nil => exact fun now r hr => absurd hr (Multiset.notMem_zero r)
      | cons first rest =>
        refine allRows_accumulate fun now r hr => ?_
        have hfactors (f) (hf : f ∈ (first.outAttrs,(first.denote I S).arrivals now) ::
            rest.map fun i => (i.outAttrs,i.denote I S now)) : ∀ r ∈ f.2, Coherent I.null f.1 r := by
          rcases List.mem_cons.mp hf with rfl | hf
          · exact (ih first List.mem_cons_self).arrivals now
          · obtain ⟨i,hi,rfl⟩ := List.mem_map.mp hf
            exact ih i (List.mem_cons_of_mem _ hi) now
        have hprod := coherent_product (by simpa [Function.comp_def] using hapart) hfactors r
        simp only [List.map_cons, List.map_map, Function.comp_def] at hprod
        exact hprod (by simpa [Function.comp_def] using hr)
    | union =>
      obtain ⟨i,j,rfl,hi⟩ := hset here
      exact hi.union (allRows_map fun r => coherent_unnamed here (length_fit _ _ _))
    | except =>
      obtain ⟨i,j,rfl,hi⟩ := hset here
      exact hi.except

end AqsiosCoordinator.Logical
