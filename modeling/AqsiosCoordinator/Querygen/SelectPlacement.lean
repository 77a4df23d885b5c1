import AqsiosCoordinator.Querygen.PlanShapes
import AqsiosCoordinator.Querygen.PushedSelects

/-! # Where pushed selects end up -/
namespace AqsiosCoordinator.Logical.Plan
open Common Foundation Foundation.Outcome Metadata

mutual

def selects : Plan → List (BExpr × Plan)
  | .node (.select bexpr) _ _ inputs => inputs.map (fun i => (bexpr,i)) ++ selectsAll inputs
  | .node _ _ _ inputs => selectsAll inputs

def selectsAll : List Plan → List (BExpr × Plan)
  | [] => []
  | p :: ps => selects p ++ selectsAll ps

end

def belowSelects : Plan → Plan
  | .node (.select _) _ _ [p] => belowSelects p
  | p => p

def branchTable : Plan → Option ℕ
  | .node (.streamSource varId _) _ _ _ => some varId
  | .node (.relnSource varId _) _ _ _ => some varId
  | .node kind _ _ [p] => if kind.IsCross then none else branchTable p
  | _ => none

def leftmostTable : Plan → Option ℕ
  | .node (.streamSource varId _) _ _ _ => some varId
  | .node (.relnSource varId _) _ _ _ => some varId
  | .node _ _ _ (p :: _) => leftmostTable p
  | _ => none

section Reading
variable {bexpr : BExpr} {outAttrs : List Attr} {bStream : Bool} {kind : Kind} {p q l r x : Plan}

@[simp] theorem selects_select : selects (.node (.select bexpr) outAttrs bStream [p]) = (bexpr,p) :: selects p := by
  simp [selects,selectsAll]

theorem selects_unary (h : ∀ b, kind ≠ .select b) : selects (.node kind outAttrs bStream [p]) = selects p := by
  rw [selects.eq_2 _ _ _ _ h, selectsAll, selectsAll, List.append_nil]

theorem selects_binary (h : kind.IsCross) : selects (.node kind outAttrs bStream [l, r]) = selects l ++ selects r := by
  rcases h with rfl | rfl
  · simp [selects,selectsAll]
  · simp [selects,selectsAll]

@[simp] theorem belowSelects_select : belowSelects (.node (.select bexpr) outAttrs bStream [p]) = belowSelects p := by
  simp [belowSelects]

theorem belowSelects_of_ne (h : ∀ b, p.kind ≠ .select b) : belowSelects p = p := by
  unfold belowSelects
  split
  · exact absurd rfl (h _)
  · rfl

@[simp] theorem branchTable_select : branchTable (.node (.select bexpr) outAttrs bStream [p]) = branchTable p := by
  simp [branchTable]

theorem branchTable_binary (h : kind.IsCross) : branchTable (.node kind outAttrs bStream [l, r]) = none := by
  rcases h with rfl | rfl
  · simp [branchTable]
  · simp [branchTable]

theorem leftmostTable_binary (h : kind.IsCross) : leftmostTable (.node kind outAttrs bStream [l, r]) = leftmostTable l := by
  rcases h with rfl | rfl
  · simp [leftmostTable]
  · simp [leftmostTable]

end Reading

/-- Selects and binary crosses above the branches of the variables, in this order. -/
inductive Nest (tableMgr : TableManager) (query : Semantic.Query) : Plan → List ℕ → Prop where
  | leaf {p : Plan} {v : ℕ} (not_select : ∀ b, p.kind ≠ .select b) (not_cross : ¬ p.kind.IsCross) (branch : branchTable p = some v)
      (leftmost : leftmostTable p = some v) (schema : p.outAttrs = tableAttrs tableMgr v (query.refTables v))
      (none : selects p = []) : Nest tableMgr query p [v]
  | select {bexpr : BExpr} {bStream : Bool} {p : Plan} {vs : List ℕ} (h : Nest tableMgr query p vs) :
      Nest tableMgr query (.node (.select bexpr) p.outAttrs bStream [p]) vs
  | cross {kind : Kind} {bStream : Bool} {l r : Plan} {vs ws : List ℕ} (hk : kind.IsCross) (hl : Nest tableMgr query l vs)
      (hr : Nest tableMgr query r ws) : Nest tableMgr query (.node kind (l.outAttrs ++ r.outAttrs) bStream [l, r]) (vs ++ ws)

section Placement
variable {tableMgr : TableManager} {query : Semantic.Query} {p q x : Plan} {vs ws : List ℕ} {bexpr c : BExpr}

theorem Nest.outAttrs_eq (h : Nest tableMgr query p vs) :
    p.outAttrs = vs.flatMap fun v => tableAttrs tableMgr v (query.refTables v) := by
  induction h with
  | leaf _ _ _ _ schema _ => simpa using schema
  | select _ ih => exact ih
  | cross _ _ _ ihl ihr => rw [outAttrs_node, ihl, ihr, List.flatMap_append]

theorem Nest.ne_nil (h : Nest tableMgr query p vs) : vs ≠ [] := by
  induction h with
  | leaf => simp
  | select _ ih => exact ih
  | cross _ _ _ ihl _ => simp [ihl]

theorem Nest.leftmost (h : Nest tableMgr query p vs) : leftmostTable p = vs.head? := by
  induction h with
  | leaf _ _ _ leftmost _ _ => exact leftmost
  | select _ ih => simpa [leftmostTable] using ih
  | cross hk hl _ ihl _ => rw [leftmostTable_binary hk, ihl, List.head?_append_of_ne_nil _ hl.ne_nil]

theorem Nest.region (h : Nest tableMgr query p vs) : Region p := by
  induction h with
  | leaf not_select not_cross => exact .other not_select not_cross
  | select _ ih => exact .select ih
  | cross hk _ _ ihl ihr => exact .cross hk ihl ihr

theorem checkReference_of_attrs {e : Expr} (h : ∀ a ∈ e.attrs, p.outAttrs.any (fun b => a.same b) = true) :
    checkReference p e = true := by
  induction e with
  | constVal c => rfl
  | attrRef type a => exact h a (by simp [Expr.attrs])
  | compExpr type op left right hl hr =>
    simp only [Expr.attrs, List.mem_append] at h
    simp only [checkReference, Bool.and_eq_true]
    exact ⟨hl fun a ha => h a (.inl ha),hr fun a ha => h a (.inr ha)⟩

theorem checkReferences_of_attrs (h : ∀ a ∈ bexpr.attrs, p.outAttrs.any (fun b => a.same b) = true) :
    checkReferences p bexpr = true := by
  simp only [BExpr.attrs, List.mem_append] at h
  simp only [checkReferences, Bool.and_eq_true]
  exact ⟨checkReference_of_attrs fun a ha => h a (.inl ha),checkReference_of_attrs fun a ha => h a (.inr ha)⟩

def OfTable (tableMgr : TableManager) (query : Semantic.Query) (bexpr : BExpr) (v : ℕ) : Prop :=
  ∀ a ∈ bexpr.attrs, a ∈ tableAttrs tableMgr v (query.refTables v)

theorem Nest.references (h : Nest tableMgr query p vs) {v : ℕ} (hv : v ∈ vs) (hb : OfTable tableMgr query bexpr v) :
    checkReferences p bexpr = true := by
  refine checkReferences_of_attrs fun a ha => List.any_eq_true.mpr ⟨a,?_,?_⟩
  · rw [h.outAttrs_eq]
    exact List.mem_flatMap.mpr ⟨v,hv,hb a ha⟩
  · obtain ⟨k,-,rfl⟩ := List.mem_map.mp (hb a ha)
    simp [Attr.same]

/-- An attribute of a variable is only in the schemas of plans that read the variable. -/
theorem Nest.mem_of_references (h : Nest tableMgr query p vs) {v : ℕ} (hne : bexpr.attrs ≠ []) (hb : OfTable tableMgr query bexpr v)
    (href : checkReferences p bexpr = true) : v ∈ vs := by
  obtain ⟨a,ha⟩ := List.exists_mem_of_ne_nil _ hne
  obtain ⟨b,hmem,hab⟩ := List.any_eq_true.mp (checkReferences_attrs href a ha)
  obtain rfl := Attr.eq_of_same hab
  rw [h.outAttrs_eq] at hmem
  obtain ⟨w,hw,haw⟩ := List.mem_flatMap.mp hmem
  obtain ⟨k,-,rfl⟩ := List.mem_map.mp (hb a ha)
  obtain ⟨k',-,he⟩ := List.mem_map.mp haw
  obtain ⟨rfl,-⟩ := Attr.named.inj he
  exact hw

/-- A select on top of `i` is as low as its attributes allow in a plan over the variables. -/
structure Placed (tableMgr : TableManager) (query : Semantic.Query) (vs : List ℕ) (bexpr : BExpr) (i : Plan) : Prop where
  no_fit : (belowSelects i).kind.IsCross → ∀ y ∈ (belowSelects i).inputs, checkReferences y bexpr = false
  own_branch : ∀ v ∈ vs, bexpr.attrs ≠ [] → OfTable tableMgr query bexpr v → branchTable i = some v
  leftmost : bexpr.attrs = [] → branchTable i = vs.head?

theorem placed_select {pred : BExpr} {outAttrs : List Attr} {bStream : Bool} :
    Placed tableMgr query vs bexpr (.node (.select pred) outAttrs bStream [p]) ↔ Placed tableMgr query vs bexpr p := by
  constructor
  · rintro ⟨h1,h2,h3⟩
    simp only [belowSelects_select, branchTable_select] at h1 h2 h3
    exact ⟨h1,h2,h3⟩
  · rintro ⟨h1,h2,h3⟩
    refine ⟨?_,?_,?_⟩
    · simpa only [belowSelects_select] using h1
    · simpa only [branchTable_select] using h2
    · simpa only [branchTable_select] using h3

/-- Where a select stays, it is in its place. -/
theorem placed_of_stays (hx : Nest tableMgr query x ws) (hstays : Stays bexpr x) (hhead : bexpr.attrs = [] → ws.head? = vs.head?)
    (href : ∀ v ∈ vs, OfTable tableMgr query bexpr v → checkReferences x bexpr = true) : Placed tableMgr query vs bexpr x := by
  have hbelow : belowSelects x = x := belowSelects_of_ne hstays.not_select
  cases hx with
  | select => exact absurd rfl (hstays.not_select _)
  | @leaf p v not_select not_cross branch leftmost schema none =>
    refine ⟨fun hk => absurd (hbelow ▸ hk) not_cross,fun v' hv' hne hb => ?_,fun hnil => ?_⟩
    · have hmem := Nest.mem_of_references (.leaf not_select not_cross branch leftmost schema none) hne hb (href v' hv' hb)
      rw [branch, List.mem_singleton.mp hmem]
    · rw [branch, ← hhead hnil]
      rfl
  | @cross kind bStream l r vl vr hk hl hr =>
    have hfit := hstays.no_fit hk
    refine ⟨fun _ => by rw [hbelow]; exact hfit,fun v hv hne hb => ?_,fun hnil => ?_⟩
    · have hmem := Nest.mem_of_references (.cross hk hl hr) hne hb (href v hv hb)
      rcases List.mem_append.mp hmem with hv' | hv'
      · have hl' := hfit l (by simp)
        rw [hl.references hv' hb] at hl'
        cases hl'
      · have hr' := hfit r (by simp)
        rw [hr.references hv' hb] at hr'
        cases hr'
    · have hl' := hfit l (by simp)
      rw [checkReferences_of_attrs (by simp [hnil])] at hl'
      cases hl'

theorem Inserted.nest (h : Inserted bexpr x p q) (hp : Nest tableMgr query p vs) : Nest tableMgr query q vs ∧
    ∃ ws, Nest tableMgr query x ws ∧ (bexpr.attrs = [] → ws.head? = vs.head?) ∧
      (checkReferences p bexpr = true → checkReferences x bexpr = true) := by
  induction h generalizing vs with
  | here h => exact ⟨.select hp,vs,hp,fun _ => rfl,id⟩
  | @select pred outAttrs bStream p q h ih =>
    cases hp with
    | leaf not_select => exact absurd rfl (not_select pred)
    | select hp =>
      obtain ⟨hq,ws,hx,hhead,href⟩ := ih hp
      have hsame : checkReferences p bexpr = checkReferences (.node (.select pred) p.outAttrs bStream [p]) bexpr :=
        checkReferences_congr (show p.outAttrs = (Plan.node (.select pred) p.outAttrs bStream [p]).outAttrs from rfl) bexpr
      refine ⟨?_,ws,hx,hhead,fun hr => href (hsame.trans hr)⟩
      rw [← h.outAttrs]
      exact .select hq
  | @left kind outAttrs bStream l l' r hk hl h ih =>
    cases hp with
    | leaf _ not_cross => exact absurd hk not_cross
    | cross _ hpl hpr =>
      obtain ⟨hq,ws,hx,hhead,href⟩ := ih hpl
      refine ⟨?_,ws,hx,fun hnil => ?_,fun _ => href hl⟩
      · rw [← h.outAttrs]
        exact .cross hk hq hpr
      · rw [hhead hnil, List.head?_append_of_ne_nil _ hpl.ne_nil]
  | @right kind outAttrs bStream l r r' hk hl hr h ih =>
    cases hp with
    | leaf _ not_cross => exact absurd hk not_cross
    | cross _ hpl hpr =>
      obtain ⟨hq,ws,hx,hhead,href⟩ := ih hpr
      refine ⟨?_,ws,hx,fun hnil => ?_,fun _ => href hr⟩
      · rw [← h.outAttrs]
        exact .cross hk hpl hq
      · rw [checkReferences_of_attrs (by simp [hnil])] at hl
        cases hl

/-- The copy is in its place. -/
theorem Inserted.placed (h : Inserted bexpr x p q) (hp : Nest tableMgr query p vs) : Placed tableMgr query vs bexpr x := by
  obtain ⟨-,ws,hx,hhead,href⟩ := h.nest hp
  refine placed_of_stays hx ?_ hhead fun v hv hb => href (hp.references hv hb)
  clear hp hhead href hx
  induction h with
  | here h => exact h
  | select _ ih => exact ih
  | left _ _ _ ih => exact ih
  | right _ _ _ _ ih => exact ih

/-- What cannot be pushed is in its place. -/
theorem Blocked.placed (h : Blocked bexpr p) (hp : Nest tableMgr query p vs) : Placed tableMgr query vs bexpr p := by
  induction h with
  | here h => exact placed_of_stays hp h (fun _ => rfl) fun v hv hb => hp.references hv hb
  | @select pred _ _ _ _ ih =>
    cases hp with
    | leaf not_select => exact absurd rfl (not_select pred)
    | select hp => exact placed_select.mpr (ih hp)

theorem Placed.binary {kind : Kind} {outAttrs : List Attr} {bStream : Bool} {l l' r r' : Plan} (hk : kind.IsCross)
    (hl : l'.outAttrs = l.outAttrs) (hr : r'.outAttrs = r.outAttrs)
    (h : Placed tableMgr query vs c (.node kind outAttrs bStream [l, r])) :
    Placed tableMgr query vs c (.node kind outAttrs bStream [l', r']) := by
  have hne (ins : List Plan) : ∀ b, (Plan.node kind outAttrs bStream ins).kind ≠ .select b := by
    rintro b hb
    rcases hk with hk | hk
    · rw [kind_node, hk] at hb
      cases hb
    · rw [kind_node, hk] at hb
      cases hb
  obtain ⟨h1,h2,h3⟩ := h
  rw [branchTable_binary hk] at h2 h3
  rw [belowSelects_of_ne (hne [l, r])] at h1
  refine ⟨?_,?_,?_⟩
  · rw [belowSelects_of_ne (hne [l', r'])]
    intro _ y hy
    rcases List.mem_pair.mp hy with rfl | rfl
    · rw [checkReferences_congr hl]
      exact h1 hk l (by simp)
    · rw [checkReferences_congr hr]
      exact h1 hk r (by simp)
  · rwa [branchTable_binary hk]
  · rwa [branchTable_binary hk]

/-- Selects that are in their place stay there when another is inserted below. -/
theorem Inserted.keeps_placed (h : Inserted bexpr x p q) (hp : Placed tableMgr query vs c p) : Placed tableMgr query vs c q := by
  induction h with
  | here h => exact placed_select.mpr hp
  | select _ ih => exact placed_select.mpr (ih (placed_select.mp hp))
  | left hk _ h _ => exact hp.binary hk h.outAttrs rfl
  | right hk _ _ h _ => exact hp.binary hk rfl h.outAttrs

/-- An insertion adds one select, and the others keep their predicates. -/
theorem Inserted.selects_perm (h : Inserted bexpr x p q) : ((selects q).map Prod.fst).Perm (bexpr :: (selects p).map Prod.fst) := by
  induction h with
  | here h => simp [selectAbove]
  | select _ ih =>
    rw [selects_select, selects_select, List.map_cons, List.map_cons]
    exact (ih.cons _).trans (.swap ..)
  | left hk _ _ ih =>
    rw [selects_binary hk, selects_binary hk, List.map_append, List.map_append]
    exact ih.append_right _
  | right hk _ _ _ ih =>
    rw [selects_binary hk, selects_binary hk, List.map_append, List.map_append]
    exact (ih.append_left _).trans List.perm_middle

def AllPlaced (tableMgr : TableManager) (query : Semantic.Query) (vs : List ℕ) (p : Plan) : Prop :=
  ∀ s ∈ selects p, Placed tableMgr query vs s.1 s.2

theorem Inserted.allPlaced (h : Inserted bexpr x p q) (hx : Placed tableMgr query vs bexpr x)
    (hp : AllPlaced tableMgr query vs p) : AllPlaced tableMgr query vs q := by
  induction h with
  | here h =>
    simp only [AllPlaced, selectAbove, selects_select, List.forall_mem_cons]
    exact ⟨hx,hp⟩
  | select h ih =>
    simp only [AllPlaced, selects_select, List.forall_mem_cons] at hp ⊢
    exact ⟨h.keeps_placed hp.1,ih hp.2⟩
  | left hk _ _ ih =>
    simp only [AllPlaced, selects_binary hk, List.forall_mem_append] at hp ⊢
    exact ⟨ih hp.1,hp.2⟩
  | right hk _ _ _ ih =>
    simp only [AllPlaced, selects_binary hk, List.forall_mem_append] at hp ⊢
    exact ⟨hp.1,ih hp.2⟩

inductive Pending (tableMgr : TableManager) (query : Semantic.Query) (vs : List ℕ) : ℕ → Plan → Prop where
  | zero {p : Plan} (h : AllPlaced tableMgr query vs p) : Pending tableMgr query vs 0 p
  | succ {n : ℕ} {pred : BExpr} {outAttrs : List Attr} {bStream : Bool} {p : Plan} (h : Pending tableMgr query vs n p) :
      Pending tableMgr query vs (n + 1) (.node (.select pred) outAttrs bStream [p])

theorem Inserted.pending {n : ℕ} (h : Inserted bexpr x p q) (hx : Placed tableMgr query vs bexpr x)
    (hp : Pending tableMgr query vs n p) : Pending tableMgr query vs n q := by
  induction hp generalizing q with
  | zero hp => exact .zero (h.allPlaced hx hp)
  | @succ _ pred _ _ _ _ ih =>
    cases h with
    | here h => exact absurd rfl (h.not_select pred)
    | select h => exact .succ (ih h)

/-- After the loop all selects are in their place, and none is lost or doubled. -/
theorem pushSelects_placed {n : ℕ} {u v : Usage} (hp : Nest tableMgr query p vs) (hpending : Pending tableMgr query vs n p)
    (h : pushSelects n p u = .ok q v) : Nest tableMgr query q vs ∧ AllPlaced tableMgr query vs q ∧
      ((selects q).map Prod.fst).Perm ((selects p).map Prod.fst) ∧
      ∀ c, Placed tableMgr query vs c p → Placed tableMgr query vs c q := by
  fun_induction pushSelects n p generalizing q u v with
  | case1 n bexpr outAttrs bStream input ih =>
    cases hp with
    | leaf not_select => exact absurd rfl (not_select bexpr)
    | select hinput =>
    cases hpending with
    | succ hpending =>
    obtain ⟨o,w,h1,h⟩ := bind_eq_ok.mp h
    rcases pushSelect_ok hinput.region h1 with ⟨pushed,x,rfl,hpushed,-⟩ | ⟨-,rfl,hblocked⟩
    · obtain ⟨h1,h2,h3,h4⟩ := ih pushed (hpushed.nest hinput).1 (hpushed.pending (hpushed.placed hinput) hpending) h
      refine ⟨h1,h2,?_,fun c hc => h4 c (hpushed.keeps_placed (placed_select.mp hc))⟩
      rw [selects_select, List.map_cons]
      exact h3.trans hpushed.selects_perm
    · obtain ⟨r,w',h2,h⟩ := bind_eq_ok.mp h
      obtain ⟨rfl,-⟩ := pure_eq_ok.mp h
      obtain ⟨hr,hall,hperm,hkeep⟩ := ih input hinput hpending h2
      have hplaced := hkeep bexpr (hblocked.placed hinput)
      refine ⟨?_,?_,?_,fun c hc => placed_select.mpr (hkeep c (placed_select.mp hc))⟩
      · rw [hinput.outAttrs_eq, ← hr.outAttrs_eq]
        exact .select hr
      · simp only [AllPlaced, selects_select, List.forall_mem_cons]
        exact ⟨hplaced,hall⟩
      · rw [selects_select, selects_select, List.map_cons, List.map_cons]
        exact hperm.cons _
  | case2 n p hne =>
    obtain ⟨rfl,-⟩ := pure_eq_ok.mp h
    cases hpending with
    | zero hall => exact ⟨hp,hall,.refl _,fun _ hc => hc⟩
    | succ => exact (hne _ _ _ _ _ rfl rfl).elim

end Placement

section Cores
variable {tableMgr : TableManager} {query : Semantic.Query} {p q core : Plan} {vs : List ℕ} {wss : List (List ℕ)}

theorem source_reads (tableMgr : TableManager) (v tableId : ℕ) : branchTable (sourcePlan tableMgr v tableId) = some v ∧
    leftmostTable (sourcePlan tableMgr v tableId) = some v ∧ selects (sourcePlan tableMgr v tableId) = [] := by
  unfold sourcePlan
  split
  · simp [branchTable,leftmostTable,selects,selectsAll]
  · simp [branchTable,leftmostTable,selects,selectsAll]

structure Bare (tableMgr : TableManager) (query : Semantic.Query) (p : Plan) (vs : List ℕ) : Prop where
  nest : Nest tableMgr query p vs
  none : selects p = []

theorem bare_source (v : ℕ) : Bare tableMgr query (sourcePlan tableMgr v (query.refTables v)) [v] := by
  obtain ⟨h1,h2,h3⟩ := source_reads tableMgr v (query.refTables v)
  refine ⟨.leaf ?_ ?_ h1 h2 (source_outAttrs v _) h3,h3⟩
  · unfold sourcePlan
    split
    · simp
    · simp
  · unfold sourcePlan
    split
    · simp
    · simp

/-- A window over a source. -/
theorem bare_window {kind : Kind} {v : ℕ} (hk : kind.isWindow = true) :
    Bare tableMgr query (unaryNode kind (sourcePlan tableMgr v (query.refTables v)).outAttrs
      (sourcePlan tableMgr v (query.refTables v))) [v] := by
  obtain ⟨h1,h2,h3⟩ := source_reads tableMgr v (query.refTables v)
  have hsel : ∀ b, kind ≠ .select b := by
    rintro b rfl
    cases hk
  have hcross : ¬ kind.IsCross := by
    rintro (rfl | rfl)
    · cases hk
    · cases hk
  have hnone : selects (unaryNode kind (sourcePlan tableMgr v (query.refTables v)).outAttrs
      (sourcePlan tableMgr v (query.refTables v))) = [] := (selects_unary hsel).trans h3
  refine ⟨.leaf hsel hcross ?_ ?_ (source_outAttrs v _) hnone,hnone⟩
  · cases kind <;> simp_all [unaryNode,branchTable,Kind.isWindow]
  · cases kind <;> simp_all [unaryNode,leftmostTable,Kind.isWindow]

theorem bare_branch (t v : ℕ) : Bare tableMgr query (branch tableMgr query t v) [v] := by
  unfold branch
  dsimp only
  split
  · unfold windowPlan
    split
    · rename_i kind hkind
      refine bare_window ?_
      cases hw : query.winSpec t <;> simp_all [windowKind] <;> subst hkind <;> rfl
    · exact bare_source v
  · exact bare_source v

theorem bare_branches (l : List (ℕ × ℕ)) :
    List.Forall₂ (Bare tableMgr query) (l.map fun v => branch tableMgr query v.2 v.1) (l.map fun v => [v.1]) := by
  rw [List.forall₂_map_left_iff, List.forall₂_map_right_iff, List.forall₂_same]
  exact fun v _ => bare_branch v.2 v.1

theorem Bare.cross {kind : Kind} (hk : kind.IsCross) {bStream : Bool} {l r : Plan} {ws : List ℕ} (hl : Bare tableMgr query l vs)
    (hr : Bare tableMgr query r ws) : Bare tableMgr query (.node kind (l.outAttrs ++ r.outAttrs) bStream [l, r]) (vs ++ ws) := by
  refine ⟨.cross hk hl.nest hr.nest,?_⟩
  rw [selects_binary hk, hl.none, hr.none]
  rfl

theorem bare_leftDeep {kind : Kind} (hk : kind.IsCross) {l : Plan} {rest : List Plan} (hl : Bare tableMgr query l vs)
    (hrest : List.Forall₂ (Bare tableMgr query) rest wss) : Bare tableMgr query (leftDeep kind l rest) (vs ++ wss.flatten) := by
  induction hrest generalizing l vs with
  | nil => simpa using hl
  | cons hr _ ih =>
    rw [leftDeep_cons, List.flatten_cons, ← List.append_assoc]
    exact ih (hl.cross hk hr)

theorem leftDeep_node (kind : Kind) (l r : Plan) (rest : List Plan) : ∃ a b, leftDeep kind l (r :: rest) = binaryNode kind a b := by
  induction rest generalizing l r with
  | nil => exact ⟨l,r,rfl⟩
  | cons x rest ih => exact ih (binaryNode kind l r) x

/-- What is above the cross stays when the cross is made binary. -/
theorem ensures_binary {binary : Plan → Plan → Gen Plan} {isCross : Kind → Bool} {kind : Kind} {outAttrs : List Attr}
    {bStream : Bool} {first second : Plan} {rest : List Plan} {os : List Passed} (hk : kind.IsCross)
    (hbinary : isCross kind = true → ∀ l r, Ensures (binary l r) (· = binaryNode kind l r))
    (hos : ∀ o ∈ os, isUnaryAboveCross o.kind = true) :
    Ensures (makeBinary binary isCross (rebuild (.node kind outAttrs bStream (first :: second :: rest)) os))
      (fun q => ∃ core, q = rebuild core os ∧
        (core = .node kind outAttrs bStream (first :: second :: rest) ∧ (isCross kind = false ∨ rest = []) ∨
          isCross kind = true ∧ core = leftDeep kind first (second :: rest))) := by
  have hstop : isUnaryAboveCross (Plan.node kind outAttrs bStream (first :: second :: rest)).kind = false := by
    rcases hk with rfl | rfl
    · rfl
    · rfl
  refine (ensures_makeBinary_eq hbinary (walk_rebuild hos hstop)).weaken fun q hq => ?_
  rcases hq with ⟨rfl,h⟩ | ⟨h,rfl⟩
  · exact ⟨_,rfl,.inl ⟨rfl,h⟩⟩
  · exact ⟨_,rfl,.inr ⟨h,rfl⟩⟩

/-- The two transformations make the cross at the bottom a nest of binary crosses. -/
theorem ensures_binary_core {kind : Kind} {outAttrs : List Attr} {bStream : Bool} {first second : Plan} {rest : List Plan}
    {os : List Passed} (hk : kind.IsCross) (hos : ∀ o ∈ os, isUnaryAboveCross o.kind = true)
    (hout : outAttrs = ((first :: second :: rest).map Plan.outAttrs).flatten)
    (hbare : List.Forall₂ (Bare tableMgr query) (first :: second :: rest) wss) {u v w : Usage}
    (h1 : tMakeCrossBinary (rebuild (.node kind outAttrs bStream (first :: second :: rest)) os) u = .ok p v)
    (h2 : tMakeStreamCrossBinary p v = .ok q w) :
    ∃ core, q = rebuild core os ∧ core.kind.IsCross ∧ core.outAttrs = outAttrs ∧ Bare tableMgr query core wss.flatten := by
  have hdeep : Bare tableMgr query (leftDeep kind first (second :: rest)) wss.flatten := by
    cases hbare with
    | cons hfirst hrest =>
      rw [List.flatten_cons]
      exact bare_leftDeep hk hfirst hrest
  have hdeep_out : (leftDeep kind first (second :: rest)).outAttrs = outAttrs := by rw [hout, leftDeep_outAttrs]
  have htwo (hrest : rest = []) : Bare tableMgr query (.node kind outAttrs bStream (first :: second :: rest)) wss.flatten := by
    subst hrest
    obtain rfl : outAttrs = first.outAttrs ++ second.outAttrs := by simpa using hout
    cases hbare with
    | cons hfirst hbare =>
    cases hbare with
    | cons hsecond hbare =>
    cases hbare with
    | nil => simpa using hfirst.cross hk hsecond
  rcases hk with rfl | rfl
  · obtain ⟨core,rfl,hcore⟩ := ensures_binary (.inl rfl) (fun _ => ensures_binaryCross_eq) hos _ _ _ h1
    have hfull : core.kind = .cross ∧ core.outAttrs = outAttrs ∧ Bare tableMgr query core wss.flatten ∧
        ∃ a b more attrs flag, core = .node .cross attrs flag (a :: b :: more) := by
      rcases hcore with ⟨rfl,hstop⟩ | ⟨-,rfl⟩
      · have hrest : rest = [] := hstop.resolve_left (by simp)
        exact ⟨rfl,rfl,htwo hrest,_,_,_,_,_,rfl⟩
      · obtain ⟨a,b,hab⟩ := leftDeep_node .cross first second rest
        refine ⟨?_,hdeep_out,hdeep,a,b,[],_,_,hab⟩
        rw [hab]
        rfl
    obtain ⟨-,hattrs,hnest,a,b,more,attrs,flag,rfl⟩ := hfull
    obtain ⟨core,rfl,hcore⟩ := ensures_binary (.inl rfl) (by simp) hos _ _ _ h2
    rcases hcore with ⟨rfl,-⟩ | ⟨hno,-⟩
    · exact ⟨_,rfl,.inl rfl,hattrs,hnest⟩
    · cases hno
  · obtain ⟨core,rfl,hcore⟩ := ensures_binary (.inr rfl) (by simp) hos _ _ _ h1
    rcases hcore with ⟨rfl,-⟩ | ⟨hno,-⟩
    · obtain ⟨core,rfl,hcore⟩ := ensures_binary (.inr rfl) (fun _ => ensures_binaryStreamCross_eq) hos _ _ _ h2
      rcases hcore with ⟨rfl,hstop⟩ | ⟨-,rfl⟩
      · have hrest : rest = [] := hstop.resolve_left (by simp)
        exact ⟨_,rfl,.inr rfl,rfl,htwo hrest⟩
      · obtain ⟨a,b,hab⟩ := leftDeep_node .streamCross first second rest
        refine ⟨_,rfl,?_,hdeep_out,hdeep⟩
        rw [hab]
        exact .inr rfl
    · cases hno

end Cores

end AqsiosCoordinator.Logical.Plan
