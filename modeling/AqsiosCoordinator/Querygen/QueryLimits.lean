import AqsiosCoordinator.Querygen.NameResolution
import Mathlib.Algebra.GroupWithZero.Nat

/-! # How large the queries are that the interpreter makes -/
namespace AqsiosCoordinator.Semantic
open Common Foundation Foundation.Outcome Metadata

def Expr.size : Expr → ℕ
  | .constVal _ => 1
  | .attrRef _ _ => 1
  | .aggrExpr _ _ _ => 1
  | .compExpr _ _ left right => 1 + left.size + right.size

def BExpr.size (b : BExpr) : ℕ := b.left.size + b.right.size

def Query.size (query : Query) : ℕ := (query.preds.map BExpr.size).sum + (query.projExprs.map Expr.size).sum

structure Produced (query : Query) : Prop where
  tables : query.fromClauseTables.length ≤ Parser.MAXNODE
  table : query.kind = .sfwQuery → query.fromClauseTables ≠ []
  distinct : query.fromClauseTables.Nodup
  preds : query.preds.length ≤ Parser.MAXNODE
  groupBy : query.gbyAttrs.length ≤ MAX_GROUP_ATTRS
  size : query.size ≤ Parser.MAXNODE + MAX_PROJ

variable {tableMgr : TableManager} {relList : List Parser.RelVar} {symbolTable : SymbolTable} {query : Query} {n n' : ℕ}

theorem Means.size_le {synExpr : Parser.Expr} {e : Expr} (h : Means tableMgr relList synExpr e) : e.size ≤ synExpr.nodes := by
  induction synExpr generalizing e with
  | constVal c =>
    cases e with
    | constVal c' => exact le_rfl
    | _ => exact h.elim
  | attrRef attr =>
    cases e with
    | attrRef type a => exact le_rfl
    | _ => exact h.elim
  | aggrExpr fn attr =>
    cases e with
    | aggrExpr type fn' a => exact Nat.le_succ 1
    | _ => exact h.elim
  | countStar =>
    cases e with
    | aggrExpr type fn a => exact le_rfl
    | _ => exact h.elim
  | arithExpr op l r ihl ihr =>
    cases e with
    | compExpr type op' l' r' =>
      have hl := ihl h.2.1
      have hr := ihr h.2.2
      simp only [Expr.size, Parser.Expr.nodes]
      omega
    | _ => exact h.elim

theorem CondnMeans.size_le {c : Parser.Condn} {b : BExpr} (h : CondnMeans tableMgr relList c b) : b.size ≤ c.nodes := by
  have hl := h.2.1.size_le
  have hr := h.2.2.size_le
  simp only [BExpr.size, Parser.Condn.nodes]
  omega

/-- A list of which each element is no larger than its node. -/
theorem sum_le_listNodes {α β : Type} {R : α → β → Prop} (nodes : α → ℕ) (size : β → ℕ) (hR : ∀ a b, R a b → size b ≤ nodes a)
    {l : List α} {l' : List β} (h : List.Forall₂ R l l') : l.length + (l'.map size).sum ≤ Parser.listNodes nodes l := by
  induction h with
  | nil => exact le_rfl
  | cons hab _ ih =>
    have hle := hR _ _ hab
    simp only [List.length_cons, List.map_cons, List.sum_cons, Parser.listNodes]
    omega

theorem length_le_listNodes {α : Type} (nodes : α → ℕ) (l : List α) : l.length ≤ Parser.listNodes nodes l := by
  induction l with
  | nil => exact le_rfl
  | cons a l ih =>
    simp only [List.length_cons, Parser.listNodes]
    omega

theorem interpretList_length {α β : Type} {interpret : α → M β} {limit : ℕ} {l : List α} {res r : List β} (hres : res.length ≤ limit)
    (hr : interpretList interpret limit l res n = .ok r n') : r.length ≤ limit := by
  induction l generalizing res n with
  | nil =>
    obtain ⟨rfl,-⟩ := pure_eq_ok.mp hr
    exact hres
  | cons a l ih =>
    obtain ⟨b,_,-,hr⟩ := bind_eq_ok.mp hr
    obtain ⟨_,_,hroom,hr⟩ := bind_eq_ok.mp hr
    apply ih ?_ hr
    obtain ⟨hroom,-⟩ := failIf_eq_ok.mp hroom
    rw [List.length_append, List.length_singleton]
    omega

theorem interpretStarInSelect_length {vars : List ℕ} {projExprs : List Expr}
    (hr : interpretStarInSelect tableMgr symbolTable vars n = .ok projExprs n') : projExprs.length ≤ MAX_PROJ := by
  have hstar : Ensures (interpretStarInSelect tableMgr symbolTable vars) (fun l => l.length ≤ MAX_PROJ) := by
    apply ensures_foldlM
    · intro l a _ _ m l' m' hr
      obtain ⟨_,_,hroom,hr⟩ := bind_eq_ok.mp hr
      obtain ⟨_,_,-,hr⟩ := bind_eq_ok.mp hr
      obtain ⟨e,_,-,hr⟩ := bind_eq_ok.mp hr
      obtain ⟨rfl,-⟩ := pure_eq_ok.mp hr
      obtain ⟨hroom,-⟩ := failIf_eq_ok.mp hroom
      rw [List.length_append, List.length_singleton]
      omega
    · exact Nat.zero_le _
  exact hstar _ _ _ hr

/-- The expressions of `*` are attributes, and there are not too many of them. -/
theorem star_size {projExprs : List Expr} (hattrs : ∀ e ∈ projExprs, e.size = 1) : (projExprs.map Expr.size).sum = projExprs.length := by
  induction projExprs with
  | nil => rfl
  | cons e projExprs ih =>
    obtain ⟨he,hattrs⟩ := List.forall_mem_cons.mp hattrs
    rw [List.map_cons, List.sum_cons, List.length_cons, he, ih hattrs, Nat.add_comm]

variable {block : Parser.SfwBlock} {reltostrOp : Option Parser.RelToStrOp}

theorem interpretSfwBlock_kind (hr : interpretSfwBlock tableMgr block reltostrOp n = .ok query n') :
    query.kind = .sfwQuery ∧ query.gbyAttrs.length ≤ MAX_GROUP_ATTRS ∧
      (block.selectClause.projTermList = [] → query.projExprs.length ≤ MAX_PROJ) := by
  obtain ⟨symbolTable,_,-,hr⟩ := bind_eq_ok.mp hr
  obtain ⟨tables,_,-,hr⟩ := bind_eq_ok.mp hr
  obtain ⟨preds,_,-,hr⟩ := bind_eq_ok.mp hr
  obtain ⟨gbyAttrs,_,hgroup,hr⟩ := bind_eq_ok.mp hr
  obtain ⟨projExprs,_,hselect,hr⟩ := bind_eq_ok.mp hr
  obtain ⟨rfl,-⟩ := pure_eq_ok.mp hr
  refine ⟨rfl,interpretList_length (Nat.zero_le _) hgroup,fun hterms => ?_⟩
  unfold interpretSelectClause at hselect
  rw [if_pos (by simp [hterms])] at hselect
  exact interpretStarInSelect_length hselect

theorem interpretSfwBlock_produced (hr : interpretSfwBlock tableMgr block reltostrOp n = .ok query n')
    (hfits : (Parser.ContQuery.sfwBlock block reltostrOp).nodes ≤ Parser.MAXNODE) (htable : block.relList ≠ []) : Produced query := by
  obtain ⟨hkind,hgroup,hstar⟩ := interpretSfwBlock_kind hr
  have h := interpretSfwBlock_ok hr
  simp only [Parser.ContQuery.nodes, Parser.SfwBlock.nodes] at hfits
  have htables := length_le_listNodes Parser.RelVar.nodes block.relList
  have hconds := sum_le_listNodes Parser.Condn.nodes BExpr.size (fun _ _ h => h.size_le) h.preds
  have hpreds := h.preds.length_eq
  have hproj : (query.projExprs.map Expr.size).sum ≤ Parser.listNodes Parser.Expr.nodes block.selectClause.projTermList + MAX_PROJ := by
    by_cases hterms : block.selectClause.projTermList = []
    · have hsize : ∀ e ∈ query.projExprs, e.size = 1 := by
        intro e he
        obtain ⟨type,a,rfl,-⟩ := h.star hterms e he
        rfl
      have hlen := hstar hterms
      rw [star_size hsize]
      omega
    · have hterm := sum_le_listNodes Parser.Expr.nodes Expr.size (fun _ _ h => h.size_le) (h.select hterms)
      omega
  constructor
  · rw [h.varIds, List.length_range]
    omega
  · intro _ hnil
    rw [h.varIds, List.range_eq_nil] at hnil
    exact htable (List.length_eq_zero_iff.mp hnil)
  · rw [h.varIds]
    exact List.nodup_range
  · omega
  · exact hgroup
  · unfold Query.size
    omega

/-- Every query that the interpreter makes of a parse tree keeps to these sizes. -/
theorem interpretQuery_produced (parseTree : Parser.ParseTree) (hr : interpretQuery tableMgr parseTree.query n = .ok query n') :
    Produced query := by
  obtain ⟨tree,hfits,htable⟩ := parseTree
  cases tree with
  | sfwBlock block reltostrOp =>
    have hrun : interpretSfwBlock tableMgr block reltostrOp 0 = .ok query n' := hr
    exact interpretSfwBlock_produced hrun hfits (by simpa [Parser.ContQuery.hasTable] using htable)
  | binOp op reltostrOp =>
    have hrun : interpretBinOp tableMgr op reltostrOp 0 = .ok query n' := hr
    obtain ⟨tables,_,-,hrun⟩ := bind_eq_ok.mp hrun
    obtain ⟨_,_,-,hrun⟩ := bind_eq_ok.mp hrun
    obtain ⟨rfl,-⟩ := pure_eq_ok.mp hrun
    constructor <;> simp [Query.size]

end AqsiosCoordinator.Semantic
