import AqsiosCoordinator.Querygen.NameResolution
import AqsiosCoordinator.Querygen.QueryMeaning

/-! # The queries that the interpreter builds are well formed -/
namespace AqsiosCoordinator.Semantic
open Common Foundation Foundation.Outcome Metadata
variable {tableMgr : TableManager} {symbolTable : SymbolTable}

theorem ensures_writeExpr (expr : Bool) (e : Expr) : Ensures (writeExpr expr e) (· = e) :=
  fun _ _ _ h => (writeExpr_ok h).symm

theorem ensures_failIf {c : Prop} [Decidable c] {e : Failure} : Ensures (failIf c e : M PUnit) (fun _ => ¬ c) :=
  fun _ _ _ h => (failIf_eq_ok.mp h).1

/-- The operands of an expression that is built are of one type, which is its type. -/
theorem ensures_interpretExpr (synExpr : Parser.Expr) : Ensures (interpretExpr tableMgr symbolTable synExpr) Expr.Typed := by
  have haggr (fn : AggrFn) (attr : Option Parser.AttrRef) : Ensures (interpretAggrExpr tableMgr symbolTable fn attr) Expr.Typed := by
    intro n e n' h
    obtain ⟨a,rfl,-⟩ := interpretAggrExpr_ok h
    trivial
  induction synExpr with
  | constVal c =>
    refine Ensures.bind ensures_any fun expr _ => (ensures_writeExpr expr _).weaken fun e he => ?_
    rw [he]
    trivial
  | attrRef attr =>
    refine Ensures.bind ensures_any fun expr _ => Ensures.bind ensures_any fun a _ => (ensures_writeExpr expr _).weaken fun e he => ?_
    rw [he]
    trivial
  | aggrExpr fn attr => exact haggr fn (some attr)
  | countStar => exact haggr .count none
  | arithExpr op l r ihl ihr =>
    refine Ensures.bind ensures_any fun expr _ => Ensures.bind ihl fun l' hl => Ensures.bind ihr fun r' hr => ?_
    refine Ensures.bind ensures_any fun _ _ => (ensures_writeExpr expr _).weaken fun e he => ?_
    rw [he]
    exact ⟨hl,hr,rfl⟩

theorem ensures_interpretCondn (condn : Parser.Condn) :
    Ensures (interpretCondn tableMgr symbolTable condn) (fun b => b.left.Typed ∧ b.right.Typed) := by
  refine Ensures.bind (ensures_interpretExpr condn.leftExpr) fun l hl => Ensures.bind (ensures_interpretExpr condn.rightExpr) fun r hr => ?_
  exact Ensures.bind ensures_any fun _ _ => ensures_pure ⟨hl,hr⟩

theorem ensures_interpretList {α β : Type} {interpret : α → M β} {P : β → Prop} (h : ∀ a, Ensures (interpret a) P) {limit : ℕ} {l : List α}
    {done : List β} (hlen : done.length ≤ limit) (hdone : ∀ b ∈ done, P b) :
    Ensures (interpretList interpret limit l done) (fun r => r.length ≤ limit ∧ ∀ b ∈ r, P b) := by
  induction l generalizing done with
  | nil => exact ensures_pure ⟨hlen,hdone⟩
  | cons a l ih =>
    refine Ensures.bind (h a) fun b hb => Ensures.bind ensures_failIf fun _ hroom => ih ?_ ?_
    · rw [List.length_append, List.length_singleton]
      omega
    · rw [List.forall_mem_append]
      exact ⟨hdone,List.forall_mem_singleton.mpr hb⟩

def WindowSpec.Fits (win : WindowSpec) : Prop := ∀ numRows attrs, win = .partition numRows attrs → attrs.length ≤ MAX_PARTN_ATTRS

theorem ensures_interpretWin (synWin : Option Parser.WindowSpec) : Ensures (interpretWin tableMgr symbolTable synWin) WindowSpec.Fits := by
  have hother (win : WindowSpec) (h : ∀ numRows attrs, win ≠ .partition numRows attrs) : Ensures (pure win : M WindowSpec) WindowSpec.Fits :=
    ensures_pure fun numRows attrs hwin => absurd hwin (h numRows attrs)
  cases synWin with
  | none => exact hother _ (by simp)
  | some win =>
    cases win with
    | row numRows => exact hother _ (by simp)
    | range timeSpec =>
      apply hother
      intro numRows attrs
      unfold interpretRangeWin
      cases timeSpec.unit <;> simp
    | now => exact hother _ (by simp)
    | unbounded => exact hother _ (by simp)
    | partition partWinAttrList numRows =>
      refine Ensures.bind (ensures_interpretList (P := fun _ => True) (fun _ => ensures_any) (Nat.zero_le _) (by simp)) fun attrs hattrs => ?_
      apply ensures_pure
      intro n attrs' heq
      cases heq
      exact hattrs.1

theorem ensures_interpretTableWin (tableId : ℕ) (synWin : Option Parser.WindowSpec) {semWin : WindowSpec} (hwin : semWin.Fits) :
    Ensures (interpretTableWin tableMgr symbolTable tableId synWin semWin) WindowSpec.Fits := by
  unfold interpretTableWin
  split
  · exact ensures_interpretWin synWin
  split
  · exact ensures_throw
  · exact ensures_pure hwin

theorem ensures_interpretFromClause {relList : List Parser.RelVar} {semWin : WindowSpec} (hwin : semWin.Fits) {done : List (ℕ × WindowSpec)}
    (hdone : ∀ entry ∈ done, entry.2.Fits) :
    Ensures (interpretFromClause tableMgr symbolTable relList semWin done) (fun tables => ∀ entry ∈ tables, entry.2.Fits) := by
  induction relList generalizing semWin done with
  | nil => exact ensures_pure hdone
  | cons relExpr relList ih =>
    refine Ensures.bind ensures_any fun varId _ => Ensures.bind (ensures_interpretTableWin _ _ hwin) fun win hwin => ?_
    refine Ensures.bind ensures_any fun _ _ => ih hwin ?_
    rw [List.forall_mem_append]
    exact ⟨hdone,List.forall_mem_singleton.mpr hwin⟩

theorem ensures_interpretSelectClause (selectClause : Parser.SelectClause) (vars : List ℕ) :
    Ensures (interpretSelectClause tableMgr symbolTable selectClause vars) (fun projExprs => ∀ e ∈ projExprs, e.Typed) := by
  unfold interpretSelectClause
  split
  · refine ensures_foldlM (fun projExprs a _ hall => ?_) (by simp)
    refine Ensures.bind ensures_any fun _ _ => Ensures.bind ensures_any fun expr _ => Ensures.bind (ensures_writeExpr expr _) fun e he => ?_
    apply ensures_pure
    rw [List.forall_mem_append]
    exact ⟨hall,List.forall_mem_singleton.mpr (he ▸ trivial)⟩
  · exact (ensures_interpretList ensures_interpretExpr (Nat.zero_le _) (by simp)).weaken fun _ h => h.2

theorem interpretSfwBlock_wellFormed {block : Parser.SfwBlock} {reltostrOp : Option Parser.RelToStrOp} {query : Query} {n n' : ℕ}
    (h : interpretSfwBlock tableMgr block reltostrOp n = .ok query n') : query.WellFormed tableMgr := by
  have hnames := interpretSfwBlock_ok h
  obtain ⟨symbolTable,_,-,h⟩ := bind_eq_ok.mp h
  obtain ⟨tables,_,hfrom,h⟩ := bind_eq_ok.mp h
  obtain ⟨preds,_,hwhere,h⟩ := bind_eq_ok.mp h
  obtain ⟨gbyAttrs,_,-,h⟩ := bind_eq_ok.mp h
  obtain ⟨projExprs,_,hselect,h⟩ := bind_eq_ok.mp h
  obtain ⟨rfl,-⟩ := pure_eq_ok.mp h
  have hunbounded : WindowSpec.Fits .unbounded := by simp [WindowSpec.Fits]
  constructor
  · rw [hnames.varIds]
    exact List.nodup_range
  · intro t
    have htables := ensures_interpretFromClause hunbounded (by simp) _ _ _ hfrom
    dsimp only
    cases ht : tables[t]? with
    | none => exact hunbounded
    | some entry => exact htables entry (List.mem_of_getElem? ht)
  · exact (ensures_interpretList ensures_interpretCondn (Nat.zero_le _) (by simp) _ _ _ hwhere).2
  · exact ensures_interpretSelectClause _ _ _ _ _ hselect
  · intro hkind
    cases hkind

theorem interpretBinOp_wellFormed {op : Parser.BinOp} {reltostrOp : Option Parser.RelToStrOp} {query : Query} {n n' : ℕ}
    (h : interpretBinOp tableMgr op reltostrOp n = .ok query n') : query.WellFormed tableMgr := by
  obtain ⟨tables,_,-,h⟩ := bind_eq_ok.mp h
  obtain ⟨_,_,hcompatible,h⟩ := bind_eq_ok.mp h
  obtain ⟨rfl,-⟩ := pure_eq_ok.mp h
  have hschema : schemaCompatible tableMgr tables.1 tables.2 = true := by simpa using (failIf_eq_ok.mp hcompatible).1
  constructor
  · exact List.nodup_nil
  · simp
  · simp
  · simp
  · intro _
    have hlen := congrArg List.length (beq_iff_eq.mp hschema)
    simpa [TableManager.getNumAttrs] using hlen

theorem interpretQuery_wellFormed {parseTree : Parser.ContQuery} {query : Query} {n n' : ℕ}
    (h : interpretQuery tableMgr parseTree n = .ok query n') : query.WellFormed tableMgr := by
  obtain ⟨_,_,-,h⟩ := bind_eq_ok.mp h
  cases parseTree with
  | sfwBlock block reltostrOp => exact interpretSfwBlock_wellFormed h
  | binOp op reltostrOp => exact interpretBinOp_wellFormed h

end AqsiosCoordinator.Semantic
