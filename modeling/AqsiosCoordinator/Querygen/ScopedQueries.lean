import AqsiosCoordinator.Querygen.InterpretedQueries

/-! # What the queries of the interpreter refer to

Every attribute of a query is one of a table of its FROM clause. The interpreter does not ask
whether a plain attribute of the SELECT list is one by which is grouped, whether the attributes
of a window are of its own stream, or whether the WHERE clause is free of aggregations.
-/
namespace AqsiosCoordinator.Semantic
open Common Foundation Foundation.Outcome Metadata
variable {tableMgr : TableManager} {symbolTable : SymbolTable} {query : Query}

def Expr.attrs : Expr → List Attr
  | .attrRef _ a => [a]
  | .compExpr _ _ left right => left.attrs ++ right.attrs
  | _ => []

/-- The attributes of an expression are all right, except that a count may be of any. -/
def Expr.Scoped (ok : Attr → Prop) (e : Expr) : Prop := (∀ a ∈ e.attrs, ok a) ∧ ∀ x ∈ e.aggrs, x.1 ≠ .count → ok x.2

def Query.InScope (tableMgr : TableManager) (query : Query) (a : Attr) : Prop :=
  a.varId ∈ query.fromClauseTables ∧ a.attrId < tableMgr.getNumAttrs (query.refTables a.varId)

structure Query.Scoped (tableMgr : TableManager) (query : Query) : Prop where
  partitions : ∀ x ∈ query.fromClauseTables.zipIdx, tableMgr.isStream (query.refTables x.1) = true →
    ∀ numRows attrs, query.winSpec x.2 = .partition numRows attrs → ∀ a ∈ attrs, query.InScope tableMgr a
  preds : ∀ b ∈ query.preds, b.left.Scoped (query.InScope tableMgr) ∧ b.right.Scoped (query.InScope tableMgr)
  gbyAttrs : ∀ a ∈ query.gbyAttrs, query.InScope tableMgr a
  projExprs : ∀ e ∈ query.projExprs, e.Scoped (query.InScope tableMgr)

def InTables (tableMgr : TableManager) (symbolTable : SymbolTable) (a : Attr) : Prop :=
  a.varId < symbolTable.length ∧ a.attrId < tableMgr.getNumAttrs (tableOf symbolTable a.varId)

theorem getAttrId_lt {tableId attrId : ℕ} {name : List Char} (h : tableMgr.getAttrId tableId name = some attrId) :
    attrId < tableMgr.getNumAttrs tableId := (List.findIdx?_eq_some_iff_getElem.mp h).1

theorem ensures_findVariable {attrName : List Char} {v : ℕ} {rest : SymbolTable} {found : Option Attr} (hrest : symbolTable.drop v = rest)
    (hfound : ∀ a ∈ found, InTables tableMgr symbolTable a) :
    Ensures (findVariable tableMgr attrName v rest found) (fun r => ∀ a ∈ r, InTables tableMgr symbolTable a) := by
  induction rest generalizing v found with
  | nil => exact ensures_pure hfound
  | cons s rest ih =>
    have hget : symbolTable[v]? = some s := by
      rw [← Nat.add_zero v, ← List.getElem?_drop, hrest]
      rfl
    have hnext : symbolTable.drop (v + 1) = rest := by
      rw [← List.drop_drop, hrest]
      rfl
    unfold findVariable
    split
    · exact ih hnext hfound
    · rename_i attrId hattr
      split
      · exact ensures_throw
      · apply ih hnext
        intro a ha
        obtain rfl := Option.some.inj ha
        obtain ⟨hlt,-⟩ := List.getElem?_eq_some_iff.mp hget
        refine ⟨hlt,?_⟩
        simp only [tableOf, hget]
        exact getAttrId_lt hattr

theorem ensures_interpretAttr (synAttr : Parser.AttrRef) : Ensures (interpretAttr tableMgr symbolTable synAttr) (InTables tableMgr symbolTable) := by
  unfold interpretAttr
  split
  · refine Ensures.bind (Q := (· < symbolTable.length)) ?_ fun varId hlt => ?_
    · unfold interpretVarName
      split
      · rename_i varId hfind
        exact ensures_pure (List.findIdx?_eq_some_iff_getElem.mp hfind).1
      · exact ensures_throw
    · split
      · exact ensures_throw
      · rename_i attrId hattr
        exact ensures_pure ⟨hlt,getAttrId_lt hattr⟩
  · refine Ensures.bind (ensures_findVariable (v := 0) rfl (by simp)) fun r hr => ?_
    split
    · exact ensures_throw
    · exact ensures_pure (hr _ rfl)

theorem ensures_interpretExpr_scoped (synExpr : Parser.Expr) :
    Ensures (interpretExpr tableMgr symbolTable synExpr) (Expr.Scoped (InTables tableMgr symbolTable)) := by
  have haggr (fn : AggrFn) (attr : Option Parser.AttrRef) (hattr : attr = none → fn = .count) :
      Ensures (interpretAggrExpr tableMgr symbolTable fn attr) (Expr.Scoped (InTables tableMgr symbolTable)) := by
    refine Ensures.bind ensures_any fun expr _ => Ensures.bind (Q := fun a => fn ≠ .count → InTables tableMgr symbolTable a) ?_ fun a ha => ?_
    · unfold interpretAggrAttr
      split
      · split
        · rename_i hcount
          exact ensures_pure fun hne => absurd hcount hne
        · exact (ensures_interpretAttr _).weaken fun a ha _ => ha
      · exact ensures_pure fun hne => absurd (hattr rfl) hne
    · refine (ensures_writeExpr expr _).weaken fun e he => ?_
      rw [he]
      exact ⟨by simp [Expr.attrs],by simpa [Expr.aggrs] using ha⟩
  induction synExpr with
  | constVal c =>
    refine Ensures.bind ensures_any fun expr _ => (ensures_writeExpr expr _).weaken fun e he => ?_
    rw [he]
    exact ⟨by simp [Expr.attrs],by simp [Expr.aggrs]⟩
  | attrRef attr =>
    refine Ensures.bind ensures_any fun expr _ => Ensures.bind (ensures_interpretAttr attr) fun a ha => ?_
    refine (ensures_writeExpr expr _).weaken fun e he => ?_
    rw [he]
    exact ⟨by simpa [Expr.attrs] using ha,by simp [Expr.aggrs]⟩
  | aggrExpr fn attr => exact haggr fn (some attr) (by simp)
  | countStar => exact haggr .count none fun _ => rfl
  | arithExpr op l r ihl ihr =>
    refine Ensures.bind ensures_any fun expr _ => Ensures.bind ihl fun l' hl => Ensures.bind ihr fun r' hr => ?_
    refine Ensures.bind ensures_any fun _ _ => (ensures_writeExpr expr _).weaken fun e he => ?_
    rw [he]
    constructor
    · exact List.forall_mem_append.mpr ⟨hl.1,hr.1⟩
    · exact List.forall_mem_append.mpr ⟨hl.2,hr.2⟩

theorem ensures_interpretCondn_scoped (condn : Parser.Condn) : Ensures (interpretCondn tableMgr symbolTable condn)
    (fun b => b.left.Scoped (InTables tableMgr symbolTable) ∧ b.right.Scoped (InTables tableMgr symbolTable)) := by
  refine Ensures.bind (ensures_interpretExpr_scoped condn.leftExpr) fun l hl => ?_
  refine Ensures.bind (ensures_interpretExpr_scoped condn.rightExpr) fun r hr => ?_
  exact Ensures.bind ensures_any fun _ _ => ensures_pure ⟨hl,hr⟩

def WindowSpec.Scoped (tableMgr : TableManager) (symbolTable : SymbolTable) (varId : ℕ) (win : WindowSpec) : Prop :=
  tableMgr.isStream (tableOf symbolTable varId) = true → ∀ numRows attrs, win = .partition numRows attrs →
    ∀ a ∈ attrs, InTables tableMgr symbolTable a

theorem ensures_interpretTableWin_scoped (varId : ℕ) (synWin : Option Parser.WindowSpec) (semWin : WindowSpec) :
    Ensures (interpretTableWin tableMgr symbolTable (tableOf symbolTable varId) synWin semWin)
      (WindowSpec.Scoped tableMgr symbolTable varId) := by
  have hother (win : WindowSpec) (h : ∀ numRows attrs, win ≠ .partition numRows attrs) :
      Ensures (pure win : M WindowSpec) (WindowSpec.Scoped tableMgr symbolTable varId) :=
    ensures_pure fun _ numRows attrs hwin => absurd hwin (h numRows attrs)
  unfold interpretTableWin
  split
  · cases synWin with
    | none => exact hother _ (by simp)
    | some win =>
      cases win with
      | row numRows => exact hother _ (by simp)
      | now => exact hother _ (by simp)
      | unbounded => exact hother _ (by simp)
      | range timeSpec =>
        apply hother
        unfold interpretRangeWin
        split <;> simp
      | partition partWinAttrList numRows =>
        refine Ensures.bind (ensures_interpretList ensures_interpretAttr (Nat.zero_le _) (by simp)) fun attrs hattrs => ?_
        apply ensures_pure
        intro _ numRows' attrs' hwin
        cases hwin
        exact hattrs.2
  · rename_i hs
    split
    · exact ensures_throw
    · exact ensures_pure fun hstream => absurd hstream hs

theorem ensures_interpretFromClause_scoped {relList : List Parser.RelVar} {semWin : WindowSpec} {done : List (ℕ × WindowSpec)}
    (hdone : ∀ e ∈ done, e.2.Scoped tableMgr symbolTable e.1) :
    Ensures (interpretFromClause tableMgr symbolTable relList semWin done) (fun r => ∀ e ∈ r, e.2.Scoped tableMgr symbolTable e.1) := by
  induction relList generalizing semWin done with
  | nil => exact ensures_pure hdone
  | cons relExpr relList ih =>
    refine Ensures.bind ensures_any fun varId _ => ?_
    refine Ensures.bind (ensures_interpretTableWin_scoped varId relExpr.windowSpec semWin) fun win hwin => ?_
    refine Ensures.bind ensures_any fun _ _ => ih ?_
    rw [List.forall_mem_append]
    exact ⟨hdone,List.forall_mem_singleton.mpr hwin⟩

theorem ensures_interpretSelectClause_scoped (selectClause : Parser.SelectClause) {vars : List ℕ} (hvars : ∀ v ∈ vars, v < symbolTable.length) :
    Ensures (interpretSelectClause tableMgr symbolTable selectClause vars) (fun r => ∀ e ∈ r, e.Scoped (InTables tableMgr symbolTable)) := by
  unfold interpretSelectClause
  split
  · refine ensures_foldlM (fun projExprs a ha hall => ?_) (by simp)
    refine Ensures.bind ensures_any fun _ _ => Ensures.bind ensures_any fun expr _ => Ensures.bind (ensures_writeExpr expr _) fun e he => ?_
    apply ensures_pure
    rw [List.forall_mem_append]
    refine ⟨hall,List.forall_mem_singleton.mpr ?_⟩
    obtain ⟨v,hv,ha⟩ := List.mem_flatMap.mp ha
    obtain ⟨i,hi,rfl⟩ := List.mem_map.mp ha
    rw [he]
    refine ⟨?_,by simp [Expr.aggrs]⟩
    intro b hb
    obtain rfl := List.mem_singleton.mp hb
    exact ⟨hvars v hv,List.mem_range.mp hi⟩
  · exact (ensures_interpretList ensures_interpretExpr_scoped (Nat.zero_le _) (by simp)).weaken fun _ h => h.2

/-- Every attribute of a query that is accepted is one of a table of its FROM clause. -/
theorem interpretSfwBlock_scoped {block : Parser.SfwBlock} {reltostrOp : Option Parser.RelToStrOp} {n n' : ℕ}
    (h : interpretSfwBlock tableMgr block reltostrOp n = .ok query n') : query.Scoped tableMgr := by
  have hnames := interpretSfwBlock_ok h
  obtain ⟨symbolTable,_,hsymbols,h⟩ := bind_eq_ok.mp h
  obtain ⟨tables,_,hfrom,h⟩ := bind_eq_ok.mp h
  obtain ⟨preds,_,hwhere,h⟩ := bind_eq_ok.mp h
  obtain ⟨gbyAttrs,_,hgroup,h⟩ := bind_eq_ok.mp h
  obtain ⟨projExprs,_,hselect,h⟩ := bind_eq_ok.mp h
  obtain ⟨rfl,-⟩ := pure_eq_ok.mp h
  have hempty : Scope tableMgr [] [] := ⟨.nil,List.nodup_nil⟩
  have hscope : Scope tableMgr block.relList symbolTable := getSFWReferencedTables_ok hempty hsymbols
  have hvars : tables.map Prod.fst = List.range symbolTable.length := by
    rw [← hscope.entries.length_eq]
    exact hnames.varIds
  -- the tables of the symbol table are those of the FROM clause
  have hin {a : Attr} (ha : InTables tableMgr symbolTable a) : a.varId ∈ tables.map Prod.fst ∧
      a.attrId < tableMgr.getNumAttrs (tableOf symbolTable a.varId) := ⟨by rw [hvars]; exact List.mem_range.mpr ha.1,ha.2⟩
  have hexpr {e : Expr} (he : e.Scoped (InTables tableMgr symbolTable)) : e.Scoped fun a => a.varId ∈ tables.map Prod.fst ∧
      a.attrId < tableMgr.getNumAttrs (tableOf symbolTable a.varId) := ⟨fun a ha => hin (he.1 a ha),fun x hx hne => hin (he.2 x hx hne)⟩
  constructor
  · intro x hx hs numRows attrs hwin a ha
    have hx' := List.mem_zipIdx_iff_getElem?.mp hx
    rw [List.getElem?_map] at hx'
    obtain ⟨entry,hentry,hfst⟩ := Option.map_eq_some_iff.mp hx'
    have hall := ensures_interpretFromClause_scoped (by simp) _ _ _ hfrom entry (List.mem_of_getElem? hentry)
    simp only [hentry, Option.map_some, Option.getD_some] at hwin
    rw [← hfst] at hs
    exact hin (hall hs numRows attrs hwin a ha)
  · intro b hb
    have hall := (ensures_interpretList ensures_interpretCondn_scoped (Nat.zero_le _) (by simp) _ _ _ hwhere).2 b hb
    exact ⟨hexpr hall.1,hexpr hall.2⟩
  · intro a ha
    exact hin ((ensures_interpretList ensures_interpretAttr (Nat.zero_le _) (by simp) _ _ _ hgroup).2 a ha)
  · intro e he
    refine hexpr (ensures_interpretSelectClause_scoped _ (fun v hv => ?_) _ _ _ hselect e he)
    rw [hvars] at hv
    exact List.mem_range.mp hv

theorem interpretQuery_scoped {parseTree : Parser.ContQuery} {n n' : ℕ} (h : interpretQuery tableMgr parseTree n = .ok query n')
    (hkind : query.kind = .sfwQuery) : query.Scoped tableMgr := by
  obtain ⟨_,_,-,h⟩ := bind_eq_ok.mp h
  cases parseTree with
  | sfwBlock block reltostrOp => exact interpretSfwBlock_scoped h
  | binOp op reltostrOp =>
    obtain ⟨tables,_,-,h⟩ := bind_eq_ok.mp h
    obtain ⟨_,_,-,h⟩ := bind_eq_ok.mp h
    obtain ⟨rfl,-⟩ := pure_eq_ok.mp h
    cases hkind

/-- The tables of a query that is accepted are registered. -/
theorem interpretQuery_tables {parseTree : Parser.ContQuery} {n n' : ℕ} (h : interpretQuery tableMgr parseTree n = .ok query n') :
    ∀ v ∈ query.sources, query.refTables v < tableMgr.numTables := by
  have hlt {name : List Char} {tableId : ℕ} (hid : tableMgr.getTableId name = some tableId) : tableId < tableMgr.numTables :=
    (List.findIdx?_eq_some_iff_getElem.mp hid).1
  obtain ⟨_,_,-,h⟩ := bind_eq_ok.mp h
  cases parseTree with
  | sfwBlock block reltostrOp =>
    have hnames := interpretSfwBlock_ok h
    obtain ⟨symbolTable,_,-,h⟩ := bind_eq_ok.mp h
    obtain ⟨tables,_,-,h⟩ := bind_eq_ok.mp h
    obtain ⟨preds,_,-,h⟩ := bind_eq_ok.mp h
    obtain ⟨gbyAttrs,_,-,h⟩ := bind_eq_ok.mp h
    obtain ⟨projExprs,_,-,h⟩ := bind_eq_ok.mp h
    obtain ⟨rfl,-⟩ := pure_eq_ok.mp h
    intro v hv
    rw [Query.sources, hnames.varIds, List.mem_range] at hv
    exact hlt (hnames.tables v _ (List.getElem?_eq_getElem hv))
  | binOp op reltostrOp =>
    obtain ⟨tables,_,htables,h⟩ := bind_eq_ok.mp h
    obtain ⟨_,_,-,h⟩ := bind_eq_ok.mp h
    obtain ⟨rfl,-⟩ := pure_eq_ok.mp h
    have hboth : tables.1 < tableMgr.numTables ∧ tables.2 < tableMgr.numTables := by
      cases op with
      | union leftTable rightTable | except leftTable rightTable =>
        unfold getBinOpReferencedTables at htables
        cases hleft : tableMgr.getTableId leftTable with
        | none => simp [hleft] at htables
        | some leftId =>
          cases hright : tableMgr.getTableId rightTable with
          | none => simp [hleft,hright] at htables
          | some rightId =>
            simp only [hleft, hright] at htables
            obtain ⟨rfl,-⟩ := pure_eq_ok.mp htables
            exact ⟨hlt hleft,hlt hright⟩
    intro v _
    dsimp only
    split
    · exact hboth.1
    · exact hboth.2

end AqsiosCoordinator.Semantic
