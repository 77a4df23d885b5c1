import AqsiosCoordinator.Foundation.Budget
import AqsiosCoordinator.Querygen.SemInterp
import Mathlib.Algebra.Order.Group.Nat
import Mathlib.Data.List.Forall2
import Mathlib.Data.List.Nodup

/-! # Which names the semantic interpreter resolves, and to what

What a name in a query refers to is said in terms of the FROM clause and of the registered
tables. The interpreter returns a query in which every name has become what it refers to,
or a return code.
-/
namespace AqsiosCoordinator.Semantic
open Common Foundation Foundation.Outcome Metadata

section Meaning
variable (tableMgr : TableManager) (relList : List Parser.RelVar)

/-- Attribute `a` belongs to a table of the FROM clause that declares it under this name. -/
def Declares (attrName : List Char) (a : Attr) : Prop :=
  ∃ table tableId, relList[a.varId]? = some table ∧ tableMgr.getTableId table.relName = some tableId ∧
    tableMgr.getAttrId tableId attrName = some a.attrId

/-- An attribute with a variable name is that of the entry with this name; one without a
variable name is the only one that any entry declares. -/
def Refers (synAttr : Parser.AttrRef) (a : Attr) : Prop :=
  Declares tableMgr relList synAttr.attrName a ∧
    match synAttr.relVarName with
    | some varName => ∃ table, relList[a.varId]? = some table ∧ variableName table = varName
    | none => ∀ b, Declares tableMgr relList synAttr.attrName b → b = a

def HasType (a : Attr) (type : DataType) : Prop :=
  ∃ table tableId, relList[a.varId]? = some table ∧ tableMgr.getTableId table.relName = some tableId ∧
    type = tableMgr.getAttrType tableId a.attrId

/-- The query's expression is the parsed one with every attribute reference outside COUNT
replaced by what it refers to, under its declared type. -/
def Means : Parser.Expr → Expr → Prop
  | .constVal c, .constVal c' => c = c'
  | .attrRef attr, .attrRef type a => Refers tableMgr relList attr a ∧ HasType tableMgr relList a type
  | .aggrExpr fn attr, .aggrExpr _ fn' a => fn = fn' ∧ (fn ≠ .count → Refers tableMgr relList attr a)
  | .countStar, .aggrExpr _ fn _ => fn = .count
  | .arithExpr op l r, .compExpr _ op' l' r' => op = op' ∧ Means l l' ∧ Means r r'
  | _, _ => False

def CondnMeans (c : Parser.Condn) (b : BExpr) : Prop :=
  c.op = b.op ∧ Means tableMgr relList c.leftExpr b.left ∧ Means tableMgr relList c.rightExpr b.right

/-- A reference without a meaning: its variable or its attribute is unknown, or, without a
variable name, no entry of the FROM clause declares it or two do. -/
def Unresolved (synAttr : Parser.AttrRef) : Prop :=
  match synAttr.relVarName with
  | some varName => ∀ a table, relList[a.varId]? = some table → variableName table = varName →
      ¬ Declares tableMgr relList synAttr.attrName a
  | none => (∀ a, ¬ Declares tableMgr relList synAttr.attrName a) ∨
      ∃ a b, a.varId ≠ b.varId ∧ Declares tableMgr relList synAttr.attrName a ∧ Declares tableMgr relList synAttr.attrName b

end Meaning

/-- A query in which the names of a block have become what they refer to. -/
structure NamesResolved (tableMgr : TableManager) (block : Parser.SfwBlock) (query : Query) : Prop where
  names : (block.relList.map variableName).Nodup
  varIds : query.fromClauseTables = List.range block.relList.length
  tables : ∀ t table, block.relList[t]? = some table → tableMgr.getTableId table.relName = some (query.refTables t)
  select : block.selectClause.projTermList ≠ [] →
    List.Forall₂ (Means tableMgr block.relList) block.selectClause.projTermList query.projExprs
  star : block.selectClause.projTermList = [] →
    ∀ e ∈ query.projExprs, ∃ type a, e = .attrRef type a ∧ HasType tableMgr block.relList a type
  preds : List.Forall₂ (CondnMeans tableMgr block.relList) block.conditionList query.preds
  groupBy : List.Forall₂ (Refers tableMgr block.relList) block.groupList query.gbyAttrs
  partitionBy : ∀ t table partnAttrs numRows, block.relList[t]? = some table →
    table.windowSpec = some (.partition partnAttrs numRows) → ∃ attrs, query.winSpec t = .partition (toUnsigned numRows) attrs ∧
      List.Forall₂ (Refers tableMgr block.relList) partnAttrs attrs

/-- The entries of the FROM clause with their tables, under distinct names. -/
structure Scope (tableMgr : TableManager) (relList : List Parser.RelVar) (symbolTable : SymbolTable) : Prop where
  entries : List.Forall₂ (fun (table : Parser.RelVar) s => s.varName = variableName table ∧
    tableMgr.getTableId table.relName = some s.tableId) relList symbolTable
  names : (symbolTable.map SymbolTableEntry.varName).Nodup

section Names
variable {tableMgr : TableManager} {relList : List Parser.RelVar} {symbolTable : SymbolTable} {n n' : ℕ}

theorem getSFWReferencedTables_ok {rest : List Parser.RelVar} {tables : SymbolTable} (h : Scope tableMgr relList symbolTable)
    (hr : getSFWReferencedTables tableMgr rest symbolTable n = .ok tables n') : Scope tableMgr (relList ++ rest) tables := by
  induction rest generalizing relList symbolTable n with
  | nil =>
    obtain ⟨rfl,-⟩ := pure_eq_ok.mp hr
    rwa [List.append_nil]
  | cons table rest ih =>
    obtain ⟨next,_,hadd,hr⟩ := bind_eq_ok.mp hr
    unfold addSymbolTableEntry at hadd
    cases hid : tableMgr.getTableId table.relName with
    | none => simp [hid] at hadd
    | some tableId =>
      simp only [hid] at hadd
      split at hadd
      · simp at hadd
      rename_i hfresh
      split at hadd
      · simp at hadd
      obtain ⟨rfl,-⟩ := pure_eq_ok.mp hadd
      have hscope : Scope tableMgr (relList ++ [table]) (symbolTable ++ [⟨variableName table,tableId⟩]) := by
        constructor
        · exact List.rel_append h.entries (.cons ⟨rfl,hid⟩ .nil)
        · rw [List.map_append, List.nodup_append]
          refine ⟨h.names,List.nodup_singleton _,?_⟩
          intro a ha b hb
          obtain rfl := List.mem_singleton.mp hb
          obtain ⟨s,hs,rfl⟩ := List.mem_map.mp ha
          exact fun he => hfresh (List.any_eq_true.mpr ⟨s,hs,beq_iff_eq.mpr he⟩)
      simpa using ih hscope hr

theorem Scope.entry (h : Scope tableMgr relList symbolTable) {v : ℕ} {table : Parser.RelVar} (hv : relList[v]? = some table) :
    ∃ s, symbolTable[v]? = some s ∧ s.varName = variableName table ∧ tableMgr.getTableId table.relName = some s.tableId := by
  obtain ⟨hlt,rfl⟩ := List.getElem?_eq_some_iff.mp hv
  have hlt' : v < symbolTable.length := h.entries.length_eq ▸ hlt
  exact ⟨symbolTable[v],List.getElem?_eq_getElem hlt',h.entries.get hlt hlt'⟩

theorem Scope.table (h : Scope tableMgr relList symbolTable) {v : ℕ} {s : SymbolTableEntry} (hv : symbolTable[v]? = some s) :
    ∃ table, relList[v]? = some table ∧ s.varName = variableName table ∧ tableMgr.getTableId table.relName = some s.tableId := by
  obtain ⟨hlt,rfl⟩ := List.getElem?_eq_some_iff.mp hv
  have hlt' : v < relList.length := h.entries.length_eq ▸ hlt
  exact ⟨relList[v],List.getElem?_eq_getElem hlt',h.entries.get hlt' hlt⟩

theorem Scope.declares_iff (h : Scope tableMgr relList symbolTable) {attrName : List Char} {a : Attr} :
    Declares tableMgr relList attrName a ↔
      ∃ s, symbolTable[a.varId]? = some s ∧ tableMgr.getAttrId s.tableId attrName = some a.attrId := by
  constructor
  · rintro ⟨table,tableId,hv,hid,ha⟩
    obtain ⟨s,hs,-,hsid⟩ := h.entry hv
    obtain rfl : s.tableId = tableId := Option.some.inj (hsid.symm.trans hid)
    exact ⟨s,hs,ha⟩
  · rintro ⟨s,hs,ha⟩
    obtain ⟨table,hv,-,hid⟩ := h.table hs
    exact ⟨table,s.tableId,hv,hid,ha⟩

theorem Scope.hasType (h : Scope tableMgr relList symbolTable) {a : Attr} {table : Parser.RelVar}
    (hv : relList[a.varId]? = some table) : HasType tableMgr relList a (typeOf tableMgr symbolTable a) := by
  obtain ⟨s,hs,-,hid⟩ := h.entry hv
  refine ⟨table,s.tableId,hv,hid,?_⟩
  simp [typeOf,tableOf,hs]

theorem Scope.names_relList (h : Scope tableMgr relList symbolTable) : (relList.map variableName).Nodup := by
  have hmap : symbolTable.map SymbolTableEntry.varName = relList.map variableName := by
    apply List.ext_getElem?
    intro v
    rw [List.getElem?_map, List.getElem?_map]
    cases hv : relList[v]? with
    | none =>
      rw [List.getElem?_eq_none_iff, h.entries.length_eq] at hv
      rw [List.getElem?_eq_none hv]
      rfl
    | some table =>
      obtain ⟨s,hs,hname,-⟩ := h.entry hv
      simp [hs,hname]
  exact hmap ▸ h.names

/-- Entries with one name are one entry. -/
theorem Scope.eq_of_name (h : Scope tableMgr relList symbolTable) {v w : ℕ} {s s' : SymbolTableEntry}
    (hv : symbolTable[v]? = some s) (hw : symbolTable[w]? = some s') (hname : s.varName = s'.varName) : v = w := by
  obtain ⟨hvl,rfl⟩ := List.getElem?_eq_some_iff.mp hv
  obtain ⟨hwl,rfl⟩ := List.getElem?_eq_some_iff.mp hw
  have hvl' : v < (symbolTable.map SymbolTableEntry.varName).length := by simpa using hvl
  have hwl' : w < (symbolTable.map SymbolTableEntry.varName).length := by simpa using hwl
  have hinj := @List.Nodup.getElem_inj_iff _ _ h.names v hvl' w hwl'
  apply hinj.mp
  simpa using hname

theorem interpretVarName_ok {varName : List Char} {varId : ℕ}
    (hr : interpretVarName symbolTable varName n = .ok varId n') :
    ∃ s, symbolTable[varId]? = some s ∧ s.varName = varName := by
  unfold interpretVarName at hr
  cases hf : symbolTable.findIdx? (fun s => s.varName == varName) with
  | none => simp [hf] at hr
  | some i =>
    simp only [hf] at hr
    obtain ⟨rfl,-⟩ := pure_eq_ok.mp hr
    obtain ⟨hlt,hname,-⟩ := List.findIdx?_eq_some_iff_getElem.mp hf
    exact ⟨_,List.getElem?_eq_getElem hlt,beq_iff_eq.mp hname⟩

/-- What the first `k` entries declare under a name: nothing, or one attribute. -/
def FoundBelow (tableMgr : TableManager) (symbolTable : SymbolTable) (attrName : List Char) (k : ℕ) : Option Attr → Prop
  | none => ∀ (b : Attr) (s : SymbolTableEntry), b.varId < k → symbolTable[b.varId]? = some s →
      tableMgr.getAttrId s.tableId attrName ≠ some b.attrId
  | some a => (∃ s, symbolTable[a.varId]? = some s ∧ tableMgr.getAttrId s.tableId attrName = some a.attrId) ∧
      ∀ (b : Attr) (s : SymbolTableEntry), b.varId < k → symbolTable[b.varId]? = some s →
        tableMgr.getAttrId s.tableId attrName = some b.attrId → b = a

theorem findVariable_ok {attrName : List Char} {k : ℕ} {rest : SymbolTable} {found r : Option Attr}
    (hrest : symbolTable.drop k = rest) (hfound : FoundBelow tableMgr symbolTable attrName k found)
    (hr : findVariable tableMgr attrName k rest found n = .ok r n') :
    FoundBelow tableMgr symbolTable attrName symbolTable.length r := by
  induction rest generalizing k found n with
  | nil =>
    obtain ⟨rfl,-⟩ := pure_eq_ok.mp hr
    have hk : symbolTable.length ≤ k := List.drop_eq_nil_iff.mp hrest
    cases found with
    | none => exact fun b s hb => hfound b s (by omega)
    | some a => exact ⟨hfound.1,fun b s hb => hfound.2 b s (by omega)⟩
  | cons s rest ih =>
    have hs : symbolTable[k]? = some s := by
      rw [← List.head?_drop, hrest]
      rfl
    have hnext : symbolTable.drop (k + 1) = rest := by rw [← List.drop_drop, hrest, List.drop_one, List.tail_cons]
    unfold findVariable at hr
    cases ha : tableMgr.getAttrId s.tableId attrName with
    | none =>
      simp only [ha] at hr
      apply ih hnext ?_ hr
      have hnone (b : Attr) (s' : SymbolTableEntry) (hb : symbolTable[b.varId]? = some s')
          (hba : tableMgr.getAttrId s'.tableId attrName = some b.attrId) : b.varId ≠ k := by
        rintro rfl
        obtain rfl : s = s' := Option.some.inj (hs.symm.trans hb)
        simp [ha] at hba
      cases found with
      | none =>
        intro b s' hb hbs hba
        have hne := hnone b s' hbs hba
        exact hfound b s' (by omega) hbs hba
      | some a =>
        refine ⟨hfound.1,fun b s' hb hbs hba => ?_⟩
        have hne := hnone b s' hbs hba
        exact hfound.2 b s' (by omega) hbs hba
    | some i =>
      simp only [ha] at hr
      cases found with
      | some a => simp at hr
      | none =>
        apply ih hnext ?_ hr
        refine ⟨⟨s,hs,ha⟩,fun b s' hb hbs hba => ?_⟩
        by_cases hbk : b.varId = k
        · rw [hbk] at hbs
          obtain rfl : s = s' := Option.some.inj (hs.symm.trans hbs)
          obtain ⟨v,j⟩ := b
          obtain rfl : v = k := hbk
          obtain rfl : i = j := Option.some.inj (ha.symm.trans hba)
          rfl
        · exact absurd hba (hfound b s' (by omega) hbs)

/-- An attribute that the interpreter resolves becomes what it refers to. -/
theorem interpretAttr_ok (h : Scope tableMgr relList symbolTable) {synAttr : Parser.AttrRef} {a : Attr}
    (hr : interpretAttr tableMgr symbolTable synAttr n = .ok a n') : Refers tableMgr relList synAttr a := by
  obtain ⟨relVarName,attrName⟩ := synAttr
  cases relVarName with
  | some varName =>
    obtain ⟨varId,_,hvar,hr⟩ := bind_eq_ok.mp hr
    obtain ⟨s,hs,hname⟩ := interpretVarName_ok hvar
    have htable : tableOf symbolTable varId = s.tableId := by simp [tableOf,hs]
    cases ha : tableMgr.getAttrId (tableOf symbolTable varId) attrName with
    | none => simp [ha] at hr
    | some attrId =>
      simp only [ha] at hr
      obtain ⟨rfl,-⟩ := pure_eq_ok.mp hr
      obtain ⟨table,ht,htn,-⟩ := h.table hs
      exact ⟨h.declares_iff.mpr ⟨s,hs,htable ▸ ha⟩,table,ht,htn.symm.trans hname⟩
  | none =>
    obtain ⟨found,_,hfind,hr⟩ := bind_eq_ok.mp hr
    have hstart : symbolTable.drop 0 = symbolTable := rfl
    have hall := findVariable_ok hstart (by simp [FoundBelow]) hfind
    cases found with
    | none => simp at hr
    | some b =>
      obtain ⟨rfl,-⟩ := pure_eq_ok.mp hr
      refine ⟨h.declares_iff.mpr hall.1,fun c hc => ?_⟩
      obtain ⟨s,hs,hca⟩ := h.declares_iff.mp hc
      exact hall.2 c s (List.getElem?_eq_some_iff.mp hs).1 hs hca

theorem Refers.inScope {synAttr : Parser.AttrRef} {a : Attr} (ha : Refers tableMgr relList synAttr a) :
    ∃ table, relList[a.varId]? = some table := by
  obtain ⟨⟨table,_,hv,-⟩,-⟩ := ha
  exact ⟨table,hv⟩

theorem writeExpr_ok {expr : Bool} {e e' : Expr} (h : writeExpr expr e n = .ok e' n') : e = e' := by
  obtain ⟨_,_,h1,h2⟩ := bind_eq_ok.mp h
  exact (pure_eq_ok.mp h2).1

theorem interpretAggrExpr_ok {fn : AggrFn} {attr : Option Parser.AttrRef} {e : Expr}
    (hr : interpretAggrExpr tableMgr symbolTable fn attr n = .ok e n') :
    ∃ a, e = .aggrExpr (getOutputType fn (typeOf tableMgr symbolTable a)) fn a ∧
      ∃ m m', interpretAggrAttr tableMgr symbolTable fn attr m = .ok a m' := by
  obtain ⟨_,_,-,hr⟩ := bind_eq_ok.mp hr
  obtain ⟨a,_,ha,hr⟩ := bind_eq_ok.mp hr
  exact ⟨a,(writeExpr_ok hr).symm,_,_,ha⟩

theorem interpretExpr_ok (h : Scope tableMgr relList symbolTable) {synExpr : Parser.Expr} {e : Expr}
    (hr : interpretExpr tableMgr symbolTable synExpr n = .ok e n') : Means tableMgr relList synExpr e := by
  induction synExpr generalizing n n' e with
  | constVal c =>
    obtain ⟨_,_,-,hr⟩ := bind_eq_ok.mp hr
    obtain rfl := writeExpr_ok hr
    rfl
  | attrRef attr =>
    obtain ⟨_,_,-,hr⟩ := bind_eq_ok.mp hr
    obtain ⟨a,_,ha,hr⟩ := bind_eq_ok.mp hr
    obtain rfl := writeExpr_ok hr
    have hrefers := interpretAttr_ok h ha
    obtain ⟨table,hv⟩ := hrefers.inScope
    exact ⟨hrefers,h.hasType hv⟩
  | aggrExpr fn attr =>
    obtain ⟨a,rfl,_,_,ha⟩ := interpretAggrExpr_ok hr
    refine ⟨rfl,fun hfn => ?_⟩
    simp only [interpretAggrAttr, if_neg hfn] at ha
    exact interpretAttr_ok h ha
  | countStar =>
    obtain ⟨a,rfl,-⟩ := interpretAggrExpr_ok hr
    rfl
  | arithExpr op l r ihl ihr =>
    obtain ⟨_,_,-,hr⟩ := bind_eq_ok.mp hr
    obtain ⟨l',_,hl,hr⟩ := bind_eq_ok.mp hr
    obtain ⟨r',_,hr',hr⟩ := bind_eq_ok.mp hr
    obtain ⟨_,_,-,hr⟩ := bind_eq_ok.mp hr
    obtain rfl := writeExpr_ok hr
    exact ⟨rfl,ihl hl,ihr hr'⟩

theorem interpretCondn_ok (h : Scope tableMgr relList symbolTable) {condn : Parser.Condn} {b : BExpr}
    (hr : interpretCondn tableMgr symbolTable condn n = .ok b n') : CondnMeans tableMgr relList condn b := by
  obtain ⟨l,_,hl,hr⟩ := bind_eq_ok.mp hr
  obtain ⟨r,_,hr',hr⟩ := bind_eq_ok.mp hr
  obtain ⟨_,_,-,hr⟩ := bind_eq_ok.mp hr
  obtain ⟨rfl,-⟩ := pure_eq_ok.mp hr
  exact ⟨rfl,interpretExpr_ok h hl,interpretExpr_ok h hr'⟩

/-- A list that is interpreted is interpreted element by element. -/
theorem interpretList_ok {α β : Type} {interpret : α → M β} {R : α → β → Prop} (hR : ∀ a b m m', interpret a m = .ok b m' → R a b)
    {limit : ℕ} {l done : List α} {res r : List β} (hdone : List.Forall₂ R done res)
    (hr : interpretList interpret limit l res n = .ok r n') : List.Forall₂ R (done ++ l) r := by
  induction l generalizing done res n with
  | nil =>
    obtain ⟨rfl,-⟩ := pure_eq_ok.mp hr
    rwa [List.append_nil]
  | cons a l ih =>
    obtain ⟨b,_,hb,hr⟩ := bind_eq_ok.mp hr
    obtain ⟨_,_,-,hr⟩ := bind_eq_ok.mp hr
    have hnext : List.Forall₂ R (done ++ [a]) (res ++ [b]) := List.rel_append hdone (.cons (hR a b _ _ hb) .nil)
    simpa using ih hnext hr

theorem interpretPartnWin_ok (h : Scope tableMgr relList symbolTable) {partnAttrs : List Parser.AttrRef} {numRows : ℤ}
    {win : WindowSpec} (hr : interpretPartnWin tableMgr symbolTable partnAttrs numRows n = .ok win n') :
    ∃ attrs, win = .partition (toUnsigned numRows) attrs ∧ List.Forall₂ (Refers tableMgr relList) partnAttrs attrs := by
  obtain ⟨attrs,_,ha,hr⟩ := bind_eq_ok.mp hr
  obtain ⟨rfl,-⟩ := pure_eq_ok.mp hr
  refine ⟨attrs,rfl,?_⟩
  have hall := interpretList_ok (R := Refers tableMgr relList) (fun _ _ _ _ hb => interpretAttr_ok h hb) .nil ha
  exact hall

def WindowMeans (tableMgr : TableManager) (relList : List Parser.RelVar) (table : Parser.RelVar) (win : WindowSpec) : Prop :=
  ∀ partnAttrs numRows, table.windowSpec = some (.partition partnAttrs numRows) → ∃ attrs,
    win = .partition (toUnsigned numRows) attrs ∧ List.Forall₂ (Refers tableMgr relList) partnAttrs attrs

theorem interpretTableWin_ok (h : Scope tableMgr relList symbolTable) {tableId : ℕ} {table : Parser.RelVar}
    {semWin win : WindowSpec} (hr : interpretTableWin tableMgr symbolTable tableId table.windowSpec semWin n = .ok win n') :
    WindowMeans tableMgr relList table win := by
  intro partnAttrs numRows hwin
  rw [hwin] at hr
  unfold interpretTableWin at hr
  split at hr
  · exact interpretPartnWin_ok h hr
  · simp at hr

/-- The entries of the FROM clause are interpreted in turn, and entry `t` has variable id `t`. -/
theorem interpretFromClause_ok (h : Scope tableMgr relList symbolTable) {rest before : List Parser.RelVar} {semWin : WindowSpec}
    {done tables : List (ℕ × WindowSpec)} (hrel : relList = before ++ rest) (hvars : done.map Prod.fst = List.range before.length)
    (hwins : List.Forall₂ (fun table entry => WindowMeans tableMgr relList table entry.2) before done)
    (hr : interpretFromClause tableMgr symbolTable rest semWin done n = .ok tables n') :
    tables.map Prod.fst = List.range relList.length ∧
      List.Forall₂ (fun table entry => WindowMeans tableMgr relList table entry.2) relList tables := by
  induction rest generalizing before semWin done n with
  | nil =>
    obtain ⟨rfl,-⟩ := pure_eq_ok.mp hr
    rw [List.append_nil] at hrel
    subst hrel
    exact ⟨hvars,hwins⟩
  | cons table rest ih =>
    obtain ⟨varId,_,hvar,hr⟩ := bind_eq_ok.mp hr
    obtain ⟨win,_,hwin,hr⟩ := bind_eq_ok.mp hr
    obtain ⟨_,_,-,hr⟩ := bind_eq_ok.mp hr
    have hentry : relList[before.length]? = some table := by simp [hrel]
    obtain ⟨s,hs,hname,-⟩ := h.entry hentry
    obtain ⟨s',hs',hname'⟩ := interpretVarName_ok hvar
    obtain rfl : varId = before.length := h.eq_of_name hs' hs (hname'.trans hname.symm)
    have hrel' : relList = (before ++ [table]) ++ rest := by simp [hrel]
    have hvars' : (done ++ [(before.length,win)]).map Prod.fst = List.range (before ++ [table]).length := by
      rw [List.map_append, hvars, List.length_append, List.length_singleton, List.range_succ]
      rfl
    exact ih hrel' hvars' (List.rel_append hwins (.cons (interpretTableWin_ok h hwin) .nil)) hr

/-- The attributes that `*` stands for are those of the FROM clause, under their types. -/
theorem interpretStarInSelect_ok (h : Scope tableMgr relList symbolTable) {vars : List ℕ} (hvars : ∀ v ∈ vars, v < relList.length)
    {projExprs : List Expr} (hr : interpretStarInSelect tableMgr symbolTable vars n = .ok projExprs n') :
    ∀ e ∈ projExprs, ∃ type a, e = .attrRef type a ∧ HasType tableMgr relList a type := by
  let Typed (projExprs : List Expr) : Prop := ∀ e ∈ projExprs, ∃ type a, e = .attrRef type a ∧ HasType tableMgr relList a type
  have hstar : Ensures (interpretStarInSelect tableMgr symbolTable vars) Typed := by
    refine ensures_foldlM (I := Typed) (fun projExprs a ha hall => ?_) (by simp [Typed])
    obtain ⟨v,hv,ha⟩ := List.mem_flatMap.mp ha
    obtain ⟨i,-,rfl⟩ := List.mem_map.mp ha
    intro m projExprs' m' hr
    obtain ⟨_,_,-,hr⟩ := bind_eq_ok.mp hr
    obtain ⟨_,_,-,hr⟩ := bind_eq_ok.mp hr
    obtain ⟨e,_,he,hr⟩ := bind_eq_ok.mp hr
    obtain rfl := writeExpr_ok he
    obtain ⟨rfl,-⟩ := pure_eq_ok.mp hr
    intro e he
    rcases List.mem_append.mp he with he | he
    · exact hall e he
    · obtain rfl := List.mem_singleton.mp he
      exact ⟨_,_,rfl,h.hasType (a := ⟨v,i⟩) (List.getElem?_eq_getElem (hvars v hv))⟩
  exact hstar _ _ _ hr

end Names

variable {tableMgr : TableManager} {block : Parser.SfwBlock} {reltostrOp : Option Parser.RelToStrOp} {query : Query} {n n' : ℕ}

theorem interpretSfwBlock_ok (hr : interpretSfwBlock tableMgr block reltostrOp n = .ok query n') :
    NamesResolved tableMgr block query := by
  obtain ⟨symbolTable,_,hnames,hr⟩ := bind_eq_ok.mp hr
  obtain ⟨tables,_,hfrom,hr⟩ := bind_eq_ok.mp hr
  obtain ⟨preds,_,hwhere,hr⟩ := bind_eq_ok.mp hr
  obtain ⟨gbyAttrs,_,hgroup,hr⟩ := bind_eq_ok.mp hr
  obtain ⟨projExprs,_,hselect,hr⟩ := bind_eq_ok.mp hr
  obtain ⟨rfl,-⟩ := pure_eq_ok.mp hr
  have hempty : Scope tableMgr [] [] := ⟨.nil,List.nodup_nil⟩
  have h : Scope tableMgr block.relList symbolTable := getSFWReferencedTables_ok hempty hnames
  have hrel : block.relList = [] ++ block.relList := rfl
  obtain ⟨hvars,hwins⟩ := interpretFromClause_ok h hrel rfl .nil hfrom
  constructor
  · exact h.names_relList
  · exact hvars
  · intro t table ht
    obtain ⟨s,hs,-,hid⟩ := h.entry ht
    simp [tableOf,hs,hid]
  · intro hterms
    unfold interpretSelectClause at hselect
    rw [if_neg (by simpa using hterms)] at hselect
    have hall := interpretList_ok (R := Means tableMgr block.relList) (fun _ _ _ _ hb => interpretExpr_ok h hb) .nil hselect
    exact hall
  · intro hterms
    unfold interpretSelectClause at hselect
    rw [if_pos (by simp [hterms])] at hselect
    apply interpretStarInSelect_ok h ?_ hselect
    intro v hv
    rw [hvars] at hv
    exact List.mem_range.mp hv
  · have hall := interpretList_ok (R := CondnMeans tableMgr block.relList) (fun _ _ _ _ hb => interpretCondn_ok h hb) .nil hwhere
    exact hall
  · have hall := interpretList_ok (R := Refers tableMgr block.relList) (fun _ _ _ _ hb => interpretAttr_ok h hb) .nil hgroup
    exact hall
  · intro t table partnAttrs numRows ht hwin
    obtain ⟨hlt,rfl⟩ := List.getElem?_eq_some_iff.mp ht
    have hlt' : t < tables.length := hwins.length_eq ▸ hlt
    obtain ⟨attrs,hattrs,hall⟩ := hwins.get hlt hlt' partnAttrs numRows hwin
    have hget : tables[t]? = some tables[t] := List.getElem?_eq_getElem hlt'
    exact ⟨attrs,by simpa [hget] using hattrs,hall⟩

section Unresolved
variable {relList : List Parser.RelVar}

theorem Refers.not_unresolved {synAttr : Parser.AttrRef} {a : Attr} (h : Refers tableMgr relList synAttr a) :
    ¬ Unresolved tableMgr relList synAttr := by
  obtain ⟨relVarName,attrName⟩ := synAttr
  obtain ⟨hdecl,hmeans⟩ := h
  cases relVarName with
  | some varName =>
    obtain ⟨table,hv,hname⟩ := hmeans
    exact fun hun => hun a table hv hname hdecl
  | none =>
    rintro (hnone | ⟨b,c,hne,hb,hc⟩)
    · exact hnone a hdecl
    · apply hne
      rw [hmeans b hb, hmeans c hc]

theorem Means.refers {synExpr : Parser.Expr} {e : Expr} (h : Means tableMgr relList synExpr e) :
    ∀ r ∈ synExpr.refs, ∃ a, Refers tableMgr relList r a := by
  induction synExpr generalizing e with
  | constVal c => simp [Parser.Expr.refs]
  | attrRef attr =>
    cases e with
    | attrRef type a =>
      intro r hr
      obtain rfl := List.mem_singleton.mp hr
      exact ⟨a,h.1⟩
    | _ => exact h.elim
  | aggrExpr fn attr =>
    cases e with
    | aggrExpr type fn' a =>
      intro r hr
      by_cases hfn : fn = .count
      · simp [Parser.Expr.refs,hfn] at hr
      · obtain rfl : r = attr := by simpa [Parser.Expr.refs,hfn] using hr
        exact ⟨a,h.2 hfn⟩
    | _ => exact h.elim
  | countStar => simp [Parser.Expr.refs]
  | arithExpr op l r ihl ihr =>
    cases e with
    | compExpr type op' l' r' =>
      intro x hx
      rcases List.mem_append.mp hx with hx | hx
      · exact ihl h.2.1 x hx
      · exact ihr h.2.2 x hx
    | _ => exact h.elim

theorem forall₂_left {α β : Type} {R : α → β → Prop} {l : List α} {l' : List β} (h : List.Forall₂ R l l') :
    ∀ a ∈ l, ∃ b, R a b := by
  induction h with
  | nil => simp
  | cons hab _ ih => exact List.forall_mem_cons.mpr ⟨⟨_,hab⟩,ih⟩

/-- Every reference of a query that is accepted has a meaning. -/
theorem NamesResolved.refers (h : NamesResolved tableMgr block query) :
    ∀ r ∈ block.refs, ∃ a, Refers tableMgr block.relList r a := by
  intro r hr
  simp only [Parser.SfwBlock.refs, List.mem_append, List.mem_flatMap] at hr
  rcases hr with ((⟨e,he,hr⟩ | ⟨c,hc,hr⟩) | hr) | ⟨table,ht,hr⟩
  · obtain ⟨e',hm⟩ := forall₂_left (h.select (List.ne_nil_of_mem he)) e he
    exact hm.refers r hr
  · obtain ⟨b,-,hl,hr'⟩ := forall₂_left h.preds c hc
    rcases List.mem_append.mp hr with hr | hr
    · exact hl.refers r hr
    · exact hr'.refers r hr
  · exact forall₂_left h.groupBy r hr
  · obtain ⟨t,ht⟩ := List.getElem?_of_mem ht
    cases hw : table.windowSpec with
    | none => simp [hw] at hr
    | some win =>
      cases win with
      | partition partnAttrs numRows =>
        obtain ⟨attrs,-,hall⟩ := h.partitionBy t table partnAttrs numRows ht hw
        exact forall₂_left hall r (by simpa [hw,Parser.WindowSpec.refs] using hr)
      | _ => simp [hw,Parser.WindowSpec.refs] at hr

end Unresolved

def IsCode (e : Failure) : Prop := ∃ rc, rc ≠ 0 ∧ e = .code rc

def exprPool : Stock ℕ ℕ := ⟨id,NUM_EXPRS⟩

/-- With room for `k` expressions, `m` takes no more than these, and it fails with a return code only. -/
def Takes {α : Type} (k : ℕ) (m : M α) : Prop := Within exprPool k m (fun _ => True) IsCode

section Takes
variable {α β : Type} {k l : ℕ}

theorem Takes.bind {m : M α} {f : α → M β} (hm : Takes k m) (hf : ∀ a, Takes l (f a)) : Takes (k + l) (m >>= f) :=
  Within.bind hm fun a _ => hf a

theorem Takes.bind₀ {m : M α} {f : α → M β} (hm : Takes 0 m) (hf : ∀ a, Takes l (f a)) : Takes l (m >>= f) :=
  Within.bind₀ hm fun a _ => hf a

theorem Takes.mono {m : M α} (hm : Takes k m) (hkl : k ≤ l) : Takes l m := Within.mono hm hkl

theorem takes_pure (a : α) : Takes 0 (pure a : M α) := Within.pure trivial

theorem takes_throw {rc : ℤ} (h : rc ≠ 0) : Takes 0 (throw (.code rc) : M α) := Within.throw ⟨rc,h,rfl⟩

theorem takes_failIf {c : Prop} [Decidable c] {rc : ℤ} (h : rc ≠ 0) : Takes 0 (failIf c (.code rc) : M PUnit) :=
  (Within.failIf fun _ => ⟨rc,h,rfl⟩).weaken (fun _ _ => trivial) fun _ h => h

/-- With room in the pool there is an expression to write to. -/
theorem takes_newExpr {f : Bool → M α} (hf : Takes k (f true)) : Takes (k + 1) (newExpr >>= f) := by
  rw [Nat.add_comm]
  have hnew : Within exprPool 1 newExpr (· = true) IsCode := by
    intro n hn
    have hne : n ≠ NUM_EXPRS := by
      have hlt : n + 1 ≤ NUM_EXPRS := hn
      omega
    have hroom : newExpr n = .ok true (n + 1) := by
      simp [newExpr,Bind.bind,EStateM.bind,get_apply,set_apply,hne,Pure.pure,EStateM.pure]
    rw [hroom]
    exact ⟨rfl,le_rfl⟩
  exact hnew.bind fun b hb => hb ▸ hf

theorem takes_writeExpr (e : Expr) : Takes 0 (writeExpr true e) := takes_pure e

variable (tableMgr : TableManager) (symbolTable : SymbolTable)

theorem takes_findVariable (attrName : List Char) (v : ℕ) (rest : SymbolTable) (found : Option Attr) :
    Takes 0 (findVariable tableMgr attrName v rest found) := by
  induction rest generalizing v found with
  | nil => exact takes_pure found
  | cons s rest ih =>
    unfold findVariable
    cases tableMgr.getAttrId s.tableId attrName with
    | none => exact ih (v + 1) found
    | some a =>
      dsimp only
      split
      · exact takes_throw (by decide)
      · exact ih (v + 1) _

theorem takes_interpretVarName (varName : List Char) : Takes 0 (interpretVarName symbolTable varName) := by
  unfold interpretVarName
  split
  · exact takes_pure _
  · exact takes_throw (by decide)

theorem takes_interpretAttr (synAttr : Parser.AttrRef) : Takes 0 (interpretAttr tableMgr symbolTable synAttr) := by
  unfold interpretAttr
  split
  · apply (takes_interpretVarName symbolTable _).bind₀
    intro varId
    split
    · exact takes_throw (by decide)
    · exact takes_pure _
  · apply (takes_findVariable tableMgr _ _ _ _).bind₀
    intro found
    split
    · exact takes_throw (by decide)
    · exact takes_pure _

theorem takes_interpretAggrExpr (fn : AggrFn) (attr : Option Parser.AttrRef) :
    Takes 1 (interpretAggrExpr tableMgr symbolTable fn attr) := by
  apply takes_newExpr
  have hattr : Takes 0 (interpretAggrAttr tableMgr symbolTable fn attr) := by
    unfold interpretAggrAttr
    split
    · split
      · exact takes_pure _
      · exact takes_interpretAttr tableMgr symbolTable _
    · exact takes_pure _
  exact hattr.bind fun a => takes_writeExpr _

theorem takes_interpretExpr (synExpr : Parser.Expr) : Takes synExpr.nodes (interpretExpr tableMgr symbolTable synExpr) := by
  induction synExpr with
  | constVal c => exact takes_newExpr (takes_writeExpr _)
  | attrRef attr => exact takes_newExpr ((takes_interpretAttr tableMgr symbolTable attr).bind fun a => takes_writeExpr _)
  | aggrExpr fn attr => exact (takes_interpretAggrExpr tableMgr symbolTable fn _).mono (by simp [Parser.Expr.nodes])
  | countStar => exact takes_interpretAggrExpr tableMgr symbolTable .count none
  | arithExpr op l r ihl ihr =>
    have hrest : Takes (l.nodes + (r.nodes + (0 + 0))) (do
        let leftSemExpr ← interpretExpr tableMgr symbolTable l
        let rightSemExpr ← interpretExpr tableMgr symbolTable r
        failIf (leftSemExpr.type ≠ rightSemExpr.type) (.code TYPE_ERR)
        writeExpr true (.compExpr leftSemExpr.type op leftSemExpr rightSemExpr)) :=
      ihl.bind fun l' => ihr.bind fun r' => (takes_failIf (by decide)).bind fun _ => takes_writeExpr _
    exact (takes_newExpr hrest).mono (by simp only [Parser.Expr.nodes]; omega)

theorem takes_interpretCondn (condn : Parser.Condn) : Takes condn.nodes (interpretCondn tableMgr symbolTable condn) := by
  have hcond := (takes_interpretExpr tableMgr symbolTable condn.leftExpr).bind fun l =>
    (takes_interpretExpr tableMgr symbolTable condn.rightExpr).bind fun r =>
      (takes_failIf (c := l.type ≠ r.type) (show TYPE_ERR ≠ 0 by decide)).bind fun _ => takes_pure (BExpr.mk condn.op l r)
  exact hcond.mono (by simp only [Parser.Condn.nodes]; omega)

theorem takes_interpretList {interpret : α → M β} {nodes : α → ℕ} (h : ∀ a, Takes (nodes a) (interpret a)) (limit : ℕ)
    (l : List α) (done : List β) : Takes (Parser.listNodes nodes l) (interpretList interpret limit l done) := by
  induction l generalizing done with
  | nil => exact takes_pure done
  | cons a l ih =>
    have hrest := (h a).bind fun b => (takes_failIf (c := done.length ≥ limit) (show (-1 : ℤ) ≠ 0 by decide)).bind₀ fun _ => ih (done ++ [b])
    apply hrest.mono
    simp only [Parser.listNodes]
    omega

theorem takes_interpretAttrs (limit : ℕ) (l : List Parser.AttrRef) :
    Takes (2 * l.length) (interpretList (interpretAttr tableMgr symbolTable) limit l []) := by
  rw [← Parser.listNodes_one]
  exact takes_interpretList (fun r => (takes_interpretAttr tableMgr symbolTable r).mono (Nat.zero_le 1)) limit l []

theorem takes_addSymbolTableEntry (tableName varName : List Char) :
    Takes 0 (addSymbolTableEntry tableMgr symbolTable tableName varName) := by
  unfold addSymbolTableEntry
  split
  · exact takes_throw (by decide)
  split
  · exact takes_throw (by decide)
  split
  · exact takes_throw (by decide)
  · exact takes_pure _

theorem takes_getSFWReferencedTables (relList : List Parser.RelVar) (symbolTable : SymbolTable) :
    Takes 0 (getSFWReferencedTables tableMgr relList symbolTable) := by
  induction relList generalizing symbolTable with
  | nil => exact takes_pure symbolTable
  | cons table relList ih => exact (takes_addSymbolTableEntry tableMgr symbolTable _ _).bind₀ fun _ => ih _

theorem takes_interpretTableWin (tableId : ℕ) (synWin : Option Parser.WindowSpec) (semWin : WindowSpec) :
    Takes ((synWin.map Parser.WindowSpec.nodes).getD 0) (interpretTableWin tableMgr symbolTable tableId synWin semWin) := by
  unfold interpretTableWin
  split
  · cases synWin with
    | none => exact takes_pure _
    | some win =>
      cases win with
      | partition attrs numRows =>
        have hwin := (takes_interpretAttrs tableMgr symbolTable MAX_PARTN_ATTRS attrs).bind
          fun attrs' => takes_pure (WindowSpec.partition (toUnsigned numRows) attrs')
        apply hwin.mono
        simp only [Option.map_some, Option.getD_some, Parser.WindowSpec.nodes]
        omega
      | _ => exact (takes_pure _).mono (Nat.zero_le _)
  split
  · exact (takes_throw (by decide)).mono (Nat.zero_le _)
  · exact (takes_pure _).mono (Nat.zero_le _)

theorem takes_interpretFromClause (relList : List Parser.RelVar) (semWin : WindowSpec) (done : List (ℕ × WindowSpec)) :
    Takes (Parser.listNodes Parser.RelVar.nodes relList) (interpretFromClause tableMgr symbolTable relList semWin done) := by
  induction relList generalizing semWin done with
  | nil => exact takes_pure done
  | cons table relList ih =>
    have hrest := (takes_interpretVarName symbolTable (variableName table)).bind₀ fun varId =>
      (takes_interpretTableWin tableMgr symbolTable (tableOf symbolTable varId) table.windowSpec semWin).bind fun semWin =>
        (takes_failIf (c := done.length = MAX_TABLES) (show (-1 : ℤ) ≠ 0 by decide)).bind₀ fun _ => ih semWin (done ++ [(varId,semWin)])
    apply hrest.mono
    simp only [Parser.listNodes, Parser.RelVar.nodes]
    omega

/-- `*` takes no more than the select clause may have. -/
theorem takes_interpretStarInSelect (fromClauseTables : List ℕ) :
    Takes MAX_PROJ (interpretStarInSelect tableMgr symbolTable fromClauseTables) := by
  unfold interpretStarInSelect
  generalize fromClauseTables.flatMap _ = attrs
  suffices h : ∀ projExprs : List Expr, Takes (MAX_PROJ - projExprs.length) (attrs.foldlM (fun projExprs a => do
      failIf (projExprs.length ≥ MAX_PROJ) (.code (-1))
      let expr ← newExpr
      let expr ← writeExpr expr (.attrRef (typeOf tableMgr symbolTable a) a)
      return projExprs ++ [expr]) projExprs) from h []
  induction attrs with
  | nil => exact fun projExprs => (takes_pure projExprs).mono (Nat.zero_le _)
  | cons a attrs ih =>
    intro projExprs
    rw [List.foldlM_cons]
    by_cases hfull : projExprs.length ≥ MAX_PROJ
    · have hfail : (failIf (projExprs.length ≥ MAX_PROJ) (Failure.code (-1)) : M PUnit) = throw (.code (-1)) := if_pos hfull
      rw [hfail]
      exact (takes_throw (by decide)).mono (Nat.zero_le _)
    · have hgo : (failIf (projExprs.length ≥ MAX_PROJ) (Failure.code (-1)) : M PUnit) = pure ⟨⟩ := if_neg hfull
      simp only [hgo, pure_bind, bind_assoc]
      apply Takes.mono (k := MAX_PROJ - (projExprs.length + 1) + 1)
      · apply takes_newExpr
        apply (takes_writeExpr _).bind₀
        intro expr
        have hrest := ih (projExprs ++ [expr])
        rwa [List.length_append, List.length_singleton] at hrest
      · omega

theorem takes_interpretSelectClause (selectClause : Parser.SelectClause) (fromClauseTables : List ℕ) :
    Takes (Parser.listNodes Parser.Expr.nodes selectClause.projTermList + MAX_PROJ)
      (interpretSelectClause tableMgr symbolTable selectClause fromClauseTables) := by
  unfold interpretSelectClause
  split
  · exact (takes_interpretStarInSelect tableMgr symbolTable fromClauseTables).mono (Nat.le_add_left _ _)
  · exact (takes_interpretList (takes_interpretExpr tableMgr symbolTable) MAX_PROJ selectClause.projTermList []).mono (Nat.le_add_right _ _)

theorem takes_interpretSfwBlock (block : Parser.SfwBlock) (reltostrOp : Option Parser.RelToStrOp) :
    Takes (block.nodes + MAX_PROJ) (interpretSfwBlock tableMgr block reltostrOp) := by
  apply Takes.mono (k := Parser.listNodes Parser.RelVar.nodes block.relList + (Parser.listNodes Parser.Condn.nodes block.conditionList +
    (2 * block.groupList.length + (Parser.listNodes Parser.Expr.nodes block.selectClause.projTermList + MAX_PROJ + 0))))
  · unfold interpretSfwBlock
    apply (takes_getSFWReferencedTables tableMgr block.relList []).bind₀
    intro symbolTable
    apply (takes_interpretFromClause tableMgr symbolTable block.relList .unbounded []).bind
    intro tables
    apply (takes_interpretList (takes_interpretCondn tableMgr symbolTable) MAX_PRED block.conditionList []).bind
    intro preds
    apply (takes_interpretAttrs tableMgr symbolTable MAX_GROUP_ATTRS block.groupList).bind
    intro gbyAttrs
    apply (takes_interpretSelectClause tableMgr symbolTable block.selectClause (tables.map Prod.fst)).bind
    intro projExprs
    apply takes_pure
  · simp only [Parser.SfwBlock.nodes]
    omega

end Takes

/-- The query that the interpreter makes of a select-from-where block has every name
replaced by what it refers to; a block with a name that refers to nothing is refused. -/
theorem interpretQuery_names (parseTree : Parser.ParseTree) (hq : parseTree.query = .sfwBlock block reltostrOp) (n : ℕ) :
    (∀ query n', interpretQuery tableMgr parseTree.query n = .ok query n' → NamesResolved tableMgr block query) ∧
      ((∃ table ∈ block.relList, tableMgr.getTableId table.relName = none) ∨ ¬ (block.relList.map variableName).Nodup ∨
          (∃ r ∈ block.refs, Unresolved tableMgr block.relList r) →
        ∃ rc n', rc ≠ 0 ∧ interpretQuery tableMgr parseTree.query n = .error (.code rc) n') := by
  have hfits := parseTree.fits
  rw [hq] at hfits ⊢
  have hrun : interpretQuery tableMgr (.sfwBlock block reltostrOp) n = interpretSfwBlock tableMgr block reltostrOp 0 := rfl
  rw [hrun]
  constructor
  · exact fun query n' h => interpretSfwBlock_ok h
  intro hbad
  have htakes : Within exprPool (block.nodes + MAX_PROJ) (interpretSfwBlock tableMgr block reltostrOp) _ IsCode :=
    takes_interpretSfwBlock tableMgr block reltostrOp
  have hroom : exprPool.used 0 + (block.nodes + MAX_PROJ) ≤ exprPool.size := by
    simp only [Parser.ContQuery.nodes, Parser.MAXNODE] at hfits
    simp only [exprPool, id, MAX_PROJ, NUM_EXPRS]
    omega
  cases h : interpretSfwBlock tableMgr block reltostrOp 0 with
  | error e n' =>
    obtain ⟨rc,hrc,rfl⟩ := htakes.of_error hroom h
    exact ⟨rc,n',hrc,rfl⟩
  | ok query n' =>
    have hok := interpretSfwBlock_ok h
    rcases hbad with ⟨table,ht,hnone⟩ | hdup | ⟨r,hr,hun⟩
    · obtain ⟨t,ht⟩ := List.getElem?_of_mem ht
      have hsome := hok.tables t table ht
      simp [hnone] at hsome
    · exact absurd hok.names hdup
    · obtain ⟨a,ha⟩ := hok.refers r hr
      exact absurd hun ha.not_unresolved

def trades : TableManager :=
  ⟨[⟨['T'],true,[⟨['x'],.int,4⟩,⟨['y'],.float,4⟩]⟩,⟨['S'],false,[⟨['x'],.int,4⟩,⟨['z'],.char,9⟩]⟩]⟩

/-- A stream joined with itself under the names `A` and `S`, where `S` is also a table. -/
def selfJoin (projTerm : Parser.Expr) : Parser.SfwBlock where
  selectClause := ⟨false,[projTerm]⟩
  relList := [⟨['T'],some ['A'],some (.partition [⟨some ['A'],['x']⟩] 5)⟩,⟨['T'],some ['S'],none⟩]
  conditionList := [⟨.eq,.attrRef ⟨some ['A'],['y']⟩,.attrRef ⟨some ['S'],['y']⟩⟩]
  groupList := []

/-- `S.x` is the first attribute of the second entry, and `x` alone has no meaning. -/
theorem selfJoin_names :
    (∃ query n', interpretQuery trades (.sfwBlock (selfJoin (.attrRef ⟨some ['S'],['x']⟩)) none) 0 = .ok query n' ∧
      query.projExprs = [.attrRef .int ⟨1,0⟩] ∧ NamesResolved trades (selfJoin (.attrRef ⟨some ['S'],['x']⟩)) query) ∧
    ∃ rc n', rc ≠ 0 ∧ interpretQuery trades (.sfwBlock (selfJoin (.attrRef ⟨none,['x']⟩)) none) 0 = .error (.code rc) n' := by
  constructor
  · obtain ⟨query,n',h⟩ := exists_of_returns
      (r := interpretQuery trades (.sfwBlock (selfJoin (.attrRef ⟨some ['S'],['x']⟩)) none) 0) (by decide)
    refine ⟨query,n',h,?_,?_⟩
    · cases h
      rfl
    · exact (interpretQuery_names ⟨_,by decide,by decide⟩ rfl 0).1 query n' h
  · apply (interpretQuery_names ⟨.sfwBlock (selfJoin (.attrRef ⟨none,['x']⟩)) none,by decide,by decide⟩ rfl 0).2
    refine .inr (.inr ⟨⟨none,['x']⟩,by decide,.inr ⟨⟨0,0⟩,⟨1,0⟩,by decide,?_,?_⟩⟩)
    · exact ⟨_,0,rfl,by decide,by decide⟩
    · exact ⟨_,0,rfl,by decide,by decide⟩

end AqsiosCoordinator.Semantic
