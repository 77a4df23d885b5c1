import AqsiosCoordinator.Foundation.Outcome
import AqsiosCoordinator.Metadata.TableManager
import AqsiosCoordinator.Parser.Nodes
import AqsiosCoordinator.Querygen.SemanticQuery
import Mathlib.Algebra.Ring.Int.Defs

/-! # The semantic interpreter

Names are resolved with a symbol table that has one entry for each entry of the FROM
clause; the variable id is the position in this table. Expressions come from a pool.
-/
namespace AqsiosCoordinator.Semantic
open Common Foundation Metadata

def MAX_SYMBOLS : ℕ := MAX_TABLES
def NUM_EXPRS : ℕ := 1000
def MAX_PARTN_ATTRS : ℕ := 10
def MAX_PRED : ℕ := 10
def MAX_PROJ : ℕ := 50
def MAX_GROUP_ATTRS : ℕ := 10

def UNKNOWN_TABLE_ERR : ℤ := 104
def UNKNOWN_VAR_ERR : ℤ := 105
def AMBIGUOUS_ATTR_ERR : ℤ := 106
def UNKNOWN_ATTR_ERR : ℤ := 107
def WINDOW_OVER_REL_ERR : ℤ := 108
def TYPE_ERR : ℤ := 109
def SCHEMA_MISMATCH_ERR : ℤ := 110
def AMBIGUOUS_TABLE_ERR : ℤ := 111

structure SymbolTableEntry where
  varName : List Char
  tableId : ℕ

abbrev SymbolTable := List SymbolTableEntry

/-- The interpreter over the number of expressions that it has taken from the pool. -/
abbrev M := EStateM Failure ℕ

def Expr.type : Expr → DataType
  | .constVal c => c.type
  | .attrRef type _ => type
  | .aggrExpr type _ _ => type
  | .compExpr type _ _ _ => type

/-- Whether the pool has an expression left; without one the result is a null pointer. -/
def newExpr : M Bool := do
  let numExprs ← get
  if numExprs = NUM_EXPRS then return false
  set (numExprs + 1)
  return true

def writeExpr (expr : Bool) (e : Expr) : M Expr := do
  failIf (expr = false) .nullDeref
  return e

section Names
variable (tableMgr : TableManager)

def addSymbolTableEntry (symbolTable : SymbolTable) (tableName varName : List Char) : M SymbolTable :=
  match tableMgr.getTableId tableName with
  | none => throw (.code UNKNOWN_TABLE_ERR)
  | some tableId =>
    if symbolTable.any (fun s => s.varName == varName) then throw (.code AMBIGUOUS_TABLE_ERR)
    else if symbolTable.length = MAX_SYMBOLS then throw (.code (-1))
    else pure (symbolTable ++ [⟨varName,tableId⟩])

def variableName (table : Parser.RelVar) : List Char := table.varName.getD table.relName

def getSFWReferencedTables : List Parser.RelVar → SymbolTable → M SymbolTable
  | [], symbolTable => pure symbolTable
  | table :: tableList, symbolTable => do
    let symbolTable ← addSymbolTableEntry tableMgr symbolTable table.relName (variableName table)
    getSFWReferencedTables tableList symbolTable

def getBinOpReferencedTables : Parser.BinOp → M (ℕ × ℕ)
  | .union leftTable rightTable | .except leftTable rightTable =>
    match tableMgr.getTableId leftTable with
    | none => throw (.code UNKNOWN_TABLE_ERR)
    | some leftTableId =>
      match tableMgr.getTableId rightTable with
      | none => throw (.code UNKNOWN_TABLE_ERR)
      | some rightTableId => pure (leftTableId,rightTableId)

variable (symbolTable : SymbolTable)

def interpretVarName (varName : List Char) : M ℕ :=
  match symbolTable.findIdx? (fun s => s.varName == varName) with
  | some varId => pure varId
  | none => throw (.code UNKNOWN_VAR_ERR)

def tableOf (varId : ℕ) : ℕ := ((symbolTable[varId]?).map SymbolTableEntry.tableId).getD 0

/-- The loop over the symbol table from variable `v` on, for an attribute without a variable name. -/
def findVariable (attrName : List Char) : ℕ → SymbolTable → Option Attr → M (Option Attr)
  | _, [], found => pure found
  | v, s :: rest, found =>
    match tableMgr.getAttrId s.tableId attrName with
    | none => findVariable attrName (v + 1) rest found
    | some a => if found.isSome then throw (.code AMBIGUOUS_ATTR_ERR) else findVariable attrName (v + 1) rest (some ⟨v,a⟩)

def interpretAttr (synAttr : Parser.AttrRef) : M Attr :=
  match synAttr.relVarName with
  | some varName => do
    let varId ← interpretVarName symbolTable varName
    match tableMgr.getAttrId (tableOf symbolTable varId) synAttr.attrName with
    | none => throw (.code UNKNOWN_ATTR_ERR)
    | some attrId => return ⟨varId,attrId⟩
  | none => do
    match ← findVariable tableMgr synAttr.attrName 0 symbolTable none with
    | none => throw (.code UNKNOWN_ATTR_ERR)
    | some semAttr => return semAttr

def typeOf (a : Attr) : DataType := tableMgr.getAttrType (tableOf symbolTable a.varId) a.attrId

/-- The attribute of an aggregation. A count has the first attribute of the first table. -/
def interpretAggrAttr (fn : AggrFn) (attr : Option Parser.AttrRef) : M Attr :=
  match attr with
  | some synAttr => if fn = .count then pure ⟨0,0⟩ else interpretAttr tableMgr symbolTable synAttr
  | none => pure ⟨0,0⟩

def interpretAggrExpr (fn : AggrFn) (attr : Option Parser.AttrRef) : M Expr := do
  let semExpr ← newExpr
  let semAttr ← interpretAggrAttr tableMgr symbolTable fn attr
  writeExpr semExpr (.aggrExpr (getOutputType fn (typeOf tableMgr symbolTable semAttr)) fn semAttr)

def interpretExpr : Parser.Expr → M Expr
  | .arithExpr op leftExpr rightExpr => do
    let semExpr ← newExpr
    let leftSemExpr ← interpretExpr leftExpr
    let rightSemExpr ← interpretExpr rightExpr
    failIf (leftSemExpr.type ≠ rightSemExpr.type) (.code TYPE_ERR)
    writeExpr semExpr (.compExpr leftSemExpr.type op leftSemExpr rightSemExpr)
  | .aggrExpr fn attr => interpretAggrExpr tableMgr symbolTable fn (some attr)
  | .countStar => interpretAggrExpr tableMgr symbolTable .count none
  | .constVal c => do
    let semExpr ← newExpr
    writeExpr semExpr (.constVal c)
  | .attrRef attr => do
    let semExpr ← newExpr
    let semAttr ← interpretAttr tableMgr symbolTable attr
    writeExpr semExpr (.attrRef (typeOf tableMgr symbolTable semAttr) semAttr)

def interpretCondn (condn : Parser.Condn) : M BExpr := do
  let leftSemExpr ← interpretExpr tableMgr symbolTable condn.leftExpr
  let rightSemExpr ← interpretExpr tableMgr symbolTable condn.rightExpr
  failIf (leftSemExpr.type ≠ rightSemExpr.type) (.code TYPE_ERR)
  return ⟨condn.op,leftSemExpr,rightSemExpr⟩

/-- An `int` that is stored as an `unsigned int`. -/
def toUnsigned (n : ℤ) : ℕ := (n % 2 ^ 32).toNat

/-- The seconds of a time specification; the products are taken modulo `2 ^ 32`. -/
def interpretRangeWin (timeSpec : Parser.TimeSpec) : WindowSpec :=
  match timeSpec.unit with
  | .notimeunit | .second => .range (toUnsigned timeSpec.len)
  | .minute => .range (toUnsigned (timeSpec.len * 60))
  | .hour => .range (toUnsigned (timeSpec.len * 60 * 60))
  | .day => .range (toUnsigned (timeSpec.len * 60 * 60 * 24))

/-- The loop of the lists of which each element is interpreted before there is found to be no room for it. -/
def interpretList {α β : Type} (interpret : α → M β) (limit : ℕ) : List α → List β → M (List β)
  | [], done => pure done
  | a :: rest, done => do
    let b ← interpret a
    failIf (done.length ≥ limit) (.code (-1))
    interpretList interpret limit rest (done ++ [b])

def interpretPartnWin (partWinAttrList : List Parser.AttrRef) (numRows : ℤ) : M WindowSpec := do
  let attrs ← interpretList (interpretAttr tableMgr symbolTable) MAX_PARTN_ATTRS partWinAttrList []
  return .partition (toUnsigned numRows) attrs

def interpretWin : Option Parser.WindowSpec → M WindowSpec
  | some (.row numRows) => pure (.row (toUnsigned numRows))
  | some (.range timeSpec) => pure (interpretRangeWin timeSpec)
  | some .now => pure .now
  | some (.partition partWinAttrList numRows) => interpretPartnWin tableMgr symbolTable partWinAttrList numRows
  | some .unbounded => pure .unbounded
  | none => pure .unbounded

/-- The window of a FROM entry; over a relation the variable `semWin` stays as it is. -/
def interpretTableWin (tableId : ℕ) (synWin : Option Parser.WindowSpec) (semWin : WindowSpec) : M WindowSpec :=
  if tableMgr.isStream tableId then interpretWin tableMgr symbolTable synWin
  else if synWin.isSome then throw (.code WINDOW_OVER_REL_ERR)
  else pure semWin

/-- The entries of the FROM clause: variable and window of each. -/
def interpretFromClause : List Parser.RelVar → WindowSpec → List (ℕ × WindowSpec) → M (List (ℕ × WindowSpec))
  | [], _, done => pure done
  | relExpr :: fromClause, semWin, done => do
    let varId ← interpretVarName symbolTable (variableName relExpr)
    let semWin ← interpretTableWin tableMgr symbolTable (tableOf symbolTable varId) relExpr.windowSpec semWin
    failIf (done.length = MAX_TABLES) (.code (-1))
    interpretFromClause fromClause semWin (done ++ [(varId,semWin)])

def interpretWhereClause (whereClause : List Parser.Condn) : M (List BExpr) :=
  interpretList (interpretCondn tableMgr symbolTable) MAX_PRED whereClause []

def interpretGroupByClause (gbyClause : List Parser.AttrRef) : M (List Attr) :=
  interpretList (interpretAttr tableMgr symbolTable) MAX_GROUP_ATTRS gbyClause []

/-- The attributes of the tables of the FROM clause, one table after the other. -/
def interpretStarInSelect (fromClauseTables : List ℕ) : M (List Expr) :=
  let attrs := fromClauseTables.flatMap fun varId =>
    (List.range (tableMgr.getNumAttrs (tableOf symbolTable varId))).map (Attr.mk varId)
  attrs.foldlM (fun projExprs a => do
    failIf (projExprs.length ≥ MAX_PROJ) (.code (-1))
    let expr ← newExpr
    let expr ← writeExpr expr (.attrRef (typeOf tableMgr symbolTable a) a)
    return projExprs ++ [expr]) []

def interpretSelectClause (selectClause : Parser.SelectClause) (fromClauseTables : List ℕ) : M (List Expr) :=
  if selectClause.projTermList.isEmpty then interpretStarInSelect tableMgr symbolTable fromClauseTables
  else interpretList (interpretExpr tableMgr symbolTable) MAX_PROJ selectClause.projTermList []

/-- Strings of different lengths are compatible. -/
def schemaCompatible (table1 table2 : ℕ) : Bool :=
  (tableMgr.attrs table1).map Attribute.attrType == (tableMgr.attrs table2).map Attribute.attrType

end Names

def interpretR2SOp : Option Parser.RelToStrOp → Option R2SOp
  | some .istream => some .istream
  | some .dstream => some .dstream
  | some .rstream => some .rstream
  | none => none

variable (tableMgr : TableManager)

/-- A query of a select-from-where block. Its binary operator is not set. -/
def interpretSfwBlock (block : Parser.SfwBlock) (reltostrOp : Option Parser.RelToStrOp) : M Query := do
  let symbolTable ← getSFWReferencedTables tableMgr block.relList []
  -- the window of a relation is what the variable has held before, and it is not read
  let tables ← interpretFromClause tableMgr symbolTable block.relList .unbounded []
  let preds ← interpretWhereClause tableMgr symbolTable block.conditionList
  let gbyAttrs ← interpretGroupByClause tableMgr symbolTable block.groupList
  let fromClauseTables := tables.map Prod.fst
  let projExprs ← interpretSelectClause tableMgr symbolTable block.selectClause fromClauseTables
  return {
    kind := .sfwQuery
    refTables := tableOf symbolTable
    fromClauseTables := fromClauseTables
    winSpec := fun t => ((tables[t]?).map Prod.snd).getD .unbounded
    preds := preds
    projExprs := projExprs
    bDistinct := block.selectClause.bDistinct
    gbyAttrs := gbyAttrs
    r2sOp := interpretR2SOp reltostrOp
    binOp := .union }

/-- A query of a binary operator. What belongs to a select-from-where block is not set. -/
def interpretBinOp (op : Parser.BinOp) (reltostrOp : Option Parser.RelToStrOp) : M Query := do
  let tables ← getBinOpReferencedTables tableMgr op
  failIf (schemaCompatible tableMgr tables.1 tables.2 = false) (.code SCHEMA_MISMATCH_ERR)
  return {
    kind := .binaryOp
    refTables := fun varId => if varId = 0 then tables.1 else tables.2
    fromClauseTables := []
    winSpec := fun _ => .unbounded
    preds := []
    projExprs := []
    bDistinct := false
    gbyAttrs := []
    r2sOp := interpretR2SOp reltostrOp
    binOp := match op with
      | .union _ _ => .union
      | .except _ _ => .except }

def interpretQuery (parseTree : Parser.ContQuery) : M Query := do
  set 0
  match parseTree with
  | .sfwBlock block reltostrOp => interpretSfwBlock tableMgr block reltostrOp
  | .binOp op reltostrOp => interpretBinOp tableMgr op reltostrOp

end AqsiosCoordinator.Semantic
