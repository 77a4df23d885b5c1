import AqsiosCoordinator.Foundation.OperatorPrecedence
import AqsiosCoordinator.Metadata.TableRegistration
import AqsiosCoordinator.Parser.Nodes
import AqsiosCoordinator.Parser.ScanHelp

/-! # The grammar of commands

The productions of the grammar with what they make of the values of their tokens. `+` and `-`
associate to the left, and so do `*` and `/`, which bind more tightly.
-/
namespace AqsiosCoordinator.Parser
open Common Foundation Metadata

inductive Terminal where
  | reserved (word : ReservedWord)
  | T_EQ
  | T_LT
  | T_LE
  | T_GT
  | T_GE
  | T_NE
  | NOTOKEN
  | T_INT (ival : ℤ)
  | T_REAL (rval : ℚ)
  | T_STRING (sval : List Char)
  | T_QSTRING (sval : List Char)
  | char (c : Char)
  deriving DecidableEq

abbrev Command := TableSpec ⊕ ContQuery

namespace Grammar

inductive Attr : List Terminal → AttrRef → Prop where
  | qualified (relVarName attrName : List Char) : Attr [.T_STRING relVarName,.char '.',.T_STRING attrName] ⟨some relVarName,attrName⟩
  | plain (attrName : List Char) : Attr [.T_STRING attrName] ⟨none,attrName⟩

inductive ConstValue : List Terminal → Expr → Prop where
  | qstring (sval : List Char) : ConstValue [.T_QSTRING sval] (.constVal (.char sval))
  | int (ival : ℤ) : ConstValue [.T_INT ival] (.constVal (.int ival))
  | real (rval : ℚ) : ConstValue [.T_REAL rval] (.constVal (.float rval))

/-- The productions of `arith_expr` without operators and parentheses. -/
inductive ArithAtom : List Terminal → Expr → Prop where
  | attr {ts : List Terminal} {a : AttrRef} : Attr ts a → ArithAtom ts (.attrRef a)
  | constValue {ts : List Terminal} {e : Expr} : ConstValue ts e → ArithAtom ts e

def arithOp : Terminal → Option ArithOp
  | .char '+' => some .add
  | .char '-' => some .sub
  | .char '*' => some .mul
  | .char '/' => some .div
  | _ => none

def precedence : ArithOp → ℕ
  | .add | .sub => 0
  | .mul | .div => 1

def arithOperators : Operators Terminal Expr ArithOp where
  op := arithOp
  prec := precedence
  node := .arithExpr
  opening := .char '('
  closing := .char ')'

def ArithExpr : List Terminal → Expr → Prop := arithOperators.Derives ArithAtom 0

def aggrFn : ReservedWord → Option AggrFn
  | .RW_COUNT => some .count
  | .RW_SUM => some .sum
  | .RW_AVG => some .avg
  | .RW_MAX => some .max
  | .RW_MIN => some .min
  | _ => none

inductive AggrExpr : List Terminal → Expr → Prop where
  | fn {word : ReservedWord} {fn : AggrFn} {ts : List Terminal} {a : AttrRef} : aggrFn word = some fn → Attr ts a →
      AggrExpr (.reserved word :: .char '(' :: (ts ++ [.char ')'])) (.aggrExpr fn a)
  | countStar : AggrExpr [.reserved .RW_COUNT,.char '(',.char '*',.char ')'] .countStar

inductive Projterm : List Terminal → Expr → Prop where
  | arith {ts : List Terminal} {e : Expr} : ArithExpr ts e → Projterm ts e
  | aggr {ts : List Terminal} {e : Expr} : AggrExpr ts e → Projterm ts e

def compOp : Terminal → Option CompOp
  | .T_LT => some .lt
  | .T_LE => some .le
  | .T_GT => some .gt
  | .T_GE => some .ge
  | .T_EQ => some .eq
  | .T_NE => some .ne
  | _ => none

inductive Condition : List Terminal → Condn → Prop where
  | mk {ts us : List Terminal} {t : Terminal} {op : CompOp} {left right : Expr} : ArithExpr ts left → compOp t = some op →
      ArithExpr us right → Condition (ts ++ t :: us) ⟨op,left,right⟩

def NonMtProjtermList : List Terminal → List Expr → Prop := Separated (.char ',') Projterm
def NonMtAttrList : List Terminal → List AttrRef → Prop := Separated (.char ',') Attr
def NonMtCondList : List Terminal → List Condn → Prop := Separated (.reserved .RW_AND) Condition

def timeUnit : ReservedWord → Option TimeUnit
  | .RW_SECOND => some .second
  | .RW_MINUTE => some .minute
  | .RW_HOUR => some .hour
  | .RW_DAY => some .day
  | _ => none

inductive TimeSpecN : List Terminal → TimeSpec → Prop where
  | noUnit (ival : ℤ) : TimeSpecN [.T_INT ival] ⟨.notimeunit,ival⟩
  | unit {word : ReservedWord} {u : TimeUnit} (ival : ℤ) : timeUnit word = some u → TimeSpecN [.T_INT ival,.reserved word] ⟨u,ival⟩

inductive WindowType : List Terminal → WindowSpec → Prop where
  | range {ts : List Terminal} {timeSpec : TimeSpec} : TimeSpecN ts timeSpec → WindowType (.reserved .RW_RANGE :: ts) (.range timeSpec)
  | now : WindowType [.reserved .RW_NOW] .now
  | rows (ival : ℤ) : WindowType [.reserved .RW_ROWS,.T_INT ival] (.row ival)
  | unbounded : WindowType [.reserved .RW_RANGE,.reserved .RW_UNBOUNDED] .unbounded
  | partition {ts : List Terminal} {attrs : List AttrRef} (ival : ℤ) : NonMtAttrList ts attrs →
      WindowType (.reserved .RW_PARTITION :: .reserved .RW_BY :: (ts ++ [.reserved .RW_ROWS,.T_INT ival])) (.partition attrs ival)

inductive RelationVariable : List Terminal → RelVar → Prop where
  | window {ts : List Terminal} {w : WindowSpec} (relName : List Char) : WindowType ts w →
      RelationVariable (.T_STRING relName :: .char '[' :: (ts ++ [.char ']'])) ⟨relName,none,some w⟩
  | windowAs {ts : List Terminal} {w : WindowSpec} (relName varName : List Char) : WindowType ts w →
      RelationVariable (.T_STRING relName :: .char '[' :: (ts ++ [.char ']',.reserved .RW_AS,.T_STRING varName])) ⟨relName,some varName,some w⟩
  | plain (relName : List Char) : RelationVariable [.T_STRING relName] ⟨relName,none,none⟩
  | as (relName varName : List Char) : RelationVariable [.T_STRING relName,.reserved .RW_AS,.T_STRING varName] ⟨relName,some varName,none⟩

def NonMtRelationList : List Terminal → List RelVar → Prop := Separated (.char ',') RelationVariable

inductive SelectClauseN : List Terminal → SelectClause → Prop where
  | distinct {ts : List Terminal} {terms : List Expr} : NonMtProjtermList ts terms →
      SelectClauseN (.reserved .RW_SELECT :: .reserved .RW_DISTINCT :: ts) ⟨true,terms⟩
  | all {ts : List Terminal} {terms : List Expr} : NonMtProjtermList ts terms → SelectClauseN (.reserved .RW_SELECT :: ts) ⟨false,terms⟩
  | distinctStar : SelectClauseN [.reserved .RW_SELECT,.reserved .RW_DISTINCT,.char '*'] ⟨true,[]⟩
  | star : SelectClauseN [.reserved .RW_SELECT,.char '*'] ⟨false,[]⟩

inductive FromClause : List Terminal → List RelVar → Prop where
  | mk {ts : List Terminal} {l : List RelVar} : NonMtRelationList ts l → FromClause (.reserved .RW_FROM :: ts) l

inductive OptWhereClause : List Terminal → List Condn → Prop where
  | mk {ts : List Terminal} {l : List Condn} : NonMtCondList ts l → OptWhereClause (.reserved .RW_WHERE :: ts) l
  | nothing : OptWhereClause [] []

inductive OptGroupByClause : List Terminal → List AttrRef → Prop where
  | mk {ts : List Terminal} {l : List AttrRef} : NonMtAttrList ts l → OptGroupByClause (.reserved .RW_GROUP :: .reserved .RW_BY :: ts) l
  | nothing : OptGroupByClause [] []

inductive SfwBlockN : List Terminal → SfwBlock → Prop where
  | mk {ts us vs ws : List Terminal} {selectClause : SelectClause} {relList : List RelVar} {conditionList : List Condn}
      {groupList : List AttrRef} : SelectClauseN ts selectClause → FromClause us relList → OptWhereClause vs conditionList →
      OptGroupByClause ws groupList → SfwBlockN (ts ++ (us ++ (vs ++ ws))) ⟨selectClause,relList,conditionList,groupList⟩

inductive BinaryOp : List Terminal → BinOp → Prop where
  | union (left right : List Char) : BinaryOp [.T_STRING left,.reserved .RW_UNION,.T_STRING right] (.union left right)
  | except (left right : List Char) : BinaryOp [.T_STRING left,.reserved .RW_EXCEPT,.T_STRING right] (.except left right)

def xstreamClause : ReservedWord → Option RelToStrOp
  | .RW_ISTREAM => some .istream
  | .RW_DSTREAM => some .dstream
  | .RW_RSTREAM => some .rstream
  | _ => none

inductive Query : List Terminal → ContQuery → Prop where
  | sfw {ts : List Terminal} {block : SfwBlock} : SfwBlockN ts block → Query ts (.sfwBlock block none)
  | xstreamSfw {ts : List Terminal} {block : SfwBlock} {word : ReservedWord} {op : RelToStrOp} : xstreamClause word = some op →
      SfwBlockN ts block → Query (.reserved word :: .char '(' :: (ts ++ [.char ')'])) (.sfwBlock block (some op))
  | binOp {ts : List Terminal} {op : BinOp} : BinaryOp ts op → Query ts (.binOp op none)
  | xstreamBinOp {ts : List Terminal} {binOp : BinOp} {word : ReservedWord} {op : RelToStrOp} : xstreamClause word = some op →
      BinaryOp ts binOp → Query (.reserved word :: .char '(' :: (ts ++ [.char ')'])) (.binOp binOp (some op))

inductive AttrSpecN : List Terminal → AttrSpec → Prop where
  | int (attrName : List Char) : AttrSpecN [.T_STRING attrName,.reserved .RW_INTEGER] ⟨attrName,.int,0⟩
  | float (attrName : List Char) : AttrSpecN [.T_STRING attrName,.reserved .RW_FLOAT] ⟨attrName,.float,0⟩
  | byte (attrName : List Char) : AttrSpecN [.T_STRING attrName,.reserved .RW_BYTE] ⟨attrName,.byte,0⟩
  | char (attrName : List Char) (ival : ℤ) :
      AttrSpecN [.T_STRING attrName,.reserved .RW_CHAR,.char '(',.T_INT ival,.char ')'] ⟨attrName,.char,(ival % 2 ^ 32).toNat⟩

def NonMtAttrspecList : List Terminal → List AttrSpec → Prop := Separated (.char ',') AttrSpecN

inductive RegisterTable : List Terminal → TableSpec → Prop where
  | stream {ts : List Terminal} {l : List AttrSpec} (name : List Char) : NonMtAttrspecList ts l →
      RegisterTable (.reserved .RW_REGISTER :: .reserved .RW_STREAM :: .T_STRING name :: .char '(' :: (ts ++ [.char ')'])) ⟨name,true,l⟩
  | relation {ts : List Terminal} {l : List AttrSpec} (name : List Char) : NonMtAttrspecList ts l →
      RegisterTable (.reserved .RW_REGISTER :: .reserved .RW_RELATION :: .T_STRING name :: .char '(' :: (ts ++ [.char ')'])) ⟨name,false,l⟩

inductive Start : List Terminal → Command → Prop where
  | query {ts : List Terminal} {q : ContQuery} : Query ts q → Start (ts ++ [.char ';']) (.inr q)
  | registerTable {ts : List Terminal} {spec : TableSpec} : RegisterTable ts spec → Start (ts ++ [.char ';']) (.inl spec)

end Grammar
end AqsiosCoordinator.Parser
