import AqsiosCoordinator.Parser.CommandReader

/-! # The commands of the grammar

Every command that the grammar derives has a form that its tree shows: aggregations are terms of
the SELECT list of their own, lists are not empty. A command of this form is read back from its tokens.
-/
namespace AqsiosCoordinator.Parser
open Common Foundation Metadata

def Expr.Plain : Expr → Prop
  | .constVal (.byte _) => False
  | .constVal _ | .attrRef _ => True
  | .aggrExpr _ _ | .countStar => False
  | .arithExpr _ leftExpr rightExpr => leftExpr.Plain ∧ rightExpr.Plain

/-- A term of the SELECT list: an aggregation or an expression without any. -/
def Expr.IsTerm : Expr → Prop
  | .aggrExpr _ _ | .countStar => True
  | e => e.Plain

def Condn.Plain (c : Condn) : Prop := c.leftExpr.Plain ∧ c.rightExpr.Plain

def WindowSpec.Grammatical : WindowSpec → Prop
  | .partition attrs _ => attrs ≠ []
  | _ => True

structure SfwBlock.Grammatical (block : SfwBlock) : Prop where
  terms : ∀ e ∈ block.selectClause.projTermList, e.IsTerm
  tables : block.relList ≠ []
  windows : ∀ r ∈ block.relList, ∀ w ∈ r.windowSpec, w.Grammatical
  conditions : ∀ c ∈ block.conditionList, c.Plain

def ContQuery.Grammatical : ContQuery → Prop
  | .sfwBlock block _ => block.Grammatical
  | .binOp _ _ => True

/-- Only the length of a string is written. -/
def specLength (a : AttrSpec) : Prop := if a.type = .char then a.len < 2 ^ 32 else a.len = 0

def Command.Grammatical : Command → Prop
  | .inl spec => spec.attrList ≠ [] ∧ ∀ a ∈ spec.attrList, specLength a
  | .inr q => q.Grammatical

def AttrRef.tokens (a : AttrRef) : List Terminal :=
  match a.relVarName with
  | some relVarName => [.T_STRING relVarName,.char '.',.T_STRING a.attrName]
  | none => [.T_STRING a.attrName]

def constTokens : Const → List Terminal
  | .int ival => [.T_INT ival]
  | .float fval => [.T_REAL fval]
  | .char sval => [.T_QSTRING sval]
  | .byte _ => []

def opToken : ArithOp → Terminal
  | .add => .char '+'
  | .sub => .char '-'
  | .mul => .char '*'
  | .div => .char '/'

def aggrWord : AggrFn → ReservedWord
  | .count => .RW_COUNT
  | .sum => .RW_SUM
  | .avg => .RW_AVG
  | .max => .RW_MAX
  | .min => .RW_MIN

def parenthesized (ts : List Terminal) : List Terminal := .char '(' :: (ts ++ [.char ')'])

def Expr.tokens : Expr → List Terminal
  | .constVal c => constTokens c
  | .attrRef attr => attr.tokens
  | .aggrExpr fn attr => .reserved (aggrWord fn) :: parenthesized attr.tokens
  | .countStar => .reserved .RW_COUNT :: parenthesized [.char '*']
  | .arithExpr op leftExpr rightExpr => parenthesized leftExpr.tokens ++ opToken op :: parenthesized rightExpr.tokens

def compToken : CompOp → Terminal
  | .lt => .T_LT
  | .le => .T_LE
  | .gt => .T_GT
  | .ge => .T_GE
  | .eq => .T_EQ
  | .ne => .T_NE

def Condn.tokens (c : Condn) : List Terminal := c.leftExpr.tokens ++ compToken c.op :: c.rightExpr.tokens

def TimeSpec.tokens (t : TimeSpec) : List Terminal :=
  .T_INT t.len :: match t.unit with
    | .notimeunit => []
    | .second => [.reserved .RW_SECOND]
    | .minute => [.reserved .RW_MINUTE]
    | .hour => [.reserved .RW_HOUR]
    | .day => [.reserved .RW_DAY]

def WindowSpec.tokens : WindowSpec → List Terminal
  | .row numRows => [.reserved .RW_ROWS,.T_INT numRows]
  | .range timeSpec => .reserved .RW_RANGE :: timeSpec.tokens
  | .now => [.reserved .RW_NOW]
  | .unbounded => [.reserved .RW_RANGE,.reserved .RW_UNBOUNDED]
  | .partition attrs numRows =>
    .reserved .RW_PARTITION :: .reserved .RW_BY :: (separate (.char ',') AttrRef.tokens attrs ++ [.reserved .RW_ROWS,.T_INT numRows])

def RelVar.tokens (r : RelVar) : List Terminal :=
  .T_STRING r.relName :: match r.windowSpec, r.varName with
    | some w, none => .char '[' :: (w.tokens ++ [.char ']'])
    | some w, some varName => .char '[' :: (w.tokens ++ [.char ']',.reserved .RW_AS,.T_STRING varName])
    | none, none => []
    | none, some varName => [.reserved .RW_AS,.T_STRING varName]

def SelectClause.tokens (c : SelectClause) : List Terminal :=
  .reserved .RW_SELECT :: ((if c.bDistinct then [.reserved .RW_DISTINCT] else []) ++
    if c.projTermList = [] then [.char '*'] else separate (.char ',') Expr.tokens c.projTermList)

def SfwBlock.tokens (b : SfwBlock) : List Terminal :=
  b.selectClause.tokens ++ (.reserved .RW_FROM :: separate (.char ',') RelVar.tokens b.relList ++
    ((if b.conditionList = [] then [] else .reserved .RW_WHERE :: separate (.reserved .RW_AND) Condn.tokens b.conditionList) ++
      if b.groupList = [] then [] else .reserved .RW_GROUP :: .reserved .RW_BY :: separate (.char ',') AttrRef.tokens b.groupList))

def BinOp.tokens : BinOp → List Terminal
  | .union left right => [.T_STRING left,.reserved .RW_UNION,.T_STRING right]
  | .except left right => [.T_STRING left,.reserved .RW_EXCEPT,.T_STRING right]

def xstreamWord : RelToStrOp → ReservedWord
  | .istream => .RW_ISTREAM
  | .dstream => .RW_DSTREAM
  | .rstream => .RW_RSTREAM

def xstreamTokens (op : Option RelToStrOp) (ts : List Terminal) : List Terminal :=
  match op with
  | none => ts
  | some op => .reserved (xstreamWord op) :: parenthesized ts

def ContQuery.tokens : ContQuery → List Terminal
  | .sfwBlock block op => xstreamTokens op block.tokens
  | .binOp b op => xstreamTokens op b.tokens

def specTokens (a : AttrSpec) : List Terminal :=
  .T_STRING a.attrName :: match a.type with
    | .int => [.reserved .RW_INTEGER]
    | .float => [.reserved .RW_FLOAT]
    | .byte => [.reserved .RW_BYTE]
    | .char => [.reserved .RW_CHAR,.char '(',.T_INT a.len,.char ')']

def Command.tokens : Command → List Terminal
  | .inl spec => .reserved .RW_REGISTER :: .reserved (if spec.isStream then .RW_STREAM else .RW_RELATION) :: .T_STRING spec.name ::
      (parenthesized (separate (.char ',') specTokens spec.attrList) ++ [.char ';'])
  | .inr q => q.tokens ++ [.char ';']

namespace Grammar
variable {ts : List Terminal}

theorem ArithExpr.plain {e : Expr} (h : ArithExpr ts e) : e.Plain := by
  refine Operators.Derives.forall_nodes h (fun ts e hatom => ?_) (fun op a b ha hb => ⟨ha,hb⟩)
  cases hatom with
  | attr _ => trivial
  | constValue h => cases h <;> trivial

theorem Projterm.isTerm {e : Expr} (h : Projterm ts e) : e.IsTerm := by
  cases h with
  | arith h =>
    have hplain := h.plain
    cases e <;> first | exact hplain | trivial
  | aggr h => cases h <;> trivial

theorem Condition.plain {c : Condn} (h : Condition ts c) : c.Plain := by
  cases h with
  | mk hl _ hr => exact ⟨hl.plain,hr.plain⟩

theorem RelationVariable.windowSpec_grammatical {r : RelVar} (h : RelationVariable ts r) : ∀ w ∈ r.windowSpec, w.Grammatical := by
  have hw {ts : List Terminal} {w w' : WindowSpec} (h : WindowType ts w) (hmem : w' ∈ some w) : w'.Grammatical := by
    obtain rfl := Option.some.inj hmem
    cases h with
    | partition _ hattrs => exact hattrs.ne_nil
    | _ => trivial
  cases h with
  | window _ h => exact fun w hmem => hw h hmem
  | windowAs _ _ h => exact fun w hmem => hw h hmem
  | plain _ => simp
  | as _ _ => simp

theorem SfwBlockN.grammatical {block : SfwBlock} (h : SfwBlockN ts block) : block.Grammatical := by
  cases h with
  | mk hselect hfrom hwhere _ =>
    cases hfrom with
    | mk hfrom =>
      constructor
      · have hterms {ts : List Terminal} {l : List Expr} (h : NonMtProjtermList ts l) : ∀ e ∈ l, e.IsTerm :=
          h.forall_mem fun _ _ he => he.isTerm
        cases hselect with
        | distinct h => exact hterms h
        | all h => exact hterms h
        | distinctStar => simp
        | star => simp
      · exact hfrom.ne_nil
      · exact hfrom.forall_mem fun _ _ hr => hr.windowSpec_grammatical
      · cases hwhere with
        | mk h => exact h.forall_mem fun _ _ hc => hc.plain
        | nothing => simp

theorem Query.grammatical {q : ContQuery} (h : Query ts q) : q.Grammatical := by
  cases h with
  | sfw h => exact h.grammatical
  | xstreamSfw _ h => exact h.grammatical
  | binOp _ => trivial
  | xstreamBinOp _ _ => trivial

theorem AttrSpecN.length {a : AttrSpec} (h : AttrSpecN ts a) : specLength a := by
  cases h with
  | char attrName ival =>
    have hlt : (ival % 2 ^ 32).toNat < 2 ^ 32 := by omega
    exact hlt
  | _ => rfl

theorem RegisterTable.grammatical {spec : TableSpec} (h : RegisterTable ts spec) : Command.Grammatical (.inl spec) := by
  have hattrs {ts : List Terminal} {l : List AttrSpec} (h : NonMtAttrspecList ts l) : l ≠ [] ∧ ∀ a ∈ l, specLength a :=
    ⟨h.ne_nil,h.forall_mem fun _ _ ha => ha.length⟩
  cases h with
  | stream _ h => exact hattrs h
  | relation _ h => exact hattrs h

theorem Start.grammatical {c : Command} (h : Start ts c) : c.Grammatical := by
  cases h with
  | query h => exact h.grammatical
  | registerTable h => exact h.grammatical

/-- No query is read without a table. -/
theorem Start.hasTable {q : ContQuery} (h : Start ts (.inr q)) : q.hasTable = true := by
  have hgrammatical : q.Grammatical := h.grammatical
  cases q with
  | sfwBlock block op => simpa [ContQuery.hasTable] using hgrammatical.tables
  | binOp op r2s => rfl

theorem attr_tokens (a : AttrRef) : Attr a.tokens a := by
  obtain ⟨_ | relVarName,attrName⟩ := a
  · exact .plain attrName
  · exact .qualified relVarName attrName

theorem arithOp_opToken (op : ArithOp) : arithOp (opToken op) = some op := by cases op <;> rfl

theorem aggrFn_aggrWord (fn : AggrFn) : aggrFn (aggrWord fn) = some fn := by cases fn <;> rfl

theorem compOp_compToken (op : CompOp) : compOp (compToken op) = some op := by cases op <;> rfl

theorem arithExpr_tokens {e : Expr} (h : e.Plain) : ArithExpr e.tokens e := by
  induction e with
  | constVal c =>
    cases c with
    | int ival => exact .atom (.constValue (.int ival))
    | float fval => exact .atom (.constValue (.real fval))
    | char sval => exact .atom (.constValue (.qstring sval))
    | byte bval => cases h
  | attrRef attr => exact .atom (.attr (attr_tokens attr))
  | aggrExpr fn attr => cases h
  | countStar => cases h
  | arithExpr op l r ihl ihr => exact .binary (arithOp_opToken op) (Nat.zero_le _) (.paren (ihl h.1)) (.paren (ihr h.2))

theorem projterm_tokens {e : Expr} (h : e.IsTerm) : Projterm e.tokens e := by
  cases e with
  | aggrExpr fn attr => exact .aggr (.fn (aggrFn_aggrWord fn) (attr_tokens attr))
  | countStar => exact .aggr .countStar
  | constVal c => exact .arith (arithExpr_tokens h)
  | attrRef attr => exact .arith (arithExpr_tokens h)
  | arithExpr op l r => exact .arith (arithExpr_tokens h)

theorem condition_tokens {c : Condn} (h : c.Plain) : Condition c.tokens c :=
  .mk (arithExpr_tokens h.1) (compOp_compToken c.op) (arithExpr_tokens h.2)

theorem timeSpec_tokens (t : TimeSpec) : TimeSpecN t.tokens t := by
  obtain ⟨unit,len⟩ := t
  cases unit with
  | notimeunit => exact .noUnit len
  | second | minute | hour | day => exact .unit len rfl

theorem windowType_tokens {w : WindowSpec} (h : w.Grammatical) : WindowType w.tokens w := by
  cases w with
  | row numRows => exact .rows numRows
  | range timeSpec => exact .range (timeSpec_tokens timeSpec)
  | now => exact .now
  | unbounded => exact .unbounded
  | partition attrs numRows => exact .partition numRows (.of_forall h fun a _ => attr_tokens a)

theorem relationVariable_tokens {r : RelVar} (h : ∀ w ∈ r.windowSpec, w.Grammatical) : RelationVariable r.tokens r := by
  obtain ⟨relName,_ | varName,_ | w⟩ := r
  · exact .plain relName
  · exact .window relName (windowType_tokens (h w rfl))
  · exact .as relName varName
  · exact .windowAs relName varName (windowType_tokens (h w rfl))

theorem selectClause_tokens {c : SelectClause} (h : ∀ e ∈ c.projTermList, e.IsTerm) : SelectClauseN c.tokens c := by
  obtain ⟨bDistinct,terms⟩ := c
  by_cases hnil : terms = []
  · subst hnil
    cases bDistinct with
    | true => exact .distinctStar
    | false => exact .star
  · have hterms : NonMtProjtermList (separate (.char ',') Expr.tokens terms) terms := .of_forall hnil fun e he => projterm_tokens (h e he)
    unfold SelectClause.tokens
    rw [if_neg hnil]
    cases bDistinct with
    | true => exact .distinct hterms
    | false => exact .all hterms

theorem sfwBlock_tokens {block : SfwBlock} (h : block.Grammatical) : SfwBlockN block.tokens block := by
  obtain ⟨selectClause,relList,conditionList,groupList⟩ := block
  refine .mk (selectClause_tokens h.terms) (.mk (.of_forall h.tables fun r hr => relationVariable_tokens (h.windows r hr))) ?_ ?_
  · split
    · rename_i hnil
      obtain rfl : conditionList = [] := hnil
      exact .nothing
    · rename_i hne
      exact .mk (.of_forall hne fun c hc => condition_tokens (h.conditions c hc))
  · split
    · rename_i hnil
      obtain rfl : groupList = [] := hnil
      exact .nothing
    · rename_i hne
      exact .mk (.of_forall hne fun a _ => attr_tokens a)

theorem xstreamClause_xstreamWord (op : RelToStrOp) : xstreamClause (xstreamWord op) = some op := by cases op <;> rfl

theorem query_tokens {q : ContQuery} (h : q.Grammatical) : Query q.tokens q := by
  cases q with
  | sfwBlock block op =>
    cases op with
    | none => exact .sfw (sfwBlock_tokens h)
    | some op => exact .xstreamSfw (xstreamClause_xstreamWord op) (sfwBlock_tokens h)
  | binOp binOp op =>
    have hbinOp : BinaryOp binOp.tokens binOp := by
      cases binOp with
      | union left right => exact .union left right
      | except left right => exact .except left right
    cases op with
    | none => exact .binOp hbinOp
    | some op => exact .xstreamBinOp (xstreamClause_xstreamWord op) hbinOp

theorem attrSpec_tokens {a : AttrSpec} (h : specLength a) : AttrSpecN (specTokens a) a := by
  obtain ⟨attrName,type,len⟩ := a
  cases type with
  | int =>
    obtain rfl : len = 0 := h
    exact .int attrName
  | float =>
    obtain rfl : len = 0 := h
    exact .float attrName
  | byte =>
    obtain rfl : len = 0 := h
    exact .byte attrName
  | char =>
    have hlt : len < 2 ^ 32 := h
    have hlen : ((len : ℤ) % 2 ^ 32).toNat = len := by omega
    have hspec := AttrSpecN.char attrName len
    rwa [hlen] at hspec

theorem start_tokens {c : Command} (h : c.Grammatical) : Start c.tokens c := by
  cases c with
  | inr q => exact .query (query_tokens h)
  | inl spec =>
    obtain ⟨name,isStream,attrList⟩ := spec
    have hattrs : NonMtAttrspecList (separate (.char ',') specTokens attrList) attrList :=
      .of_forall h.1 fun a ha => attrSpec_tokens (h.2 a ha)
    cases isStream with
    | true => exact .registerTable (.stream name hattrs)
    | false => exact .registerTable (.relation name hattrs)

/-- The commands of the grammar are those of this form, and they are those that are read from their tokens
with whatever comes behind them. -/
theorem readStart_tokens (c : Command) : ((∃ used, Start used c) ↔ c.Grammatical) ∧
    (c.Grammatical ↔ ∀ rest, readStart (c.tokens ++ rest) = some (c,rest)) := by
  have hread (h : c.Grammatical) (rest : List Terminal) : readStart (c.tokens ++ rest) = some (c,rest) :=
    readStart_recognizes.complete _ c rest (start_tokens h) trivial
  constructor
  · constructor
    · rintro ⟨used,h⟩
      exact h.grammatical
    · exact fun h => ⟨c.tokens,start_tokens h⟩
  · constructor
    · exact hread
    · intro h
      obtain ⟨used,-,hD⟩ := readStart_recognizes.sound _ c [] (h [])
      exact hD.grammatical

end Grammar
end AqsiosCoordinator.Parser
