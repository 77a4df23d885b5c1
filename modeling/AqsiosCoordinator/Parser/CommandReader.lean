import AqsiosCoordinator.Parser.Grammar

/-! # Reading commands

The nonterminals of the grammar are recognized from left to right, by the token that comes next,
so that a command stands for one tree.
-/
namespace AqsiosCoordinator.Parser.Grammar
open Common Foundation Metadata

abbrev Taken (α : Type) := Option (α × List Terminal)

def readAttr : List Terminal → Taken AttrRef
  | .T_STRING v :: rest =>
    match rest with
    | .char '.' :: .T_STRING a :: rest => some (⟨some v,a⟩,rest)
    | rest => some (⟨none,v⟩,rest)
  | _ => none

theorem readAttr_recognizes : Recognizes readAttr Attr (NotNext [.char '.']) := by
  constructor
  · intro ts a rest h
    unfold readAttr at h
    split at h
    · split at h
      · cases h
        exact ⟨_,rfl,.qualified _ _⟩
      · cases h
        exact ⟨[.T_STRING _],rfl,.plain _⟩
    · cases h
  · intro used a rest hD hF
    cases hD with
    | qualified => rfl
    | plain v =>
      rw [List.singleton_append, readAttr]
      rintro a rest' rfl
      exact hF _ (List.mem_singleton_self _) rfl

def readConst : List Terminal → Taken Expr
  | .T_QSTRING sval :: rest => some (.constVal (.char sval),rest)
  | .T_INT ival :: rest => some (.constVal (.int ival),rest)
  | .T_REAL rval :: rest => some (.constVal (.float rval),rest)
  | _ => none

theorem readConst_recognizes : Recognizes readConst ConstValue fun _ => True := by
  constructor
  · intro ts e rest h
    unfold readConst at h
    split at h
    · cases h
      exact ⟨_,rfl,.qstring _⟩
    · cases h
      exact ⟨_,rfl,.int _⟩
    · cases h
      exact ⟨_,rfl,.real _⟩
    · cases h
  · intro used e rest hD _
    cases hD <;> rfl

def readAtom (ts : List Terminal) : Taken Expr :=
  match readAttr ts with
  | some (a,rest) => some (.attrRef a,rest)
  | none => readConst ts

theorem readAtom_recognizes : Recognizes readAtom ArithAtom (NotNext [.char '.']) := by
  constructor
  · intro ts e rest h
    unfold readAtom at h
    split at h
    · rename_i a rest' hattr
      cases h
      obtain ⟨used,hts,hD⟩ := readAttr_recognizes.sound _ _ _ hattr
      exact ⟨used,hts,.attr hD⟩
    · obtain ⟨used,hts,hD⟩ := readConst_recognizes.sound _ _ _ h
      exact ⟨used,hts,.constValue hD⟩
  · intro used e rest hD hF
    cases hD with
    | attr hD => rw [readAtom, readAttr_recognizes.complete _ _ _ hD hF]
    | constValue hD => cases hD <;> rfl

theorem arithOperators_lawful : arithOperators.Lawful ArithAtom (NotNext [.char '.']) := by
  constructor
  · intro e hD
    cases hD with
    | attr hD => cases hD
    | constValue hD => cases hD
  · intro ts e hD
    cases hD with
    | attr hD => cases hD <;> exact fun h => nomatch h
    | constValue hD => cases hD <;> exact fun h => nomatch h
  · intro t o rest ho
    rw [notNext_cons, List.mem_singleton]
    rintro rfl
    cases ho
  · intro rest
    exact notNext_cons.mpr (by decide)
  · rfl

def exprGoesOn : List Terminal := [.char '.',.char '+',.char '-',.char '*',.char '/']

theorem stops_of_notNext {rest : List Terminal} (h : NotNext exprGoesOn rest) : arithOperators.Stops 0 rest := by
  intro t o ht ho
  have hop : arithOp t = some o := ho
  unfold arithOp at hop
  split at hop
  · exact absurd ht (h _ (by decide))
  · exact absurd ht (h _ (by decide))
  · exact absurd ht (h _ (by decide))
  · exact absurd ht (h _ (by decide))
  · cases hop

def readArith : List Terminal → Taken Expr := arithOperators.expression readAtom 0

theorem readArith_recognizes : Recognizes readArith ArithExpr (NotNext exprGoesOn) :=
  (Operators.recognizes readAtom_recognizes arithOperators_lawful).mono fun _ h =>
    ⟨h.mono (by decide),stops_of_notNext h⟩

def readAggr : List Terminal → Taken Expr
  | .reserved word :: .char '(' :: rest =>
    match aggrFn word with
    | none => none
    | some fn =>
      match readAttr rest with
      | some (a,.char ')' :: rest) => some (.aggrExpr fn a,rest)
      | some _ => none
      | none =>
        match rest with
        | .char '*' :: .char ')' :: rest => if word = .RW_COUNT then some (.countStar,rest) else none
        | _ => none
  | _ => none

theorem readAggr_recognizes : Recognizes readAggr AggrExpr fun _ => True := by
  constructor
  · intro ts e rest h
    unfold readAggr at h
    split at h
    · split at h
      · cases h
      · rename_i word rest' _ fn hfn
        split at h
        · rename_i a rest'' hattr
          cases h
          obtain ⟨used,rfl,hD⟩ := readAttr_recognizes.sound _ _ _ hattr
          exact ⟨_,by simp,.fn hfn hD⟩
        · cases h
        · split at h
          · split at h
            · rename_i hword
              cases h
              subst hword
              exact ⟨_,rfl,.countStar⟩
            · cases h
          · cases h
    · cases h
  · intro used e rest hD _
    cases hD with
    | @fn word fn ts a hfn hD =>
      have hattr : readAttr (ts ++ .char ')' :: rest) = some (a,.char ')' :: rest) :=
        readAttr_recognizes.complete _ _ _ hD (notNext_cons.mpr (by decide))
      simp only [List.cons_append, List.append_assoc, List.nil_append, readAggr, hfn, hattr]
    | countStar => rfl

def readProjterm (ts : List Terminal) : Taken Expr :=
  match readArith ts with
  | some r => some r
  | none => readAggr ts

theorem readProjterm_recognizes : Recognizes readProjterm Projterm (NotNext exprGoesOn) := by
  constructor
  · intro ts e rest h
    unfold readProjterm at h
    split at h
    · rename_i r harith
      cases h
      obtain ⟨used,hts,hD⟩ := readArith_recognizes.sound _ _ _ harith
      exact ⟨used,hts,.arith hD⟩
    · obtain ⟨used,hts,hD⟩ := readAggr_recognizes.sound _ _ _ h
      exact ⟨used,hts,.aggr hD⟩
  · intro used e rest hD hF
    cases hD with
    | arith hD => rw [readProjterm, readArith_recognizes.complete _ _ _ hD hF]
    | aggr hD =>
      have hnone : readArith (used ++ rest) = none := by cases hD <;> rfl
      rw [readProjterm, hnone]
      exact readAggr_recognizes.complete _ _ _ hD trivial

def readCondition (ts : List Terminal) : Taken Condn :=
  match readArith ts with
  | some (left,t :: rest) =>
    match compOp t with
    | some op => (readArith rest).map fun r => (⟨op,left,r.1⟩,r.2)
    | none => none
  | _ => none

theorem readCondition_recognizes : Recognizes readCondition Condition (NotNext exprGoesOn) := by
  constructor
  · intro ts c rest h
    unfold readCondition at h
    split at h
    · rename_i left t rest' hleft
      split at h
      · rename_i op hop
        obtain ⟨⟨right,rest''⟩,hright,heq⟩ := Option.map_eq_some_iff.mp h
        cases heq
        obtain ⟨used,rfl,hl⟩ := readArith_recognizes.sound _ _ _ hleft
        obtain ⟨used',rfl,hr⟩ := readArith_recognizes.sound _ _ _ hright
        exact ⟨used ++ t :: used',by simp,.mk hl hop hr⟩
      · cases h
    · cases h
  · intro used c rest hD hF
    cases hD with
    | @mk ts us t op left right hl hop hr =>
      have hnext : NotNext exprGoesOn (t :: (us ++ rest)) := by
        rw [notNext_cons]
        intro hmem
        simp only [exprGoesOn, List.mem_cons, List.not_mem_nil, or_false] at hmem
        rcases hmem with rfl | rfl | rfl | rfl | rfl <;> cases hop
      rw [List.append_assoc, List.cons_append, readCondition, readArith_recognizes.complete _ _ _ hl hnext]
      simp only [hop, readArith_recognizes.complete _ _ _ hr hF, Option.map_some]

def readProjtermList : List Terminal → Taken (List Expr) := separated (.char ',') readProjterm
def readAttrList : List Terminal → Taken (List AttrRef) := separated (.char ',') readAttr
def readCondList : List Terminal → Taken (List Condn) := separated (.reserved .RW_AND) readCondition

theorem readProjtermList_recognizes : Recognizes readProjtermList NonMtProjtermList (NotNext (.char ',' :: exprGoesOn)) :=
  readProjterm_recognizes.separated_notNext (by decide)

theorem readAttrList_recognizes : Recognizes readAttrList NonMtAttrList (NotNext [.char ',',.char '.']) :=
  readAttr_recognizes.separated_notNext (by decide)

theorem readCondList_recognizes : Recognizes readCondList NonMtCondList (NotNext (.reserved .RW_AND :: exprGoesOn)) :=
  readCondition_recognizes.separated_notNext (by decide)

def timeUnits : List Terminal := [.reserved .RW_SECOND,.reserved .RW_MINUTE,.reserved .RW_HOUR,.reserved .RW_DAY]

def readTimeSpec : List Terminal → Taken TimeSpec
  | .T_INT ival :: .reserved word :: rest =>
    match timeUnit word with
    | some u => some (⟨u,ival⟩,rest)
    | none => some (⟨.notimeunit,ival⟩,.reserved word :: rest)
  | .T_INT ival :: rest => some (⟨.notimeunit,ival⟩,rest)
  | _ => none

theorem readTimeSpec_recognizes : Recognizes readTimeSpec TimeSpecN (NotNext timeUnits) := by
  constructor
  · intro ts spec rest h
    unfold readTimeSpec at h
    split at h
    · split at h
      · rename_i u hu
        cases h
        exact ⟨_,rfl,.unit _ hu⟩
      · cases h
        exact ⟨[.T_INT _],rfl,.noUnit _⟩
    · cases h
      exact ⟨[.T_INT _],rfl,.noUnit _⟩
    · cases h
  · intro used spec rest hD hF
    cases hD with
    | noUnit ival =>
      rw [List.singleton_append]
      unfold readTimeSpec
      split
      · rename_i ival' word rest' heq
        obtain ⟨heq,rfl⟩ := List.cons.inj heq
        cases heq
        have hnone : timeUnit word = none := by
          rw [notNext_cons] at hF
          cases word <;> first | rfl | exact absurd (by decide) hF
        rw [hnone]
      · rename_i heq
        cases heq
        rfl
      · rename_i hne
        exact absurd rfl (hne ival rest)
    | unit ival hu => simp only [List.cons_append, List.nil_append, readTimeSpec, hu]

def readWindowType : List Terminal → Taken WindowSpec
  | .reserved .RW_RANGE :: .reserved .RW_UNBOUNDED :: rest => some (.unbounded,rest)
  | .reserved .RW_RANGE :: rest => (readTimeSpec rest).map fun r => (.range r.1,r.2)
  | .reserved .RW_NOW :: rest => some (.now,rest)
  | .reserved .RW_ROWS :: .T_INT ival :: rest => some (.row ival,rest)
  | .reserved .RW_PARTITION :: .reserved .RW_BY :: rest =>
    match readAttrList rest with
    | some (attrs,.reserved .RW_ROWS :: .T_INT ival :: rest) => some (.partition attrs ival,rest)
    | _ => none
  | _ => none

theorem readWindowType_recognizes : Recognizes readWindowType WindowType (NotNext timeUnits) := by
  constructor
  · intro ts w rest h
    unfold readWindowType at h
    split at h
    · cases h
      exact ⟨_,rfl,.unbounded⟩
    · obtain ⟨⟨spec,rest'⟩,hspec,heq⟩ := Option.map_eq_some_iff.mp h
      cases heq
      obtain ⟨used,rfl,hD⟩ := readTimeSpec_recognizes.sound _ _ _ hspec
      exact ⟨_,rfl,.range hD⟩
    · cases h
      exact ⟨[.reserved .RW_NOW],rfl,.now⟩
    · cases h
      exact ⟨_,rfl,.rows _⟩
    · split at h
      · rename_i attrs ival rest' hattrs
        cases h
        obtain ⟨used,rfl,hD⟩ := readAttrList_recognizes.sound _ _ _ hattrs
        exact ⟨_,by simp,.partition ival hD⟩
      · cases h
    · cases h
  · intro used w rest hD hF
    cases hD with
    | range hD =>
      have hspec := readTimeSpec_recognizes.complete _ _ _ hD hF
      cases hD with
      | noUnit ival =>
        rw [List.cons_append, List.nil_append] at hspec
        simp only [List.cons_append, List.nil_append, readWindowType, hspec, Option.map_some]
      | unit ival hu =>
        simp only [List.cons_append, List.nil_append] at hspec
        simp only [List.cons_append, List.nil_append, readWindowType, hspec, Option.map_some]
    | now => rfl
    | rows ival => rfl
    | unbounded => rfl
    | @partition ts attrs ival hD =>
      have hattrs : readAttrList (ts ++ .reserved .RW_ROWS :: .T_INT ival :: rest) = some (attrs,.reserved .RW_ROWS :: .T_INT ival :: rest) :=
        readAttrList_recognizes.complete _ _ _ hD (notNext_cons.mpr (by decide))
      simp only [List.cons_append, List.append_assoc, List.nil_append, readWindowType, hattrs]

def readAs : List Terminal → Option (List Char) × List Terminal
  | .reserved .RW_AS :: .T_STRING varName :: rest => (some varName,rest)
  | rest => (none,rest)

def readRelationVariable : List Terminal → Taken RelVar
  | .T_STRING relName :: .char '[' :: rest =>
    match readWindowType rest with
    | some (w,.char ']' :: rest) => some (⟨relName,(readAs rest).1,some w⟩,(readAs rest).2)
    | _ => none
  | .T_STRING relName :: rest => some (⟨relName,(readAs rest).1,none⟩,(readAs rest).2)
  | _ => none

def relVarGoesOn : List Terminal := [.char '[',.reserved .RW_AS]

theorem readAs_none {rest : List Terminal} (h : NotNext relVarGoesOn rest) : readAs rest = (none,rest) := by
  unfold readAs
  split
  · exact absurd rfl (h (.reserved .RW_AS) (by decide))
  · rfl

theorem readAs_cases (rest : List Terminal) : readAs rest = (none,rest) ∨
    ∃ varName rest', rest = .reserved .RW_AS :: .T_STRING varName :: rest' ∧ readAs rest = (some varName,rest') := by
  unfold readAs
  split
  · exact .inr ⟨_,_,rfl,rfl⟩
  · exact .inl rfl

theorem readRelationVariable_recognizes : Recognizes readRelationVariable RelationVariable (NotNext relVarGoesOn) := by
  constructor
  · intro ts r rest h
    unfold readRelationVariable at h
    split at h
    · split at h
      · rename_i w rest' hw
        cases h
        obtain ⟨used,rfl,hD⟩ := readWindowType_recognizes.sound _ _ _ hw
        rcases readAs_cases rest' with hnone | ⟨varName,rest'',rfl,has⟩
        · rw [hnone]
          exact ⟨_,by simp,.window _ hD⟩
        · rw [has]
          exact ⟨_,by simp,.windowAs _ varName hD⟩
      · cases h
    · rename_i relName rest' _
      cases h
      rcases readAs_cases rest' with hnone | ⟨varName,rest'',rfl,has⟩
      · rw [hnone]
        exact ⟨_,rfl,.plain relName⟩
      · rw [has]
        exact ⟨_,rfl,.as relName varName⟩
    · cases h
  · intro used r rest hD hF
    cases hD with
    | @window ts w relName hD =>
      have hw : readWindowType (ts ++ .char ']' :: rest) = some (w,.char ']' :: rest) :=
        readWindowType_recognizes.complete _ _ _ hD (notNext_cons.mpr (by decide))
      simp only [List.cons_append, List.append_assoc, List.nil_append, readRelationVariable, hw, readAs_none hF]
    | @windowAs ts w relName varName hD =>
      have hw : readWindowType (ts ++ .char ']' :: .reserved .RW_AS :: .T_STRING varName :: rest) =
          some (w,.char ']' :: .reserved .RW_AS :: .T_STRING varName :: rest) :=
        readWindowType_recognizes.complete _ _ _ hD (notNext_cons.mpr (by decide))
      simp only [List.cons_append, List.append_assoc, List.nil_append, readRelationVariable, hw, readAs]
    | plain relName =>
      rw [List.singleton_append]
      unfold readRelationVariable
      split
      · rename_i heq
        cases heq
        exact absurd rfl (hF (.char '[') (by decide))
      · rename_i heq
        cases heq
        rw [readAs_none hF]
      · rename_i hne
        exact absurd rfl (hne relName rest)
    | as relName varName => rfl

def readRelationList : List Terminal → Taken (List RelVar) := separated (.char ',') readRelationVariable

theorem readRelationList_recognizes : Recognizes readRelationList NonMtRelationList (NotNext (.char ',' :: relVarGoesOn)) :=
  readRelationVariable_recognizes.separated_notNext (by decide)

def readSelectClause : List Terminal → Taken SelectClause
  | .reserved .RW_SELECT :: .reserved .RW_DISTINCT :: rest =>
    match readProjtermList rest with
    | some (terms,rest) => some (⟨true,terms⟩,rest)
    | none => if rest.head? = some (.char '*') then some (⟨true,[]⟩,rest.tail) else none
  | .reserved .RW_SELECT :: rest =>
    match readProjtermList rest with
    | some (terms,rest) => some (⟨false,terms⟩,rest)
    | none => if rest.head? = some (.char '*') then some (⟨false,[]⟩,rest.tail) else none
  | _ => none

theorem readProjtermList_distinct (rest : List Terminal) : readProjtermList (.reserved .RW_DISTINCT :: rest) = none := by
  have hterm : readProjterm (.reserved .RW_DISTINCT :: rest) = none := by
    have haggr : readAggr (.reserved .RW_DISTINCT :: rest) = none := by
      unfold readAggr
      split
      · rename_i heq
        cases heq
        rfl
      · rfl
    exact haggr
  rw [readProjtermList, separated, takeSeparated, hterm]

theorem readSelectClause_recognizes : Recognizes readSelectClause SelectClauseN (NotNext (.char ',' :: exprGoesOn)) := by
  have hstar {rest : List Terminal} (h : rest.head? = some (.char '*')) : rest = .char '*' :: rest.tail := by
    cases rest with
    | nil => cases h
    | cons t rest => rw [Option.some.inj h, List.tail_cons]
  constructor
  · intro ts c rest h
    unfold readSelectClause at h
    split at h
    · split at h
      · rename_i terms rest' hterms
        cases h
        obtain ⟨used,rfl,hD⟩ := readProjtermList_recognizes.sound _ _ _ hterms
        exact ⟨_,rfl,.distinct hD⟩
      · split at h
        · rename_i hhead
          cases h
          rw [hstar hhead]
          exact ⟨_,rfl,.distinctStar⟩
        · cases h
    · split at h
      · rename_i terms rest' hterms
        cases h
        obtain ⟨used,rfl,hD⟩ := readProjtermList_recognizes.sound _ _ _ hterms
        exact ⟨_,rfl,.all hD⟩
      · split at h
        · rename_i hhead
          cases h
          rw [hstar hhead]
          exact ⟨_,rfl,.star⟩
        · cases h
    · cases h
  · intro used c rest hD hF
    cases hD with
    | distinct hD =>
      rw [List.cons_append, List.cons_append, readSelectClause, readProjtermList_recognizes.complete _ _ _ hD hF]
    | @all ts terms hD =>
      have hterms := readProjtermList_recognizes.complete _ _ _ hD hF
      rw [List.cons_append]
      unfold readSelectClause
      split
      · rename_i rest' heq
        rw [(List.cons.inj heq).2, readProjtermList_distinct] at hterms
        cases hterms
      · rename_i heq
        rw [← (List.cons.inj heq).2, hterms]
      · rename_i hne
        exact absurd rfl (hne _)
    | distinctStar => rfl
    | star => rfl

def readFromClause : List Terminal → Taken (List RelVar)
  | .reserved .RW_FROM :: rest => readRelationList rest
  | _ => none

theorem readFromClause_recognizes : Recognizes readFromClause FromClause (NotNext (.char ',' :: relVarGoesOn)) := by
  constructor
  · intro ts l rest h
    unfold readFromClause at h
    split at h
    · obtain ⟨used,rfl,hD⟩ := readRelationList_recognizes.sound _ _ _ h
      exact ⟨_,rfl,.mk hD⟩
    · cases h
  · intro used l rest hD hF
    cases hD with
    | mk hD => exact readRelationList_recognizes.complete _ _ _ hD hF

def readOptWhereClause : List Terminal → Taken (List Condn)
  | .reserved .RW_WHERE :: rest => readCondList rest
  | rest => some ([],rest)

theorem readOptWhereClause_recognizes :
    Recognizes readOptWhereClause OptWhereClause (NotNext (.reserved .RW_WHERE :: .reserved .RW_AND :: exprGoesOn)) := by
  constructor
  · intro ts l rest h
    unfold readOptWhereClause at h
    split at h
    · obtain ⟨used,rfl,hD⟩ := readCondList_recognizes.sound _ _ _ h
      exact ⟨_,rfl,.mk hD⟩
    · cases h
      exact ⟨[],rfl,.nothing⟩
  · intro used l rest hD hF
    cases hD with
    | mk hD => exact readCondList_recognizes.complete _ _ _ hD (hF.mono (List.subset_cons_self _ _))
    | nothing =>
      rw [List.nil_append]
      unfold readOptWhereClause
      split
      · exact absurd rfl (hF (.reserved .RW_WHERE) List.mem_cons_self)
      · rfl

def readOptGroupByClause : List Terminal → Taken (List AttrRef)
  | .reserved .RW_GROUP :: rest =>
    match rest with
    | .reserved .RW_BY :: rest => readAttrList rest
    | _ => none
  | rest => some ([],rest)

theorem readOptGroupByClause_recognizes :
    Recognizes readOptGroupByClause OptGroupByClause (NotNext [.reserved .RW_GROUP,.char ',',.char '.']) := by
  constructor
  · intro ts l rest h
    unfold readOptGroupByClause at h
    split at h
    · split at h
      · obtain ⟨used,rfl,hD⟩ := readAttrList_recognizes.sound _ _ _ h
        exact ⟨_,rfl,.mk hD⟩
      · cases h
    · cases h
      exact ⟨[],rfl,.nothing⟩
  · intro used l rest hD hF
    cases hD with
    | mk hD => exact readAttrList_recognizes.complete _ _ _ hD (hF.mono (List.subset_cons_self _ _))
    | nothing =>
      rw [List.nil_append]
      unfold readOptGroupByClause
      split
      · exact absurd rfl (hF (.reserved .RW_GROUP) List.mem_cons_self)
      · rfl

def readSfwBlock (ts : List Terminal) : Option (SfwBlock × List Terminal) := do
  let (selectClause,ts) ← readSelectClause ts
  let (relList,ts) ← readFromClause ts
  let (conditionList,ts) ← readOptWhereClause ts
  let (groupList,ts) ← readOptGroupByClause ts
  return (⟨selectClause,relList,conditionList,groupList⟩,ts)

def Ended (rest : List Terminal) : Prop := ∃ rest', rest = .char ';' :: rest' ∨ rest = .char ')' :: rest'

theorem Ended.notNext {stops rest : List Terminal} (h : Ended rest) (hsemi : .char ';' ∉ stops) (hclosing : .char ')' ∉ stops) :
    NotNext stops rest := by
  rcases h with ⟨rest',rfl | rfl⟩
  · exact notNext_cons.mpr hsemi
  · exact notNext_cons.mpr hclosing

theorem readSfwBlock_recognizes : Recognizes readSfwBlock SfwBlockN Ended := by
  constructor
  · intro ts block rest h
    simp only [readSfwBlock, Option.bind_eq_bind, Option.bind_eq_some_iff, Prod.exists, Option.pure_def, Option.some.injEq, Prod.mk.injEq] at h
    obtain ⟨selectClause,ts1,h1,relList,ts2,h2,conditionList,ts3,h3,groupList,ts4,h4,rfl,rfl⟩ := h
    obtain ⟨us1,rfl,hD1⟩ := readSelectClause_recognizes.sound _ _ _ h1
    obtain ⟨us2,rfl,hD2⟩ := readFromClause_recognizes.sound _ _ _ h2
    obtain ⟨us3,rfl,hD3⟩ := readOptWhereClause_recognizes.sound _ _ _ h3
    obtain ⟨us4,rfl,hD4⟩ := readOptGroupByClause_recognizes.sound _ _ _ h4
    exact ⟨_,by simp,.mk hD1 hD2 hD3 hD4⟩
  · intro used block rest hD hF
    cases hD with
    | @mk ts us vs ws selectClause relList conditionList groupList h1 h2 h3 h4 =>
      -- what follows each clause begins with a reserved word or ends the query
      have hgroup : NotNext (.reserved .RW_WHERE :: .reserved .RW_AND :: exprGoesOn) (ws ++ rest) ∧
          NotNext (.char ',' :: relVarGoesOn) (ws ++ rest) := by
        cases h4 with
        | mk _ => exact ⟨notNext_cons.mpr (by decide),notNext_cons.mpr (by decide)⟩
        | nothing => exact ⟨hF.notNext (by decide) (by decide),hF.notNext (by decide) (by decide)⟩
      have hwhere : NotNext (.char ',' :: relVarGoesOn) (vs ++ (ws ++ rest)) := by
        cases h3 with
        | mk _ => exact notNext_cons.mpr (by decide)
        | nothing => exact hgroup.2
      have hfrom : NotNext (.char ',' :: exprGoesOn) (us ++ (vs ++ (ws ++ rest))) := by
        cases h2 with
        | mk _ => exact notNext_cons.mpr (by decide)
      rw [List.append_assoc, List.append_assoc, List.append_assoc, readSfwBlock, readSelectClause_recognizes.complete _ _ _ h1 hfrom]
      simp only [Option.bind_eq_bind, Option.bind_some, readFromClause_recognizes.complete _ _ _ h2 hwhere,
        readOptWhereClause_recognizes.complete _ _ _ h3 hgroup.1,
        readOptGroupByClause_recognizes.complete _ _ _ h4 (hF.notNext (by decide) (by decide)), Option.pure_def]

def readBinaryOp : List Terminal → Taken BinOp
  | .T_STRING left :: .reserved .RW_UNION :: .T_STRING right :: rest => some (.union left right,rest)
  | .T_STRING left :: .reserved .RW_EXCEPT :: .T_STRING right :: rest => some (.except left right,rest)
  | _ => none

theorem readBinaryOp_recognizes : Recognizes readBinaryOp BinaryOp fun _ => True := by
  constructor
  · intro ts op rest h
    unfold readBinaryOp at h
    split at h
    · cases h
      exact ⟨_,rfl,.union _ _⟩
    · cases h
      exact ⟨_,rfl,.except _ _⟩
    · cases h
  · intro used op rest hD _
    cases hD <;> rfl

def readBody (ts : List Terminal) : Taken (SfwBlock ⊕ BinOp) :=
  match readSfwBlock ts with
  | some (block,rest) => some (.inl block,rest)
  | none => (readBinaryOp ts).map fun r => (.inr r.1,r.2)

def contQuery (op : Option RelToStrOp) : SfwBlock ⊕ BinOp → ContQuery
  | .inl block => .sfwBlock block op
  | .inr binOp => .binOp binOp op

inductive Body : List Terminal → SfwBlock ⊕ BinOp → Prop where
  | sfw {ts : List Terminal} {block : SfwBlock} : SfwBlockN ts block → Body ts (.inl block)
  | binOp {ts : List Terminal} {op : BinOp} : BinaryOp ts op → Body ts (.inr op)

theorem readSfwBlock_string (s : List Char) (rest : List Terminal) : readSfwBlock (.T_STRING s :: rest) = none := rfl

theorem readBody_recognizes : Recognizes readBody Body Ended := by
  constructor
  · intro ts b rest h
    unfold readBody at h
    split at h
    · rename_i block rest' hblock
      cases h
      obtain ⟨used,hts,hD⟩ := readSfwBlock_recognizes.sound _ _ _ hblock
      exact ⟨used,hts,.sfw hD⟩
    · obtain ⟨⟨op,rest'⟩,hop,heq⟩ := Option.map_eq_some_iff.mp h
      cases heq
      obtain ⟨used,hts,hD⟩ := readBinaryOp_recognizes.sound _ _ _ hop
      exact ⟨used,hts,.binOp hD⟩
  · intro used b rest hD hF
    cases hD with
    | sfw hD => rw [readBody, readSfwBlock_recognizes.complete _ _ _ hD hF]
    | binOp hD =>
      have hnone : readSfwBlock (used ++ rest) = none := by cases hD <;> exact readSfwBlock_string _ _
      rw [readBody, hnone]
      simp only [readBinaryOp_recognizes.complete _ _ _ hD trivial, Option.map_some]

def readXstream : List Terminal → Taken ContQuery
  | .reserved word :: .char '(' :: rest =>
    match xstreamClause word with
    | some op =>
      match readBody rest with
      | some (b,.char ')' :: rest) => some (contQuery (some op) b,rest)
      | _ => none
    | none => none
  | _ => none

def readQuery (ts : List Terminal) : Taken ContQuery :=
  match readBody ts with
  | some (b,rest) => some (contQuery none b,rest)
  | none => readXstream ts

theorem Query.of_body {ts : List Terminal} {b : SfwBlock ⊕ BinOp} (h : Body ts b) : Query ts (contQuery none b) := by
  cases h with
  | sfw h => exact .sfw h
  | binOp h => exact .binOp h

theorem Query.of_xstream {ts : List Terminal} {b : SfwBlock ⊕ BinOp} {word : ReservedWord} {op : RelToStrOp}
    (hop : xstreamClause word = some op) (h : Body ts b) :
    Query (.reserved word :: .char '(' :: (ts ++ [.char ')'])) (contQuery (some op) b) := by
  cases h with
  | sfw h => exact .xstreamSfw hop h
  | binOp h => exact .xstreamBinOp hop h

/-- A query is a block or a binary operator, or one in the parentheses of a relation-to-stream operator. -/
theorem query_cases {ts : List Terminal} {q : ContQuery} (h : Query ts q) : (∃ b, q = contQuery none b ∧ Body ts b) ∨
    ∃ word op us b, ts = .reserved word :: .char '(' :: (us ++ [.char ')']) ∧ xstreamClause word = some op ∧
      q = contQuery (some op) b ∧ Body us b := by
  cases h with
  | sfw h => exact .inl ⟨_,rfl,.sfw h⟩
  | binOp h => exact .inl ⟨_,rfl,.binOp h⟩
  | xstreamSfw hop h => exact .inr ⟨_,_,_,_,rfl,hop,rfl,.sfw h⟩
  | xstreamBinOp hop h => exact .inr ⟨_,_,_,_,rfl,hop,rfl,.binOp h⟩

theorem readQuery_recognizes : Recognizes readQuery Query Ended := by
  constructor
  · intro ts q rest h
    unfold readQuery at h
    split at h
    · rename_i b rest' hb
      cases h
      obtain ⟨used,rfl,hD⟩ := readBody_recognizes.sound _ _ _ hb
      exact ⟨used,rfl,.of_body hD⟩
    · unfold readXstream at h
      split at h
      · split at h
        · rename_i op hop
          split at h
          · rename_i b rest' hb
            cases h
            obtain ⟨used,rfl,hD⟩ := readBody_recognizes.sound _ _ _ hb
            exact ⟨_,by simp,.of_xstream hop hD⟩
          · cases h
        · cases h
      · cases h
  · intro used q rest hD hF
    rcases query_cases hD with ⟨b,rfl,hbody⟩ | ⟨word,op,us,b,rfl,hop,rfl,hbody⟩
    · rw [readQuery, readBody_recognizes.complete _ _ _ hbody hF]
    · have hb : readBody (us ++ .char ')' :: rest) = some (b,.char ')' :: rest) :=
        readBody_recognizes.complete _ _ _ hbody ⟨rest,.inr rfl⟩
      -- no block and no binary operator begins with a relation-to-stream operator
      have hnone (ts : List Terminal) : readBody (.reserved word :: ts) = none := by
        cases word <;> first | rfl | cases hop
      simp only [List.cons_append, List.append_assoc, List.nil_append, readQuery, hnone, readXstream, hop, hb]

def readAttrSpec : List Terminal → Taken AttrSpec
  | .T_STRING attrName :: .reserved .RW_INTEGER :: rest => some (⟨attrName,.int,0⟩,rest)
  | .T_STRING attrName :: .reserved .RW_FLOAT :: rest => some (⟨attrName,.float,0⟩,rest)
  | .T_STRING attrName :: .reserved .RW_BYTE :: rest => some (⟨attrName,.byte,0⟩,rest)
  | .T_STRING attrName :: .reserved .RW_CHAR :: .char '(' :: .T_INT ival :: .char ')' :: rest =>
    some (⟨attrName,.char,(ival % 2 ^ 32).toNat⟩,rest)
  | _ => none

theorem readAttrSpec_recognizes : Recognizes readAttrSpec AttrSpecN fun _ => True := by
  constructor
  · intro ts a rest h
    unfold readAttrSpec at h
    split at h
    · cases h
      exact ⟨_,rfl,.int _⟩
    · cases h
      exact ⟨_,rfl,.float _⟩
    · cases h
      exact ⟨_,rfl,.byte _⟩
    · cases h
      exact ⟨_,rfl,.char _ _⟩
    · cases h
  · intro used a rest hD _
    cases hD <;> rfl

def readAttrspecList : List Terminal → Taken (List AttrSpec) := separated (.char ',') readAttrSpec

theorem readAttrspecList_recognizes : Recognizes readAttrspecList NonMtAttrspecList (NotNext [.char ',']) :=
  (readAttrSpec_recognizes.separated fun _ => trivial).mono fun _ h => ⟨trivial,h _ List.mem_cons_self⟩

def readKind : List Terminal → Taken Bool
  | .reserved .RW_REGISTER :: .reserved .RW_STREAM :: rest => some (true,rest)
  | .reserved .RW_REGISTER :: .reserved .RW_RELATION :: rest => some (false,rest)
  | _ => none

def readRegisterTable (ts : List Terminal) : Taken TableSpec :=
  match readKind ts with
  | some (isStream,.T_STRING name :: .char '(' :: rest) =>
    match readAttrspecList rest with
    | some (l,.char ')' :: rest) => some (⟨name,isStream,l⟩,rest)
    | _ => none
  | _ => none

theorem readKind_cases {ts rest : List Terminal} {isStream : Bool} (h : readKind ts = some (isStream,rest)) :
    (isStream = true ∧ ts = .reserved .RW_REGISTER :: .reserved .RW_STREAM :: rest) ∨
    (isStream = false ∧ ts = .reserved .RW_REGISTER :: .reserved .RW_RELATION :: rest) := by
  unfold readKind at h
  split at h
  · cases h
    exact .inl ⟨rfl,rfl⟩
  · cases h
    exact .inr ⟨rfl,rfl⟩
  · cases h

theorem readRegisterTable_recognizes : Recognizes readRegisterTable RegisterTable fun _ => True := by
  constructor
  · intro ts spec rest h
    unfold readRegisterTable at h
    split at h
    · rename_i isStream name rest' hkind
      split at h
      · rename_i l rest'' hl
        cases h
        obtain ⟨used,rfl,hD⟩ := readAttrspecList_recognizes.sound _ _ _ hl
        rcases readKind_cases hkind with ⟨rfl,rfl⟩ | ⟨rfl,rfl⟩
        · exact ⟨_,by simp,.stream name hD⟩
        · exact ⟨_,by simp,.relation name hD⟩
      · cases h
    · cases h
  · intro used spec rest hD _
    cases hD with
    | stream name hD =>
      have hl := readAttrspecList_recognizes.complete _ _ (.char ')' :: rest) hD (notNext_cons.mpr (by decide))
      simp only [List.cons_append, List.append_assoc, List.nil_append, readRegisterTable, readKind, hl]
    | relation name hD =>
      have hl := readAttrspecList_recognizes.complete _ _ (.char ')' :: rest) hD (notNext_cons.mpr (by decide))
      simp only [List.cons_append, List.append_assoc, List.nil_append, readRegisterTable, readKind, hl]

theorem readRegisterTable_select (rest : List Terminal) : readRegisterTable (.reserved .RW_SELECT :: rest) = none := rfl

/-- No query begins as the specification of a table does. -/
theorem readRegisterTable_query {ts rest : List Terminal} {q : ContQuery} (h : Query ts q) : readRegisterTable (ts ++ rest) = none := by
  have hblock {ts rest : List Terminal} {block : SfwBlock} (h : SfwBlockN ts block) : readRegisterTable (ts ++ rest) = none := by
    cases h with
    | mk h _ _ _ => cases h <;> exact readRegisterTable_select _
  cases h with
  | sfw h => exact hblock h
  | binOp h => cases h <;> rfl
  | @xstreamSfw ts block word op hop h => cases word <;> rfl
  | @xstreamBinOp ts binOp word op hop h => cases word <;> rfl

def readStart (ts : List Terminal) : Taken Command :=
  match readRegisterTable ts with
  | some (spec,.char ';' :: rest) => some (.inl spec,rest)
  | some _ => none
  | none =>
    match readQuery ts with
    | some (q,.char ';' :: rest) => some (.inr q,rest)
    | _ => none

theorem readStart_recognizes : Recognizes readStart Start fun _ => True := by
  constructor
  · intro ts c rest h
    unfold readStart at h
    split at h
    · rename_i spec rest' hspec
      cases h
      obtain ⟨used,rfl,hD⟩ := readRegisterTable_recognizes.sound _ _ _ hspec
      exact ⟨_,by simp,.registerTable hD⟩
    · cases h
    · split at h
      · rename_i q rest' hq
        cases h
        obtain ⟨used,rfl,hD⟩ := readQuery_recognizes.sound _ _ _ hq
        exact ⟨_,by simp,.query hD⟩
      · cases h
  · intro used c rest hD _
    cases hD with
    | @query ts q hD =>
      have hq : readQuery (ts ++ .char ';' :: rest) = some (q,.char ';' :: rest) := readQuery_recognizes.complete _ _ _ hD ⟨rest,.inl rfl⟩
      rw [List.append_assoc, List.singleton_append, readStart, readRegisterTable_query hD]
      simp only [hq]
    | @registerTable ts spec hD =>
      have hspec : readRegisterTable (ts ++ .char ';' :: rest) = some (spec,.char ';' :: rest) :=
        readRegisterTable_recognizes.complete _ _ _ hD trivial
      rw [List.append_assoc, List.singleton_append, readStart]
      simp only [hspec]

/-- A command and a semicolon are taken from the front of a list of tokens exactly as the grammar derives them,
so a list of tokens begins with one command at most. -/
theorem readStart_iff (ts : List Terminal) (c : Command) (rest : List Terminal) : readStart ts = some (c,rest) ↔
    ∃ used, ts = used ++ rest ∧ Start used c := by
  constructor
  · exact readStart_recognizes.sound ts c rest
  · rintro ⟨used,rfl,hD⟩
    exact readStart_recognizes.complete used c rest hD trivial

/-- The second subtraction takes the result of the first, and the product comes before both. -/
example : readStart [.reserved .RW_SELECT,.T_INT 9,.char '-',.T_INT 2,.char '*',.T_INT 3,.char '-',.T_INT 1,
    .reserved .RW_FROM,.T_STRING ['R'],.char ';'] = some (.inr (.sfwBlock ⟨⟨false,
      [.arithExpr .sub (.arithExpr .sub (.constVal (.int 9)) (.arithExpr .mul (.constVal (.int 2)) (.constVal (.int 3))))
        (.constVal (.int 1))]⟩,[⟨['R'],none,none⟩],[],[]⟩ none),[]) := rfl

end AqsiosCoordinator.Parser.Grammar
