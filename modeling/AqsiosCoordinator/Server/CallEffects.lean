import AqsiosCoordinator.Server.ServerImpl
import AqsiosCoordinator.Metadata.GeneratedFlags

/-! # What the registration calls do to the managers -/
namespace AqsiosCoordinator.Server
open Common Foundation Foundation.Outcome Metadata Physical

variable {Node : Type} {front : Frontend Node} {α : Type} {s t : ServerImpl}

def Frontend.readTable (front : Frontend Node) (tableInfo : Option (List Char)) : Option TableSpec :=
  tableInfo.bind fun text => (front.parseCommand text).bind front.tableSpec

def Frontend.readQuery (front : Frontend Node) (tableMgr : TableManager) (text : List Char) : Option Semantic.Query :=
  (front.parseCommand text).bind fun node =>
    match front.interpretQuery tableMgr node with
    | .ok query => some query
    | .error _ => none

def withTable (tableMgr : TableManager) (spec : TableSpec) : TableManager := ⟨tableMgr.tableList ++ [spec.table]⟩

theorem withTable_numTables (tableMgr : TableManager) (spec : TableSpec) :
    (withTable tableMgr spec).numTables = tableMgr.numTables + 1 := by
  simp [withTable,TableManager.numTables]

theorem withTable_isStream {tableMgr : TableManager} (spec : TableSpec) {id : ℕ} (h : id < tableMgr.numTables) :
    (withTable tableMgr spec).isStream id = tableMgr.isStream id := by
  unfold withTable TableManager.isStream
  rw [List.getElem?_append_left h]

theorem withTable_isStream_new (tableMgr : TableManager) (spec : TableSpec) :
    (withTable tableMgr spec).isStream tableMgr.numTables = spec.isStream := by
  unfold withTable TableManager.isStream TableManager.numTables
  rw [List.getElem?_concat_length]
  rfl

theorem callPlanMgr_ok {m : Physical.M α} {a : α} :
    callPlanMgr m s = .ok a t ↔ ∃ p, m s.planMgr = .ok a p ∧ t = { s with planMgr := p } := by
  unfold callPlanMgr
  cases h : m s.planMgr with
  | ok b p =>
    simp only [EStateM.Result.ok.injEq]
    constructor
    · rintro ⟨rfl,rfl⟩
      exact ⟨p,⟨rfl,rfl⟩,rfl⟩
    · rintro ⟨q,⟨rfl,rfl⟩,rfl⟩
      exact ⟨rfl,rfl⟩
  | error e p => simp

theorem callPlanMgr_error {m : Physical.M α} {e : Failure} :
    callPlanMgr m s = .error e t ↔ ∃ p, m s.planMgr = .error e p ∧ t = { s with planMgr := p } := by
  unfold callPlanMgr
  cases h : m s.planMgr with
  | error e' p =>
    simp only [EStateM.Result.error.injEq]
    constructor
    · rintro ⟨rfl,rfl⟩
      exact ⟨p,⟨rfl,rfl⟩,rfl⟩
    · rintro ⟨q,⟨rfl,rfl⟩,rfl⟩
      exact ⟨rfl,rfl⟩
  | ok a p => simp

/-- The argument describes no table, or one that the table manager does not accept. -/
def Refused (front : Frontend Node) (s : ServerImpl) (tableInfo : Option (List Char)) : Prop :=
  ∀ spec ∈ front.readTable tableInfo, ∀ tableId tableMgr, s.tableMgr.registerSpec spec ≠ (.ok tableId,tableMgr)

/-- A table is entered, or nothing has happened. -/
theorem registerTableInfo_cases (front : Frontend Node) (tableInfo : Option (List Char)) (s : ServerImpl) :
    ((s.state = .appSpec → Refused front s tableInfo) ∧ ∃ e, registerTableInfo front tableInfo s = .error e s) ∨
      ∃ spec, front.readTable tableInfo = some spec ∧ ¬ Refused front s tableInfo ∧
        registerTableInfo front tableInfo s =
          .ok s.tableMgr.numTables { s with tableMgr := withTable s.tableMgr spec } := by
  unfold registerTableInfo
  rw [bind_of_ok (get_apply s)]
  by_cases hstate : s.state = .appSpec
  · rw [bind_of_ok (failIf_neg (not_not.mpr hstate))]
    have hnone (h : front.readTable tableInfo = none) : Refused front s tableInfo := by
      intro spec hspec
      rw [h] at hspec
      cases hspec
    cases tableInfo with
    | none => exact .inl ⟨fun _ => hnone rfl,_,rfl⟩
    | some text =>
      dsimp only
      cases hp : front.parseCommand text with
      | none => exact .inl ⟨fun _ => hnone (by simp [Frontend.readTable,hp]),_,rfl⟩
      | some node =>
        dsimp only
        cases ht : front.tableSpec node with
        | none => exact .inl ⟨fun _ => hnone (by simp [Frontend.readTable,hp,ht]),_,rfl⟩
        | some spec =>
          have hread : front.readTable (some text) = some spec := by simp [Frontend.readTable,hp,ht]
          dsimp only [registerSpec]
          rcases s.tableMgr.registerSpec_cases spec with ⟨rc,-,hr⟩ | ⟨hr,-,-⟩
          · rw [hr]
            refine .inl ⟨fun _ spec' hspec id m he => ?_,_,rfl⟩
            obtain rfl : spec = spec' := Option.some.inj (hread.symm.trans hspec)
            rw [hr] at he
            cases he
          · rw [hr]
            exact .inr ⟨spec,hread,fun hno => hno spec hread _ _ hr,rfl⟩
  · rw [bind_of_error (failIf_pos hstate)]
    exact .inl ⟨fun h => absurd h hstate,_,rfl⟩

/-- What `registerBaseTable` and `registerView` do with the call `f` of the plan manager. -/
def registerTableWith (front : Frontend Node) (tableInfo : Option (List Char)) (f : TableManager → ℕ → Physical.M Unit) :
    M Unit := do
  let tableId ← registerTableInfo front tableInfo
  let s ← get
  callPlanMgr (f s.tableMgr tableId)

theorem registerTableWith_ok {tableInfo : Option (List Char)} {f : TableManager → ℕ → Physical.M Unit} {a : Unit}
    (h : registerTableWith front tableInfo f s = .ok a t) : ∃ spec p, front.readTable tableInfo = some spec ∧
      f (withTable s.tableMgr spec) s.tableMgr.numTables s.planMgr = .ok () p ∧
      t = { s with tableMgr := withTable s.tableMgr spec, planMgr := p } := by
  obtain ⟨tableId,s₁,hinfo,hrest⟩ := bind_eq_ok.mp h
  rcases registerTableInfo_cases front tableInfo s with ⟨-,e,he⟩ | ⟨spec,hspec,-,hok⟩
  · rw [he] at hinfo
    cases hinfo
  rw [hok] at hinfo
  cases hinfo
  obtain ⟨_,_,hget,hcall⟩ := bind_eq_ok.mp hrest
  obtain ⟨rfl,rfl⟩ := get_eq_ok.mp hget
  obtain ⟨p,hp,rfl⟩ := callPlanMgr_ok.mp hcall
  exact ⟨spec,p,hspec,hp,rfl⟩

/-- A failure leaves the server alone when the table is refused, and otherwise with the new table. -/
theorem registerTableWith_error {tableInfo : Option (List Char)} {f : TableManager → ℕ → Physical.M Unit} {e : Failure}
    (h : registerTableWith front tableInfo f s = .error e t) :
    ((s.state = .appSpec → Refused front s tableInfo) ∧ t = s) ∨ ∃ spec p, ¬ Refused front s tableInfo ∧
      f (withTable s.tableMgr spec) s.tableMgr.numTables s.planMgr = .error e p ∧
      t = { s with tableMgr := withTable s.tableMgr spec, planMgr := p } := by
  unfold registerTableWith at h
  rcases registerTableInfo_cases front tableInfo s with ⟨hrefused,e',he⟩ | ⟨spec,-,haccepted,hok⟩
  · rw [bind_of_error he] at h
    cases h
    exact .inl ⟨hrefused,rfl⟩
  · rw [bind_of_ok hok, bind_of_ok (get_apply _)] at h
    obtain ⟨p,hp,rfl⟩ := callPlanMgr_error.mp h
    exact .inr ⟨spec,p,haccepted,hp,rfl⟩

/-- The text stands for no query, or for one that the query manager has no room for. -/
def QueryRefused (front : Frontend Node) (s : ServerImpl) (text : List Char) : Prop :=
  ∀ query ∈ front.readQuery s.tableMgr text, ∀ queryId qryMgr, s.qryMgr.registerQuery text ≠ .ok (queryId,qryMgr)

/-- A query is refused, or it has its id whether it is planned or not. -/
theorem planQuery_cases (front : Frontend Node) (text : List Char) (s : ServerImpl) :
    ((s.state = .appSpec → QueryRefused front s text) ∧ ∃ e, planQuery front text s = .error e s) ∨
      ∃ query queryId qryMgr, front.readQuery s.tableMgr text = some query ∧ s.qryMgr.registerQuery text = .ok (queryId,qryMgr) ∧
        ((∃ e, planQuery front text s = .error e { s with qryMgr := qryMgr }) ∨
          ∃ plan usage, (Logical.genLogPlan s.tableMgr query).run ⟨0,0⟩ = .ok plan usage ∧
            planQuery front text s = .ok (queryId,plan) { s with qryMgr := qryMgr }) := by
  unfold planQuery
  rw [bind_of_ok (get_apply s)]
  by_cases hstate : s.state = .appSpec
  · rw [bind_of_ok (failIf_neg (not_not.mpr hstate)), bind_of_ok (get_apply s)]
    have hnone (h : front.readQuery s.tableMgr text = none) : QueryRefused front s text := by
      intro query hquery
      rw [h] at hquery
      cases hquery
    cases hp : front.parseCommand text with
    | none => exact .inl ⟨fun _ => hnone (by simp [Frontend.readQuery,hp]),_,rfl⟩
    | some node =>
      dsimp only
      cases hq : front.interpretQuery s.tableMgr node with
      | error rc => exact .inl ⟨fun _ => hnone (by simp [Frontend.readQuery,hp,hq]),_,rfl⟩
      | ok query =>
        have hread : front.readQuery s.tableMgr text = some query := by simp [Frontend.readQuery,hp,hq]
        dsimp only
        cases hr : s.qryMgr.registerQuery text with
        | error rc =>
          refine .inl ⟨fun _ query' _ queryId qryMgr hok => ?_,_,rfl⟩
          rw [hr] at hok
          cases hok
        | ok r =>
          obtain ⟨queryId,qryMgr⟩ := r
          refine .inr ⟨query,queryId,qryMgr,hread,rfl,?_⟩
          dsimp only
          rw [bind_of_ok (set_apply _ _)]
          cases hg : (Logical.genLogPlan s.tableMgr query).run ⟨0,0⟩ with
          | error e usage => exact .inl ⟨_,rfl⟩
          | ok plan usage => exact .inr ⟨plan,usage,rfl,rfl⟩
  · rw [bind_of_error (failIf_pos hstate)]
    exact .inl ⟨fun h => absurd h hstate,_,rfl⟩

theorem registerQuery_ok {u : Uninit} {text : List Char} {output : Bool} {queryId : ℕ}
    (h : registerQuery front u text output s = .ok queryId t) : ∃ query plan usage qryMgr p,
      front.readQuery s.tableMgr text = some query ∧ (Logical.genLogPlan s.tableMgr query).run ⟨0,0⟩ = .ok plan usage ∧
      planQuery front text s = .ok (queryId,plan) { s with qryMgr := qryMgr } ∧
      addLogicalQueryPlan u queryId plan output { s.planMgr with currentQueryClass := s.currentQueryClass } = .ok () p ∧
      t = { s with qryMgr := qryMgr, planMgr := p } := by
  obtain ⟨r,s₁,h1,hrest⟩ := bind_eq_ok.mp h
  rcases planQuery_cases front text s with ⟨-,e,he⟩ | ⟨query,qid,qryMgr,hquery,-,⟨e,he⟩ | ⟨plan,usage,hgen,hok⟩⟩
  · rw [he] at h1
    cases h1
  · rw [he] at h1
    cases h1
  rw [hok] at h1
  cases h1
  obtain ⟨_,_,h2,hrest⟩ := bind_eq_ok.mp hrest
  obtain rfl := modify_eq_ok.mp h2
  obtain ⟨_,_,hcall,h3⟩ := bind_eq_ok.mp hrest
  obtain ⟨rfl,rfl⟩ := pure_eq_ok.mp h3
  obtain ⟨p,hp,rfl⟩ := callPlanMgr_ok.mp hcall
  exact ⟨query,plan,usage,qryMgr,p,hquery,hgen,hok,hp,rfl⟩

/-- A failure leaves the server alone when the query is refused, and otherwise with an id less; what else is
done the plan manager has done. -/
theorem registerQuery_error {u : Uninit} {text : List Char} {output : Bool} {e : Failure}
    (h : registerQuery front u text output s = .error e t) :
    ((s.state = .appSpec → QueryRefused front s text) ∧ (∀ r s', planQuery front text s ≠ .ok r s') ∧ t = s) ∨
      ∃ queryId qryMgr, ¬ QueryRefused front s text ∧ s.qryMgr.registerQuery text = .ok (queryId,qryMgr) ∧
        ((∀ r s', planQuery front text s ≠ .ok r s') ∧ t = { s with qryMgr := qryMgr } ∨
          ∃ plan p, planQuery front text s = .ok (queryId,plan) { s with qryMgr := qryMgr } ∧
            addLogicalQueryPlan u queryId plan output { s.planMgr with currentQueryClass := s.currentQueryClass } = .error e p ∧
            t = { s with qryMgr := qryMgr, planMgr := p }) := by
  have hfails {e' : Failure} {s' : ServerImpl} (he : planQuery front text s = .error e' s') :
      (∀ r s', planQuery front text s ≠ .ok r s') ∧ t = s' := by
    unfold registerQuery at h
    rw [bind_of_error he] at h
    cases h
    refine ⟨fun r s'' hr => ?_,rfl⟩
    rw [he] at hr
    cases hr
  rcases planQuery_cases front text s with ⟨hrefused,e',he⟩ | ⟨query,queryId,qryMgr,hquery,hroom,⟨e',he⟩ | ⟨plan,usage,-,hok⟩⟩
  · exact .inl ⟨hrefused,hfails he⟩
  · exact .inr ⟨queryId,qryMgr,fun hrefused => hrefused query hquery _ _ hroom,hroom,.inl (hfails he)⟩
  · refine .inr ⟨queryId,qryMgr,fun hrefused => hrefused query hquery _ _ hroom,hroom,.inr ⟨plan,?_⟩⟩
    unfold registerQuery at h
    rw [bind_of_ok hok] at h
    dsimp only at h
    rw [bind_of_ok (modify_apply _ _)] at h
    cases hcall : callPlanMgr (addLogicalQueryPlan u queryId plan output)
        { s with qryMgr := qryMgr, planMgr := { s.planMgr with currentQueryClass := s.currentQueryClass } } with
    | ok a s' =>
      rw [bind_of_ok hcall] at h
      cases h
    | error e' s' =>
      rw [bind_of_error hcall] at h
      cases h
      obtain ⟨p,hp,rfl⟩ := callPlanMgr_error.mp hcall
      exact ⟨p,hok,hp,rfl⟩

inductive Request where
  | registerBaseTable (tableInfo : Option (List Char))
  | registerQuery (querySpec : List Char) (output : Bool)
  | registerView (queryId : ℕ) (tableInfo : Option (List Char))

def listedFrontend (tables : List (List Char × TableSpec)) (queries : List (List Char × Semantic.Query)) :
    Frontend (List Char) where
  parseCommand text := some text
  tableSpec node := (tables.find? fun e => e.1 == node).map Prod.snd
  interpretQuery tableMgr node :=
    match queries.find? fun e => e.1 == node with
    | some (_,query) =>
      if query.sources.all fun v => decide (query.refTables v < tableMgr.numTables) then .ok query
      else .error ⟨-1,by decide⟩
    | none => .error ⟨-1,by decide⟩

theorem listedFrontend_resolves (tables : List (List Char × TableSpec)) (queries : List (List Char × Semantic.Query)) :
    (listedFrontend tables queries).ResolvesTables := by
  intro tableMgr node query h v hv
  simp only [listedFrontend] at h
  cases hfind : queries.find? fun e => e.1 == node with
  | none => simp [hfind] at h
  | some e =>
    simp only [hfind] at h
    split at h
    · rename_i hall
      cases h
      exact of_decide_eq_true (List.all_eq_true.mp hall v hv)
    · cases h

theorem listedFrontend_readQuery {tables : List (List Char × TableSpec)} {queries : List (List Char × Semantic.Query)}
    {tableMgr : TableManager} {text : List Char} {query : Semantic.Query}
    (h : (listedFrontend tables queries).readQuery tableMgr text = some query) : ∃ e ∈ queries, e.2 = query := by
  simp only [Frontend.readQuery, listedFrontend, Option.bind_some] at h
  cases hfind : queries.find? fun e => e.1 == text with
  | none => simp [hfind] at h
  | some e =>
    simp only [hfind] at h
    split at h
    · rename_i hok
      split at hok
      · cases hok
        cases h
        exact ⟨e,List.mem_of_find?_eq_some hfind,rfl⟩
      · cases hok
    · cases h

end AqsiosCoordinator.Server
