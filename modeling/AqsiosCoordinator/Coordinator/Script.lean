import AqsiosCoordinator.Coordinator.NodeInfo
import AqsiosCoordinator.Foundation.Outcome

/-! # Registering an application from its script

`register_appln` runs the commands of a script against a server. The server is
any state with the operations of its interface; what they return is what counts
here. Every registration made is logged with the command that made it.
-/
namespace AqsiosCoordinator.Coordinator
open Foundation Foundation.Reader

inductive CommandType where
  | table
  | source
  | query
  | dest
  | vquery
  | vtable
  | qclass
  deriving DecidableEq

structure Command where
  type : CommandType
  desc : List Char
  deriving DecidableEq

/-- The operations of `Interface::Server` that the script uses; each returns its code. -/
structure Server (σ : Type) where
  beginAppSpecification : σ → ℤ × σ
  registerBaseTable : List Char → List Char → σ → ℤ × σ
  /-- With the query id that is assigned. -/
  registerQuery : List Char → Option (List Char) → σ → ℤ × ℕ × σ
  registerView : ℕ → List Char → σ → ℤ × σ
  setCurrentQueryClass : ℤ → σ → σ
  endAppSpecification : σ → ℤ × σ

inductive Call where
  | baseTable (spec source : List Char)
  | query (text : List Char) (output : Option (List Char)) (queryId : ℕ)
  | view (queryId : ℕ) (spec : List Char)
  deriving DecidableEq

def MAX_TABLE_SPEC : ℕ := 1024
def MAX_QUERY : ℕ := 1024
def MAX_OUTPUT : ℕ := 5000
def MAX_SOURCES : ℕ := 500

structure ApplnState (σ : Type) where
  server : σ
  tableSpecBuf : List Char
  bTableSpecValid : Bool
  query : List Char
  bQueryValid : Bool
  queryId : ℕ
  bQueryIdValid : Bool
  numSources : ℕ
  numOutput : ℕ
  /-- What each command so far has registered. -/
  calls : List (Option Call)

/-- The variables before the first command; `queryId` has no value yet. -/
def ApplnState.start {σ : Type} (server : σ) : ApplnState σ where
  server := server
  tableSpecBuf := []
  bTableSpecValid := false
  query := []
  bQueryValid := false
  queryId := 0
  bQueryIdValid := false
  numSources := 0
  numOutput := 0
  calls := []

/-- `atoi`: the number at the front, or 0. -/
def atoi (s : List Char) : ℤ := ((strtol (s ++ [NUL])).map (fun r => r.1.bmod (2^32))).getD 0

variable {σ : Type} (server : Server σ)

def execute (st : ApplnState σ) (command : Command) : Except ℤ (ApplnState σ) :=
  match command.type with
  | .table =>
    if command.desc.length > MAX_TABLE_SPEC then .error (-1)
    else .ok { st with tableSpecBuf := command.desc, bTableSpecValid := true, calls := st.calls ++ [none] }
  | .source =>
    if st.bTableSpecValid = false then .error (-1)
    else if st.numSources ≥ MAX_SOURCES then .error (-1)
    else
      let r := server.registerBaseTable st.tableSpecBuf command.desc st.server
      if r.1 ≠ 0 then .error r.1
      else .ok { st with
        server := r.2
        numSources := st.numSources + 1
        bTableSpecValid := false
        calls := st.calls ++ [some (.baseTable st.tableSpecBuf command.desc)] }
  | .query =>
    if command.desc.length > MAX_QUERY then .error (-1)
    else .ok { st with query := command.desc, bQueryValid := true, calls := st.calls ++ [none] }
  | .dest =>
    if st.bQueryValid = false then .error (-1)
    else if st.numOutput ≥ MAX_OUTPUT then .error (-1)
    else
      let r := server.registerQuery st.query (some command.desc) st.server
      if r.1 ≠ 0 then .error r.1
      else .ok { st with
        server := r.2.2
        numOutput := st.numOutput + 1
        queryId := r.2.1
        bQueryValid := false
        calls := st.calls ++ [some (.query st.query (some command.desc) r.2.1)] }
  | .qclass =>
    .ok { st with
      server := server.setCurrentQueryClass (atoi command.desc) st.server, calls := st.calls ++ [none] }
  | .vquery =>
    let r := server.registerQuery command.desc none st.server
    if r.1 ≠ 0 then .error r.1
    else .ok { st with
      server := r.2.2
      queryId := r.2.1
      bQueryIdValid := true
      calls := st.calls ++ [some (.query command.desc none r.2.1)] }
  | .vtable =>
    if st.bQueryIdValid = false then .error (-1)
    else
      let r := server.registerView st.queryId command.desc st.server
      if r.1 ≠ 0 then .error r.1
      else .ok { st with
        server := r.2
        bQueryIdValid := false
        calls := st.calls ++ [some (.view st.queryId command.desc)] }

/-- The code of a failure, or what has been registered and the server afterwards. -/
def registerAppln (script : List Command) (s : σ) : Except ℤ (List (Option Call) × σ) :=
  let b := server.beginAppSpecification s
  if b.1 ≠ 0 then .error b.1
  else
    match script.foldlM (execute server) (ApplnState.start b.2) with
    | .error rc => .error rc
    | .ok st =>
      if st.bQueryValid || st.bQueryIdValid || st.bTableSpecValid then .error (-1)
      else
        let e := server.endAppSpecification st.server
        if e.1 ≠ 0 then .error e.1 else .ok (st.calls,e.2)

end AqsiosCoordinator.Coordinator
