import AqsiosCoordinator.Coordinator.Script
import AqsiosCoordinator.Foundation.Pending

/-! # Which commands of a script are registered together

A TABLE or a QUERY waits in a buffer for the SOURCE or DEST behind it. The id of
a registered query stays in one variable, which VQUERY and DEST both set and
VTABLE reads.
-/
namespace AqsiosCoordinator.Coordinator
open Foundation

def opensBy (t : CommandType) (c : Command) : Option (List Char) := if c.type = t then some c.desc else none
def closesBy (t : CommandType) (c : Command) : Bool := c.type = t

/-- The command at `k` makes the call for the text of the command at `i`, the last of its type before. -/
def Registers (opener closer : CommandType) (call : List Char → List Char → Call → Prop)
    (script : List Command) (calls : List (Option Call)) (i k : ℕ) : Prop :=
  i < k ∧ NoneBetween (fun c => c.type = opener) script i k ∧
    ∃ text arg r, script[i]? = some ⟨opener,text⟩ ∧ script[k]? = some ⟨closer,arg⟩ ∧
      calls[k]? = some (some r) ∧ call text arg r

/-- Every command of type `opener` is registered exactly once, by the first `closer` behind it. -/
def EachRegisteredOnce (opener closer : CommandType) (call : List Char → List Char → Call → Prop)
    (script : List Command) (calls : List (Option Call)) : Prop :=
  ∀ (i : ℕ) (text : List Char), script[i]? = some ⟨opener,text⟩ →
    ∃ j, Registers opener closer call script calls i j ∧ NoneBetween (fun c => c.type = closer) script i j ∧
      ∀ k, Registers opener closer call script calls i k → k = j

def OneAtATime (opener closer : CommandType) (script : List Command) : Prop :=
  ∀ (i k : ℕ) (text text' : List Char), i < k → script[i]? = some ⟨opener,text⟩ → script[k]? = some ⟨opener,text'⟩ →
    ∃ (j : ℕ) (arg : List Char), i < j ∧ j < k ∧ script[j]? = some ⟨closer,arg⟩

def tableCall (spec source : List Char) (c : Call) : Prop := c = .baseTable spec source
def queryCall (text dest : List Char) (c : Call) : Prop := ∃ id, c = .query text (some dest) id

def ViewsNamed (script : List Command) (calls : List (Option Call)) : Prop :=
  ∀ (j : ℕ) (spec : List Char), script[j]? = some ⟨.vtable,spec⟩ →
    ∃! i : ℕ, ∃ text id, script[i]? = some ⟨.vquery,text⟩ ∧ calls[i]? = some (some (.query text none id)) ∧
      calls[j]? = some (some (.view id spec))

def ViewsKept (script : List Command) : Prop :=
  ∀ (k j : ℕ) (dest spec : List Char), k < j → script[k]? = some ⟨.dest,dest⟩ → script[j]? = some ⟨.vtable,spec⟩ →
    ∃ (i : ℕ) (text : List Char), k < i ∧ i < j ∧ script[i]? = some ⟨.vquery,text⟩

section Pairs
variable {opener closer : CommandType} {call : List Char → List Char → Call → Prop}
  {script : List Command} {calls : List (Option Call)}

theorem opensBy_ne_none {t : CommandType} {c : Command} : opensBy t c ≠ none ↔ c.type = t := by
  simp [opensBy]

theorem closesBy_eq_true {t : CommandType} {c : Command} : closesBy t c = true ↔ c.type = t := by
  simp [closesBy]

theorem opensBy_eq_some {t : CommandType} {c : Command} {text : List Char} :
    opensBy t c = some text ↔ c = ⟨t,text⟩ := by
  obtain ⟨t',desc⟩ := c
  simp only [opensBy, Option.ite_none_right_eq_some, Option.some.injEq, Command.mk.injEq]

/-- When every closer takes what is pending and nothing stays pending, each opener is
registered once exactly when no opener replaces another. -/
theorem eachRegisteredOnce_iff (hne : opener ≠ closer)
    (hmade : ∀ (j : ℕ) (arg : List Char), script[j]? = some ⟨closer,arg⟩ → ∃ text r,
      pending (opensBy opener) (closesBy closer) (script.take j) = some text ∧
        calls[j]? = some (some r) ∧ call text arg r)
    (hend : pending (opensBy opener) (closesBy closer) script = none) :
    EachRegisteredOnce opener closer call script calls ↔ OneAtATime opener closer script := by
  constructor
  · intro hreg i k text text' hik hi hk
    obtain ⟨j,⟨hij,hnone,_,arg,_,-,hj,-⟩,-,-⟩ := hreg i text hi
    obtain hjk | rfl | hkj := Nat.lt_trichotomy j k
    · exact ⟨j,arg,hij,hjk,hj⟩
    · rw [hj] at hk
      simp only [Option.some.injEq, Command.mk.injEq] at hk
      exact absurd hk.1.symm hne
    · exact absurd rfl (hnone k _ hik hkj hk)
  · intro hone i text hi
    have ho : opensBy opener ⟨opener,text⟩ = some text := opensBy_eq_some.mpr rfl
    obtain ⟨j,⟨t,arg⟩,hij,hj,hc,hfirst⟩ := exists_first_closing hend hi ho
    obtain rfl : t = closer := closesBy_eq_true.mp hc
    simp only [closesBy_eq_true] at hfirst
    -- no opener comes between, or a closer would stand before `j`
    have hnone : NoneBetween (fun c => c.type = opener) script i j := by
      rintro k ⟨t',text'⟩ hik hkj hk ht
      obtain rfl : t' = opener := ht
      obtain ⟨l,arg',hil,hlk,hl⟩ := hone i k text text' hik hi hk
      exact hfirst l _ hil (hlk.trans hkj) hl rfl
    have hlast : ∀ {k b}, i < k → NoneBetween (fun c => c.type = opener) script i k →
        pending (opensBy opener) (closesBy t) (script.take k) = some b →
        b = text ∧ NoneBetween (fun c => c.type = t) script i k := by
      intro k b hik hno hp
      obtain ⟨i',hi'⟩ := pending_eq_some_iff.mp hp
      have heq : i' = i := hi'.eq_of_noneBetween hik hi (by simp [ho]) (by simpa only [opensBy_ne_none] using hno)
      subst heq
      obtain ⟨-,⟨x,hx,hb⟩,-,hcl⟩ := hi'.noneBetween
      rw [hi, Option.some.injEq] at hx
      rw [← hx, ho, Option.some.injEq] at hb
      exact ⟨hb.symm,by simpa only [closesBy_eq_true] using hcl⟩
    obtain ⟨text',r,hp,hr,hcall⟩ := hmade j arg hj
    obtain ⟨rfl,-⟩ := hlast hij hnone hp
    refine ⟨j,⟨hij,hnone,text',arg,r,hi,hj,hr,hcall⟩,hfirst,?_⟩
    rintro k ⟨hik,hno,_,arg',_,-,hk,-⟩
    obtain ⟨text'',_,hp',-⟩ := hmade k arg' hk
    obtain ⟨-,hcl⟩ := hlast hik hno hp'
    obtain hjk | heq | hkj := Nat.lt_trichotomy j k
    · exact absurd rfl (hcl j _ hij hjk hj)
    · exact heq.symm
    · exact absurd rfl (hfirst k _ hik hkj hk)

end Pairs

def Call.queryId? : Call → Option ℕ
  | .query _ _ id => some id
  | _ => none

def obtainedId (c : Option Call) : Option ℕ := c.bind Call.queryId?

/-- The call made by a command after the commands and calls in front of it. -/
def Made (before : List Command) (callsBefore : List (Option Call)) (c : Command) (call : Option Call) : Prop :=
  match c.type with
  | .source => ∃ spec, pending (opensBy .table) (closesBy .source) before = some spec ∧
      call = some (.baseTable spec c.desc)
  | .dest => ∃ text id, pending (opensBy .query) (closesBy .dest) before = some text ∧
      call = some (.query text (some c.desc) id)
  | .vquery => ∃ id, call = some (.query c.desc none id)
  | .vtable => ∃ text id, pending (opensBy .vquery) (closesBy .vtable) before = some text ∧
      pending obtainedId (fun _ => false) callsBefore = some id ∧ call = some (.view id c.desc)
  | _ => call = none

/-- The ids the server has handed out differ from those it will hand out. -/
structure FreshIds {σ : Type} (server : Server σ) (ids : σ → List ℕ) : Prop where
  registerQuery : ∀ text output s, (server.registerQuery text output s).1 = 0 →
    (server.registerQuery text output s).2.1 ∉ ids s ∧
      (server.registerQuery text output s).2.1 :: ids s ⊆ ids (server.registerQuery text output s).2.2
  registerBaseTable : ∀ spec source s, ids s ⊆ ids (server.registerBaseTable spec source s).2
  registerView : ∀ id spec s, ids s ⊆ ids (server.registerView id spec s).2
  setCurrentQueryClass : ∀ n s, ids s ⊆ ids (server.setCurrentQueryClass n s)

structure Tracks {σ : Type} (ids : σ → List ℕ) (script : List Command) (st : ApplnState σ) : Prop where
  table : pending (opensBy .table) (closesBy .source) script = if st.bTableSpecValid then some st.tableSpecBuf else none
  query : pending (opensBy .query) (closesBy .dest) script = if st.bQueryValid then some st.query else none
  view : (pending (opensBy .vquery) (closesBy .vtable) script).isSome = st.bQueryIdValid
  queryId : ∀ id, pending obtainedId (fun _ => false) st.calls = some id → st.queryId = id
  obtained : st.bQueryIdValid = true → (pending obtainedId (fun _ => false) st.calls).isSome = true
  length : st.calls.length = script.length
  made : ∀ (j : ℕ) (c : Command), script[j]? = some c →
    ∃ call, st.calls[j]? = some call ∧ Made (script.take j) (st.calls.take j) c call
  handedOut : ∀ call ∈ st.calls, ∀ id, obtainedId call = some id → id ∈ ids st.server
  distinct : ∀ (i k : ℕ) (x y : Option Call) (id : ℕ), st.calls[i]? = some x → st.calls[k]? = some y →
    obtainedId x = some id → obtainedId y = some id → i = k

section Run
variable {σ : Type} {server : Server σ} {ids : σ → List ℕ} {script : List Command} {st st' : ApplnState σ}

theorem Tracks.start (s : σ) : Tracks ids [] (ApplnState.start s) := by
  constructor <;> simp [ApplnState.start,pending]

/-- The facts about the calls after one more command, whose call `call` is. -/
theorem Tracks.made_concat (h : Tracks ids script st) {c : Command} {call : Option Call}
    (hm : Made script st.calls c call) (j : ℕ) (d : Command) (hd : (script ++ [c])[j]? = some d) :
    ∃ x, (st.calls ++ [call])[j]? = some x ∧
      Made ((script ++ [c]).take j) ((st.calls ++ [call]).take j) d x := by
  have hlen := h.length
  obtain hlt | hge := Nat.lt_or_ge j script.length
  · rw [List.getElem?_append_left hlt] at hd
    obtain ⟨x,hx,hmade⟩ := h.made j d hd
    rw [List.getElem?_append_left (by omega), List.take_append_of_le_length (by omega),
      List.take_append_of_le_length (by omega)]
    exact ⟨x,hx,hmade⟩
  · have hj : j = script.length := by
      have h1 := (List.getElem?_eq_some_iff.mp hd).1
      simp only [List.length_append, List.length_singleton] at h1
      omega
    subst hj
    simp only [List.getElem?_concat_length, Option.some.injEq] at hd
    subst hd
    refine ⟨call,by rw [← hlen]; exact List.getElem?_concat_length,?_⟩
    rw [List.take_append_of_le_length (le_refl _), List.take_length, ← hlen,
      List.take_append_of_le_length (le_refl _), List.take_length]
    exact hm

theorem Tracks.handedOut_concat (h : Tracks ids script st) {call : Option Call} {s : σ}
    (hs : ids st.server ⊆ ids s) (hc : ∀ id, obtainedId call = some id → id ∈ ids s) :
    ∀ x ∈ st.calls ++ [call], ∀ id, obtainedId x = some id → id ∈ ids s := by
  intro x hx id hid
  obtain hx | hx := List.mem_append.mp hx
  · exact hs (h.handedOut x hx id hid)
  · exact hc id (List.mem_singleton.mp hx ▸ hid)

theorem Tracks.distinct_concat (h : Tracks ids script st) {call : Option Call}
    (hc : ∀ id, obtainedId call = some id → id ∉ ids st.server) (i k : ℕ) (x y : Option Call) (id : ℕ)
    (hi : (st.calls ++ [call])[i]? = some x) (hk : (st.calls ++ [call])[k]? = some y)
    (hx : obtainedId x = some id) (hy : obtainedId y = some id) : i = k := by
  have hold : ∀ {l z}, l < st.calls.length → (st.calls ++ [call])[l]? = some z → obtainedId z = some id →
      id ∈ ids st.server := by
    intro l z hl hz hid
    rw [List.getElem?_append_left hl] at hz
    exact h.handedOut z (List.mem_of_getElem? hz) id hid
  have hlast : ∀ {l z}, (st.calls ++ [call])[l]? = some z → ¬ l < st.calls.length →
      l = st.calls.length ∧ z = call := by
    intro l z hz hl
    have h1 := (List.getElem?_eq_some_iff.mp hz).1
    simp only [List.length_append, List.length_singleton] at h1
    have heq : l = st.calls.length := by omega
    subst heq
    simp only [List.getElem?_concat_length, Option.some.injEq] at hz
    exact ⟨rfl,hz.symm⟩
  by_cases hil : i < st.calls.length <;> by_cases hkl : k < st.calls.length
  · rw [List.getElem?_append_left hil] at hi
    rw [List.getElem?_append_left hkl] at hk
    exact h.distinct i k x y id hi hk hx hy
  · obtain ⟨-,rfl⟩ := hlast hk hkl
    exact absurd (hold hil hi hx) (hc id hy)
  · obtain ⟨-,rfl⟩ := hlast hi hil
    exact absurd (hold hkl hk hy) (hc id hx)
  · rw [(hlast hi hil).1, (hlast hk hkl).1]

/-- How one more command changes what is tracked. -/
theorem Tracks.concat (h : Tracks ids script st) {c : Command} (call : Option Call)
    (hcalls : st'.calls = st.calls ++ [call]) (hm : Made script st.calls c call)
    (hs : ids st.server ⊆ ids st'.server)
    (hnew : ∀ id, obtainedId call = some id → id ∉ ids st.server ∧ id ∈ ids st'.server)
    (htable : pendingStep (opensBy .table) (closesBy .source)
      (if st.bTableSpecValid then some st.tableSpecBuf else none) c =
        if st'.bTableSpecValid then some st'.tableSpecBuf else none)
    (hquery : pendingStep (opensBy .query) (closesBy .dest) (if st.bQueryValid then some st.query else none) c =
      if st'.bQueryValid then some st'.query else none)
    (hview : ∀ p, p.isSome = st.bQueryIdValid →
      (pendingStep (opensBy .vquery) (closesBy .vtable) p c).isSome = st'.bQueryIdValid)
    (hid : st'.queryId = (obtainedId call).getD st.queryId)
    (hobt : st'.bQueryIdValid = true → st.bQueryIdValid = true ∨ (obtainedId call).isSome = true) :
    Tracks ids (script ++ [c]) st' where
  table := by rw [pending_concat, h.table, htable]
  query := by rw [pending_concat, h.query, hquery]
  view := by rw [pending_concat, hview _ h.view]
  queryId := by
    intro id hp
    rw [hcalls, pending_concat] at hp
    rw [hid]
    cases ho : obtainedId call with
    | some id' => simpa [pendingStep,ho] using hp
    | none =>
      simp only [pendingStep, ho, Bool.false_eq_true, if_false] at hp
      exact h.queryId id hp
  obtained := by
    intro hv
    rw [hcalls, pending_concat]
    cases ho : obtainedId call with
    | some id' => simp [pendingStep,ho]
    | none =>
      simp only [pendingStep, ho, Bool.false_eq_true, if_false]
      exact h.obtained ((hobt hv).resolve_right (by simp [ho]))
  length := by simp [hcalls,h.length]
  made := by
    rw [hcalls]
    exact h.made_concat hm
  handedOut := by
    rw [hcalls]
    exact h.handedOut_concat hs fun id hc => (hnew id hc).2
  distinct := by
    rw [hcalls]
    exact h.distinct_concat fun id hc => (hnew id hc).1

theorem Tracks.execute (hfresh : FreshIds server ids) (h : Tracks ids script st) {c : Command}
    (hx : execute server st c = .ok st') : Tracks ids (script ++ [c]) st' := by
  obtain ⟨t,desc⟩ := c
  cases t with
  | table =>
    simp only [Coordinator.execute] at hx
    split at hx
    · cases hx
    cases hx
    exact h.concat none rfl rfl (List.Subset.refl _) (by simp [obtainedId])
      (by simp [pendingStep,opensBy]) (by simp [pendingStep,opensBy,closesBy])
      (fun p hp => by simpa [pendingStep,opensBy,closesBy] using hp) rfl .inl
  | source =>
    simp only [Coordinator.execute] at hx
    split at hx
    · cases hx
    rename_i hv
    split at hx
    · cases hx
    split at hx
    · cases hx
    cases hx
    have hp := h.table
    rw [if_pos (by simpa using hv)] at hp
    exact h.concat (some (.baseTable st.tableSpecBuf desc)) rfl ⟨_,hp,rfl⟩
      (hfresh.registerBaseTable _ _ _) (by simp [obtainedId,Call.queryId?])
      (by simp [pendingStep,opensBy,closesBy]) (by simp [pendingStep,opensBy,closesBy])
      (fun p hp => by simpa [pendingStep,opensBy,closesBy] using hp) rfl .inl
  | query =>
    simp only [Coordinator.execute] at hx
    split at hx
    · cases hx
    cases hx
    exact h.concat none rfl rfl (List.Subset.refl _) (by simp [obtainedId])
      (by simp [pendingStep,opensBy,closesBy]) (by simp [pendingStep,opensBy])
      (fun p hp => by simpa [pendingStep,opensBy,closesBy] using hp) rfl .inl
  | dest =>
    simp only [Coordinator.execute] at hx
    split at hx
    · cases hx
    rename_i hv
    split at hx
    · cases hx
    split at hx
    · cases hx
    rename_i hrc
    cases hx
    have hp := h.query
    rw [if_pos (by simpa using hv)] at hp
    have hf := hfresh.registerQuery st.query (some desc) st.server (by simpa using hrc)
    exact h.concat (some (.query st.query (some desc) _)) rfl ⟨_,_,hp,rfl⟩
      (List.Subset.trans (List.subset_cons_self _ _) hf.2)
      (fun id hid => by
        simp only [obtainedId, Option.bind_some, Call.queryId?, Option.some.injEq] at hid
        exact hid ▸ ⟨hf.1,hf.2 List.mem_cons_self⟩)
      (by simp [pendingStep,opensBy,closesBy]) (by simp [pendingStep,opensBy,closesBy])
      (fun p hp => by simpa [pendingStep,opensBy,closesBy] using hp) rfl .inl
  | vquery =>
    simp only [Coordinator.execute] at hx
    split at hx
    · cases hx
    rename_i hrc
    cases hx
    have hf := hfresh.registerQuery desc none st.server (by simpa using hrc)
    exact h.concat (some (.query desc none _)) rfl ⟨_,rfl⟩
      (List.Subset.trans (List.subset_cons_self _ _) hf.2)
      (fun id hid => by
        simp only [obtainedId, Option.bind_some, Call.queryId?, Option.some.injEq] at hid
        exact hid ▸ ⟨hf.1,hf.2 List.mem_cons_self⟩)
      (by simp [pendingStep,opensBy,closesBy]) (by simp [pendingStep,opensBy,closesBy])
      (fun p _ => by simp [pendingStep,opensBy]) rfl (fun _ => .inr rfl)
  | vtable =>
    simp only [Coordinator.execute] at hx
    split at hx
    · cases hx
    rename_i hv
    split at hx
    · cases hx
    cases hx
    have hv' : st.bQueryIdValid = true := by simpa using hv
    obtain ⟨text,htext⟩ := Option.isSome_iff_exists.mp (h.view.trans hv')
    obtain ⟨id,hid⟩ := Option.isSome_iff_exists.mp (h.obtained hv')
    exact h.concat (some (.view st.queryId desc)) rfl ⟨text,id,htext,hid,by rw [h.queryId id hid]⟩
      (hfresh.registerView _ _ _) (by simp [obtainedId,Call.queryId?])
      (by simp [pendingStep,opensBy,closesBy]) (by simp [pendingStep,opensBy,closesBy])
      (fun p _ => by simp [pendingStep,opensBy,closesBy]) rfl (fun hf => by cases hf)
  | qclass =>
    simp only [Coordinator.execute] at hx
    cases hx
    exact h.concat none rfl rfl (hfresh.setCurrentQueryClass _ _) (by simp [obtainedId])
      (by simp [pendingStep,opensBy,closesBy]) (by simp [pendingStep,opensBy,closesBy])
      (fun p hp => by simpa [pendingStep,opensBy,closesBy] using hp) rfl .inl

theorem Tracks.run (hfresh : FreshIds server ids) (s : σ)
    (hrun : script.foldlM (Coordinator.execute server) (ApplnState.start s) = .ok st) : Tracks ids script st := by
  induction script using List.reverseRecOn generalizing st with
  | nil =>
    cases hrun
    exact Tracks.start s
  | append_singleton script c ih =>
    rw [List.foldlM_append] at hrun
    cases hm : script.foldlM (Coordinator.execute server) (ApplnState.start s) with
    | error rc => simp [hm,bind,Except.bind] at hrun
    | ok u =>
      simp only [hm, bind, Except.bind, List.foldlM_cons, List.foldlM_nil] at hrun
      apply (ih hm).execute hfresh
      cases he : Coordinator.execute server u c with
      | error rc => simp [he] at hrun
      | ok v => simpa [he,pure,Except.pure] using hrun

/-- Only the two commands that register a query obtain an id. -/
theorem Made.obtains {before : List Command} {callsBefore : List (Option Call)} {c : Command} {call : Option Call}
    (h : Made before callsBefore c call) :
    (obtainedId call).isSome = true ↔ c.type = .dest ∨ c.type = .vquery := by
  obtain ⟨t,desc⟩ := c
  cases t with
  | source =>
    obtain ⟨_,-,rfl⟩ := h
    simp [obtainedId,Call.queryId?]
  | dest =>
    obtain ⟨_,_,-,rfl⟩ := h
    simp [obtainedId,Call.queryId?]
  | vquery =>
    obtain ⟨_,rfl⟩ := h
    simp [obtainedId,Call.queryId?]
  | vtable =>
    obtain ⟨_,_,-,-,rfl⟩ := h
    simp [obtainedId,Call.queryId?]
  | _ =>
    obtain rfl : call = none := h
    simp [obtainedId]

/-- A view's id is the one obtained last, and a VQUERY is the last of its kind before it. -/
theorem Tracks.vtable (h : Tracks ids script st) {j : ℕ} {spec : List Char}
    (hj : script[j]? = some ⟨.vtable,spec⟩) :
    ∃ i m text id x, LastOpen (opensBy .vquery) (closesBy .vtable) (script.take j) i text ∧
      m < j ∧ st.calls[m]? = some x ∧ obtainedId x = some id ∧
      NoneBetween (fun y => obtainedId y ≠ none) st.calls m j ∧ st.calls[j]? = some (some (.view id spec)) := by
  obtain ⟨_,hcall,text,id,htext,hid,rfl⟩ := h.made j _ hj
  obtain ⟨i,hi⟩ := pending_eq_some_iff.mp htext
  obtain ⟨m,hm⟩ := pending_eq_some_iff.mp hid
  obtain ⟨hlt,⟨x,hx,ho⟩,hno,-⟩ := hm.noneBetween
  exact ⟨i,m,text,id,x,hi,hlt,hx,ho,hno,hcall⟩

theorem viewsNamed_iff (h : Tracks ids script st) : ViewsNamed script st.calls ↔ ViewsKept script := by
  constructor
  · intro hn k j dest spec hkj hk hj
    obtain ⟨i,⟨text,id,hi,hci,hcj⟩,-⟩ := hn j spec hj
    obtain ⟨_,m,_,id',x,-,hmj,hx,ho,hno,hcall⟩ := h.vtable hj
    have hid : id' = id := by simpa [hcall] using hcj
    subst hid
    have him : i = m := h.distinct i m _ x id' hci hx rfl ho
    subst him
    obtain ⟨y,hy,hmade⟩ := h.made k _ hk
    have hget : obtainedId y ≠ none := Option.isSome_iff_ne_none.mp (hmade.obtains.mpr (.inl rfl))
    obtain hlt | rfl | hgt := Nat.lt_trichotomy k i
    · exact ⟨i,text,hlt,hmj,hi⟩
    · rw [hk] at hi
      cases hi
    · exact absurd hget (hno k y hgt hkj hy)
  · intro hkept j spec hj
    obtain ⟨i,m,text,id,x,hi,hmj,hx,ho,hno,hcall⟩ := h.vtable hj
    obtain ⟨hij,⟨c,hc,hb⟩,hnone,-⟩ := hi.noneBetween
    obtain rfl := opensBy_eq_some.mp hb
    simp only [opensBy_ne_none] at hnone
    obtain ⟨_,hci,id',rfl⟩ := h.made i _ hc
    have hmi : m = i := by
      obtain hlt | heq | hgt := Nat.lt_trichotomy m i
      · exact absurd (by simp [obtainedId,Call.queryId?]) (hno i _ hlt hij hci)
      · exact heq
      · -- the id would come from a DEST behind the VQUERY
        have hlen := h.length
        have hm := (List.getElem?_eq_some_iff.mp hx).1
        obtain ⟨d,hd⟩ : ∃ d, script[m]? = some d := ⟨_,List.getElem?_eq_getElem (by omega)⟩
        obtain ⟨y,hy,hmade⟩ := h.made m d hd
        rw [hx, Option.some.injEq] at hy
        subst hy
        obtain ⟨t,desc⟩ := d
        obtain rfl | rfl : t = .dest ∨ t = .vquery := hmade.obtains.mp (by simp [ho])
        · obtain ⟨l,text',hml,hlj,hl⟩ := hkept m j desc spec hmj hd hj
          exact absurd rfl (hnone l _ (hgt.trans hml) hlj hl)
        · exact absurd rfl (hnone m _ hgt hmj hd)
    subst hmi
    rw [hci, Option.some.injEq] at hx
    subst hx
    have hid : id' = id := by simpa [obtainedId,Call.queryId?] using ho
    subst hid
    refine ⟨m,⟨text,id',hc,hci,hcall⟩,?_⟩
    rintro k ⟨text',id'',-,hck,hcj⟩
    have hid' : id' = id'' := by simpa [hcall] using hcj
    subst hid'
    exact h.distinct k m _ _ id' hck hci rfl rfl

/-- For a script that registers: every TABLE and QUERY is registered once, with the
SOURCE or DEST behind it, and every VTABLE names the result of one VQUERY, exactly when
no TABLE and no QUERY replaces one that waits, and no DEST stands between a VTABLE and
the VQUERY before it. -/
theorem registerAppln_pairs_iff (hfresh : FreshIds server ids) {s s' : σ} {calls : List (Option Call)}
    (hok : registerAppln server script s = .ok (calls,s')) :
    (EachRegisteredOnce .table .source tableCall script calls ∧
      EachRegisteredOnce .query .dest queryCall script calls ∧ ViewsNamed script calls) ↔
    OneAtATime .table .source script ∧ OneAtATime .query .dest script ∧ ViewsKept script := by
  obtain ⟨b,st,hrun,hq,ht,rfl⟩ : ∃ (b : σ) (st : ApplnState σ),
      script.foldlM (Coordinator.execute server) (ApplnState.start b) = .ok st ∧
      st.bQueryValid = false ∧ st.bTableSpecValid = false ∧ st.calls = calls := by
    simp only [registerAppln] at hok
    split at hok
    · cases hok
    split at hok
    · cases hok
    rename_i st hrun
    split at hok
    · cases hok
    rename_i hflags
    split at hok
    · cases hok
    cases hok
    simp only [Bool.or_eq_true, not_or, Bool.not_eq_true] at hflags
    exact ⟨_,st,hrun,hflags.1.1,hflags.2,rfl⟩
  have h := Tracks.run hfresh b hrun
  have htable : EachRegisteredOnce .table .source tableCall script st.calls ↔ OneAtATime .table .source script := by
    apply eachRegisteredOnce_iff (by decide)
    · intro j arg hj
      obtain ⟨_,hcall,spec,hp,rfl⟩ := h.made j _ hj
      exact ⟨spec,_,hp,hcall,rfl⟩
    · rw [h.table, ht, if_neg (by decide)]
  have hquery : EachRegisteredOnce .query .dest queryCall script st.calls ↔ OneAtATime .query .dest script := by
    apply eachRegisteredOnce_iff (by decide)
    · intro j arg hj
      obtain ⟨_,hcall,text,id,hp,rfl⟩ := h.made j _ hj
      exact ⟨text,_,hp,hcall,id,rfl⟩
    · rw [h.query, hq, if_neg (by decide)]
  rw [htable, hquery, viewsNamed_iff h]

end Run

def countingServer : Server ℕ where
  beginAppSpecification n := (0,n)
  registerBaseTable _ _ n := (0,n)
  registerQuery _ _ n := (0,n,n+1)
  registerView _ _ n := (0,n)
  setCurrentQueryClass _ n := n
  endAppSpecification n := (0,n)

theorem countingServer_fresh : FreshIds countingServer List.range where
  registerQuery text output n _ := by simp [countingServer,List.range_succ]
  registerBaseTable _ _ n := List.Subset.refl _
  registerView _ _ n := List.Subset.refl _
  setCurrentQueryClass _ n := List.Subset.refl _

/-- A second QUERY replaces the first, which is never registered. -/
theorem replaced_query_dropped :
    ∃ calls s', registerAppln countingServer [⟨.query,['a']⟩,⟨.query,['b']⟩,⟨.dest,['f']⟩] 0 = .ok (calls,s') ∧
      ¬ EachRegisteredOnce .query .dest queryCall [⟨.query,['a']⟩,⟨.query,['b']⟩,⟨.dest,['f']⟩] calls := by
  refine ⟨_,_,rfl,fun h => ?_⟩
  obtain ⟨j,⟨hj,hnone,_,arg,_,-,hdest,-⟩,-⟩ := h 0 ['a'] rfl
  obtain _ | _ | _ | j := j
  · cases hj
  · cases hdest
  · exact hnone 1 ⟨.query,['b']⟩ (by decide) (by decide) rfl rfl
  · cases hdest

/-- A table, a query and a view, each completed before the next of its kind. -/
def completeScript : List Command :=
  [⟨.table,['S']⟩, ⟨.query,['a']⟩, ⟨.source,['s']⟩, ⟨.qclass,['2']⟩, ⟨.dest,['f']⟩, ⟨.vquery,['v']⟩, ⟨.vtable,['V']⟩]

theorem completeScript_registered :
    ∃ calls s', registerAppln countingServer completeScript 0 = .ok (calls,s') ∧
      EachRegisteredOnce .table .source tableCall completeScript calls ∧
      EachRegisteredOnce .query .dest queryCall completeScript calls ∧ ViewsNamed completeScript calls := by
  have hok : ∃ calls s', registerAppln countingServer completeScript 0 = .ok (calls,s') := ⟨_,_,rfl⟩
  obtain ⟨calls,s',hok⟩ := hok
  refine ⟨calls,s',hok,(registerAppln_pairs_iff countingServer_fresh hok).mpr ⟨?_,?_,?_⟩⟩
  · intro i k text text' hik hi hk
    obtain _ | _ | _ | _ | _ | _ | _ | k := k <;> simp [completeScript] at hk hik
  · intro i k text text' hik hi hk
    obtain _ | _ | _ | _ | _ | _ | _ | k := k <;> simp [completeScript] at hk hik
    subst hik
    cases hi
  · intro k j dest spec hkj hk hj
    obtain _ | _ | _ | _ | _ | _ | _ | k := k <;> simp [completeScript] at hk
    obtain _ | _ | _ | _ | _ | _ | _ | j := j <;> simp [completeScript] at hj
    exact ⟨5,['v'],by decide,by decide,rfl⟩

end AqsiosCoordinator.Coordinator
