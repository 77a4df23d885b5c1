import AqsiosCoordinator.Metadata.Bypass

/-! # The transformations keep the plan graph -/
namespace AqsiosCoordinator.Physical
open Common Foundation Foundation.Outcome

def mayBeUnread (k : OperatorKind) : Bool := k = .output || k = .sink || k = .ssGen

def AllRead (s : PlanState) : Prop := ∀ o ∈ s.used, mayBeUnread (s.ops o).body.kind ∨ (s.ops o).outputs ≠ []

def NoQuerySource (s : PlanState) : Prop := ∀ o ∈ s.used, (s.ops o).body.kind ≠ .querySource

variable {s t u : PlanState} {op i : OpId}

theorem single_input (hs : Sound s) (hop : op ∈ s.used) (ha : (s.ops op).body.arity = 1) :
    ∃ i, (s.ops op).inputs = [i] ∧ i ≠ op := by
  obtain ⟨i,hi⟩ := List.length_eq_one_iff.mp ((hs.arity op hop).trans ha)
  exact ⟨i,hi,input_ne_of_acyclic hs.acyclic hop hi⟩

theorem Removed.noQuerySource {done rest : List OpId} (h : Removed done rest op i s u) (hq : NoQuerySource s) :
    NoQuerySource u := by
  intro o ho
  obtain ⟨ins,outs,-,heq⟩ := h.fields o
  rw [heq]
  exact hq o (h.mem_before ho)

/-- The input of a removed operator is read by the operator's readers. -/
theorem Removed.allRead {done rest : List OpId} (h : Removed done rest op i s u) (ha : AllRead s)
    (hop : ¬ mayBeUnread (s.ops op).body.kind) (hs : PoolInv s) : AllRead u := by
  intro o ho
  obtain ⟨ins,outs,-,heq⟩ := h.fields o
  have hbody : (u.ops o).body = (s.ops o).body := by rw [heq]
  have hne : o ≠ op := by
    rintro rfl
    rw [h.erase hs, hs.nodup.mem_erase_iff] at ho
    exact ho.1 rfl
  rw [hbody]
  by_cases hoi : o = i
  · subst hoi
    have hout := (ha op h.op_mem).resolve_left hop
    refine .inr fun hnil => hout ?_
    have hlen := h.bypassed.outputs_input.length_eq
    simp only [ports_outputs, hnil, List.length_nil, List.length_append] at hlen
    exact List.eq_nil_of_length_eq_zero (by omega)
  · have hout : (u.ops o).outputs = (s.ops o).outputs := h.bypassed.outputs_other o (h.mem_before ho) hne hoi
    rw [hout]
    exact ha o (h.mem_before ho)

theorem isQuerySource_ok {b : Bool} : isQuerySource op s = .ok b t ↔
    decide ((s.ops op).body.kind = .querySource) = b ∧ s = t := by
  constructor
  · intro h
    cases h
    exact ⟨rfl,rfl⟩
  · rintro ⟨rfl,rfl⟩
    rfl

/-- The loop that removes the query sources, with `done` behind it. -/
structure QuerySourcesRemoved (done rest : List OpId) (s : PlanState) : Prop where
  sound : Sound s
  used : s.used = done ++ rest
  kept : ∀ o ∈ done, (s.ops o).body.kind ≠ .querySource

theorem QuerySourcesRemoved.keep {done rest : List OpId} (h : QuerySourcesRemoved done (op :: rest) s)
    (hk : (s.ops op).body.kind ≠ .querySource) : QuerySourcesRemoved (done ++ [op]) rest s := by
  refine ⟨h.sound,by simpa using h.used,fun o ho => ?_⟩
  rcases List.mem_append.mp ho with ho | ho
  · exact h.kept o ho
  · rw [List.mem_singleton.mp ho]
    exact hk

theorem QuerySourcesRemoved.removed {done rest : List OpId} {next : Option OpId}
    (h : QuerySourcesRemoved done (op :: rest) s) (hk : (s.ops op).body.kind = .querySource)
    (hr : removeOp op s = .ok next u) : next = rest.head? ∧ ∃ i, Removed done rest op i s u := by
  have hop : op ∈ s.used := by simp [h.used]
  have harity : (s.ops op).body.arity = 1 := by
    cases hb : (s.ops op).body <;> simp [hb,Body.kind,Body.arity] at hk ⊢
  obtain ⟨i,hin,hi⟩ := single_input h.sound hop harity
  obtain ⟨hnext,hrem⟩ := removeOp_ok h.sound.pool h.sound.consistent h.used hin hi hr
  exact ⟨hnext,i,hrem⟩

theorem QuerySourcesRemoved.remove {done rest : List OpId} {next : Option OpId}
    (h : QuerySourcesRemoved done (op :: rest) s) (hk : (s.ops op).body.kind = .querySource)
    (hr : removeOp op s = .ok next u) : next = rest.head? ∧ QuerySourcesRemoved done rest u := by
  obtain ⟨hnext,i,hrem⟩ := h.removed hk hr
  refine ⟨hnext,hrem.sound h.sound,hrem.used,fun o ho => ?_⟩
  obtain ⟨ins,outs,-,heq⟩ := hrem.fields o
  rw [heq]
  exact h.kept o ho

theorem removeQuerySources_sound {a : Unit} (hs : Sound s) (h : removeQuerySources s = .ok a t) :
    Sound t ∧ NoQuerySource t := by
  obtain ⟨_,_,h1,h⟩ := bind_eq_ok.mp h
  obtain ⟨rfl,rfl⟩ := get_eq_ok.mp h1
  rw [hs.pool.usedList.head_eq] at h
  have hstart : QuerySourcesRemoved [] s.used s := ⟨hs,rfl,by simp⟩
  have hrun : ∃ kept, QuerySourcesRemoved kept [] t := by
    refine removeWhere_rule (fun _ _ _ h => ⟨h.sound.pool,h.used⟩) (fun done op rest r r' hr hm => ?_)
      (fun done op rest r r' r'' next hr hm hrem => ?_) hstart h
    · obtain ⟨hk,rfl⟩ := isQuerySource_ok.mp hm
      exact hr.keep (by simpa using hk)
    · obtain ⟨hk,rfl⟩ := isQuerySource_ok.mp hm
      exact hr.remove (by simpa using hk) hrem
  obtain ⟨kept,hdone⟩ := hrun
  refine ⟨hdone.sound,fun o ho => hdone.kept o ?_⟩
  rwa [hdone.used, List.append_nil] at ho

/-- The loop that adds the sinks: the operators in front of `rest` are read. -/
structure SinksAdded (rest : List OpId) (s : PlanState) : Prop where
  sound : Sound s
  noQuery : NoQuerySource s
  used : ∃ done, s.used = done ++ rest ∧ ∀ o ∈ done, mayBeUnread (s.ops o).body.kind ∨ (s.ops o).outputs ≠ []

theorem SinksAdded.skip {rest : List OpId} (h : SinksAdded (op :: rest) s) (hn : needsSink (s.ops op) = false) :
    SinksAdded rest s := by
  obtain ⟨done,hused,hread⟩ := h.used
  refine ⟨h.sound,h.noQuery,done ++ [op],by simpa using hused,fun o ho => ?_⟩
  rcases List.mem_append.mp ho with ho | ho
  · exact hread o ho
  · rw [List.mem_singleton.mp ho]
    by_cases hout : (s.ops op).outputs = []
    · simp only [needsSink, hout, List.length_nil, decide_true, Bool.true_and, Bool.and_eq_false_iff,
        decide_eq_false_iff_not, not_not] at hn
      rcases hn with hk | hk <;> simp [mayBeUnread,hk]
    · exact .inr hout

theorem SinksAdded.add {rest : List OpId} {sink : OpId} (h : SinksAdded (op :: rest) s)
    (hm : mkSink op s = .ok sink t) : SinksAdded rest t := by
  obtain ⟨done,hused,hread⟩ := h.used
  have hop : op ∈ s.used := by simp [hused]
  have hadd := mkUnary_ok h.sound.pool hop hm
  have hne : ∀ o ∈ s.used, o ≠ sink := fun o ho he => hadd.not_mem h.sound.pool (he ▸ ho)
  refine ⟨hadd.sound h.sound rfl trivial,fun o ho => ?_,sink :: (done ++ [op]),?_,fun o ho => ?_⟩
  · rw [hadd.used] at ho
    rcases List.mem_cons.mp ho with rfl | ho
    · simp [hadd.self,Body.kind]
    · rw [hadd.other o (hne o ho)]
      exact h.noQuery o ho
  · rw [hadd.used, hused]
    simp
  · rcases List.mem_cons.mp ho with rfl | ho
    · simp [hadd.self,Body.kind,mayBeUnread]
    · have hou : o ∈ s.used := by
        rw [hused]
        simp only [List.mem_append, List.mem_cons, List.not_mem_nil, or_false] at ho ⊢
        tauto
      rw [hadd.other o (hne o hou)]
      rcases List.mem_append.mp ho with ho | ho
      · exact (hread o ho).imp id fun h1 => by simp [h1]
      · rw [List.mem_singleton.mp ho]
        exact .inr (by simp)

/-- The loop that adds the sinks: `rest` is what it has not reached. -/
theorem addSinksFrom_rule {I : List OpId → PlanState → Prop}
    (hI : ∀ rest s, I rest s → PoolInv s ∧ ∃ done, s.used = done ++ rest)
    (hskip : ∀ op rest s, I (op :: rest) s → needsSink (s.ops op) = false → I rest s)
    (hadd : ∀ op rest s sink t, I (op :: rest) s → mkSink op s = .ok sink t → I rest t)
    {fuel : ℕ} {rest : List OpId} {a : Unit} (hs : I rest s) (h : addSinksFrom fuel rest.head? s = .ok a t) : I [] t := by
  induction fuel generalizing rest s with
  | zero =>
    cases rest with
    | nil =>
      obtain ⟨-,rfl⟩ := pure_eq_ok.mp h
      exact hs
    | cons op rest => simp [addSinksFrom] at h
  | succ fuel ih =>
    cases rest with
    | nil =>
      obtain ⟨-,rfl⟩ := pure_eq_ok.mp h
      exact hs
    | cons op rest =>
      have hnext {r : PlanState} (hr : PoolInv r) (hu : ∃ done, r.used = done ++ op :: rest) :
          r.links.next op = rest.head? := by
        obtain ⟨done,hu⟩ := hu
        have hlist := hr.usedList
        rw [hu] at hlist
        exact hlist.next_eq
      obtain ⟨hpool,hused⟩ := hI _ _ hs
      unfold addSinksFrom at h
      obtain ⟨_,_,h1,h⟩ := bind_eq_ok.mp h
      obtain ⟨rfl,rfl⟩ := getOp_ok.mp h1
      split at h
      · obtain ⟨sink,r,h2,h⟩ := bind_eq_ok.mp h
        obtain ⟨next,r',h3,h⟩ := bind_eq_ok.mp h
        obtain ⟨rfl,rfl⟩ := nextOp_ok.mp h3
        have hr := hadd op rest s sink r hs h2
        obtain ⟨done,hu⟩ := hused
        have hop : op ∈ s.used := by simp [hu]
        have hur : r.used = sink :: s.used := (mkUnary_ok hpool hop h2).used
        rw [hnext (hI _ _ hr).1 ⟨sink :: done,by rw [hur, hu]; rfl⟩] at h
        exact ih hr h
      · rename_i hn
        obtain ⟨next,r',h3,h⟩ := bind_eq_ok.mp h
        obtain ⟨rfl,rfl⟩ := nextOp_ok.mp h3
        rw [hnext hpool hused] at h
        exact ih (hskip op rest s hs (by simpa using hn)) h

theorem addSinks_sound {a : Unit} (hs : Sound s) (hq : NoQuerySource s) (h : addSinks s = .ok a t) :
    Sound t ∧ NoQuerySource t ∧ AllRead t := by
  obtain ⟨_,_,h1,h⟩ := bind_eq_ok.mp h
  obtain ⟨rfl,rfl⟩ := get_eq_ok.mp h1
  rw [hs.pool.usedList.head_eq] at h
  obtain ⟨h2,h3,done,hused,hread⟩ := addSinksFrom_rule (I := SinksAdded)
    (fun _ _ h => ⟨h.sound.pool,h.used.imp fun _ h => h.1⟩) (fun _ _ _ h hn => h.skip hn) (fun _ _ _ _ _ h hm => h.add hm)
    ⟨hs,hq,[],rfl,by simp⟩ h
  refine ⟨h2,h3,fun o ho => hread o ?_⟩
  rwa [hused, List.append_nil] at ho

/-- What a select is merged into stays an operator of its kind. -/
theorem selectInto_spec {pred : List BExpr} {body body' : Body} (h : selectInto pred body = some body') :
    body'.kind = body.kind ∧ body'.arity = body.arity ∧ ∀ n, body.Complete n → body'.Complete n := by
  cases body <;> simp only [selectInto, Option.some.injEq, reduceCtorEq] at h
  · subst h
    refine ⟨rfl,rfl,fun n hn => ?_⟩
    simp only [Body.Complete] at hn ⊢
    simp [hn]
  · subst h
    exact ⟨rfl,rfl,fun _ h => h⟩
  · subst h
    exact ⟨rfl,rfl,fun _ h => h⟩

/-- A merge that succeeds has changed the predicate of the input, one that fails nothing. -/
theorem mergeSelect_ok {b : Bool} (h : mergeSelect op s = .ok b t) : (b = false ∧ s = t) ∨
    ∃ pred inOp ins body', b = true ∧ (s.ops op).body = .select pred ∧ (s.ops op).inputs = inOp :: ins ∧
      (s.ops inOp).outputs.length = 1 ∧ selectInto pred (s.ops inOp).body = some body' ∧
      s.setOp inOp { s.ops inOp with body := body' } = t := by
  obtain ⟨_,_,h1,h⟩ := bind_eq_ok.mp h
  obtain ⟨rfl,rfl⟩ := getOp_ok.mp h1
  cases hbody : (s.ops op).body with
  | select pred =>
    cases hins : (s.ops op).inputs with
    | nil => simp [hbody,hins] at h
    | cons inOp ins =>
      simp only [hbody, hins] at h
      obtain ⟨_,_,h2,h⟩ := bind_eq_ok.mp h
      obtain ⟨rfl,rfl⟩ := getOp_ok.mp h2
      split at h
      · obtain ⟨rfl,rfl⟩ := pure_eq_ok.mp h
        exact .inl ⟨rfl,rfl⟩
      · rename_i hlen
        cases hinto : selectInto pred (s.ops inOp).body with
        | none =>
          simp only [hinto] at h
          obtain ⟨rfl,rfl⟩ := pure_eq_ok.mp h
          exact .inl ⟨rfl,rfl⟩
        | some body' =>
          simp only [hinto] at h
          obtain ⟨_,_,h3,h⟩ := bind_eq_ok.mp h
          obtain ⟨rfl,rfl⟩ := pure_eq_ok.mp h
          exact .inr ⟨pred,inOp,ins,body',rfl,rfl,rfl,not_not.mp hlen,hinto,modifyOp_ok.mp h3⟩
  | _ =>
    simp only [hbody] at h
    obtain ⟨rfl,rfl⟩ := pure_eq_ok.mp h
    exact .inl ⟨rfl,rfl⟩

structure SelectsMerged (done rest : List OpId) (s : PlanState) : Prop where
  sound : Sound s
  noQuery : NoQuerySource s
  allRead : AllRead s
  used : s.used = done ++ rest

/-- Changing the parameters of an operator, but not its kind. -/
theorem SelectsMerged.setBody {done rest : List OpId} {body : Body} (h : SelectsMerged done rest s)
    (hk : body.kind = (s.ops op).body.kind) (ha : body.arity = (s.ops op).body.arity)
    (hc : ∀ n, (s.ops op).body.Complete n → body.Complete n) :
    SelectsMerged done rest (s.setOp op { s.ops op with body := body }) := by
  have hops (o : OpId) : ∃ b, (s.setOp op { s.ops op with body := body }).ops o = { s.ops o with body := b } ∧
      b.kind = (s.ops o).body.kind ∧ b.arity = (s.ops o).body.arity ∧
      ((s.ops o).body.Complete (s.ops o).attrs.length → b.Complete (s.ops o).attrs.length) := by
    by_cases ho : o = op
    · subst ho
      exact ⟨body,setOp_ops_self _ _,hk,ha,hc _⟩
    · exact ⟨(s.ops o).body,setOp_ops_of_ne _ ho,rfl,rfl,id⟩
  refine ⟨h.sound.of_bodies (h.sound.pool.setOp _ _) rfl fun o => ?_,fun o ho => ?_,fun o ho => ?_,h.used⟩
  · obtain ⟨b,h1,-,h2,h3⟩ := hops o
    exact ⟨b,h1,h2,h3⟩
  · obtain ⟨b,h1,h2,-⟩ := hops o
    rw [h1]
    exact h2 ▸ h.noQuery o ho
  · obtain ⟨b,h1,h2,-⟩ := hops o
    rw [h1]
    simp only [h2]
    exact h.allRead o ho

/-- A select that is merged extends the predicate of its input, which nobody else reads, and is removed. -/
theorem SelectsMerged.removed {done rest : List OpId} {next : Option OpId} (h : SelectsMerged done (op :: rest) s)
    (hm : mergeSelect op s = .ok true t) (hr : removeOp op t = .ok next u) :
    next = rest.head? ∧ ∃ pred i body, (s.ops op).body = .select pred ∧ (s.ops op).inputs = [i] ∧ i ≠ op ∧
      (s.ops i).outputs.length = 1 ∧ selectInto pred (s.ops i).body = some body ∧
      t = s.setOp i { s.ops i with body := body } ∧ SelectsMerged done (op :: rest) t ∧
      Removed done rest op i t u := by
  rcases mergeSelect_ok hm with ⟨he,-⟩ | ⟨pred,inOp,ins,body,-,hbody,hins,hlen,hinto,rfl⟩
  · simp at he
  · obtain ⟨h1,h2,h3⟩ := selectInto_spec hinto
    have ht := h.setBody h1 h2 h3
    have hop : op ∈ s.used := by simp [h.used]
    obtain ⟨i,hin,hi⟩ := single_input h.sound hop (by rw [hbody]; rfl)
    obtain ⟨rfl,rfl⟩ : inOp = i ∧ ins = [] := by simpa [hins] using hin
    have hself : (s.setOp inOp { s.ops inOp with body := body }).ops op = s.ops op :=
      setOp_ops_of_ne _ (Ne.symm hi)
    obtain ⟨hnext,hrem⟩ := removeOp_ok ht.sound.pool ht.sound.consistent ht.used (by rw [hself, hin]) hi hr
    exact ⟨hnext,pred,inOp,body,hbody,hin,hi,hlen,hinto,rfl,ht,hrem⟩

theorem SelectsMerged.merge {done rest : List OpId} {next : Option OpId} (h : SelectsMerged done (op :: rest) s)
    (hm : mergeSelect op s = .ok true t) (hr : removeOp op t = .ok next u) :
    next = rest.head? ∧ SelectsMerged done rest u := by
  obtain ⟨hnext,pred,i,body,hbody,-,hi,-,-,rfl,ht,hrem⟩ := h.removed hm hr
  refine ⟨hnext,hrem.sound ht.sound,hrem.noQuerySource ht.noQuery,hrem.allRead ht.allRead ?_ ht.sound.pool,hrem.used⟩
  rw [setOp_ops_of_ne _ (Ne.symm hi), hbody]
  simp [Body.kind,mayBeUnread]

theorem mergeSelects_sound {a : Unit} (hs : Sound s) (hq : NoQuerySource s) (hr : AllRead s)
    (h : mergeSelects s = .ok a t) : Sound t ∧ NoQuerySource t ∧ AllRead t := by
  obtain ⟨_,_,h1,h⟩ := bind_eq_ok.mp h
  obtain ⟨rfl,rfl⟩ := get_eq_ok.mp h1
  rw [hs.pool.usedList.head_eq] at h
  have hstart : SelectsMerged [] s.used s := ⟨hs,hq,hr,rfl⟩
  have hrun : ∃ kept, SelectsMerged kept [] t := by
    refine removeWhere_rule (fun _ _ _ h => ⟨h.sound.pool,h.used⟩) (fun done op rest r r' hr hm => ?_)
      (fun done op rest r r' r'' next hr hm hrem => hr.merge hm hrem) hstart h
    rcases mergeSelect_ok hm with ⟨-,rfl⟩ | ⟨_,_,_,_,he,-⟩
    · exact ⟨hr.sound,hr.noQuery,hr.allRead,by simpa using hr.used⟩
    · simp at he
  obtain ⟨kept,hdone⟩ := hrun
  exact ⟨hdone.sound,hdone.noQuery,hdone.allRead⟩

/-- A project that is merged into the join below has handed its schema and its expressions on. -/
theorem mergeProject_ok {b : Bool} (h : mergeProject op s = .ok b t) : (b = false ∧ s = t) ∨
    ∃ projs inOp ins body', b = true ∧ (s.ops op).body = .project projs ∧ (s.ops op).inputs = inOp :: ins ∧
      (s.ops inOp).outputs.length ≤ 1 ∧ (s.ops op).attrs.length ≤ projs.length ∧
      projectInto (projs.take (s.ops op).attrs.length) (s.ops inOp).body = some body' ∧
      s.setOp inOp { s.ops inOp with body := body', attrs := (s.ops op).attrs } = t := by
  obtain ⟨_,_,h1,h⟩ := bind_eq_ok.mp h
  obtain ⟨rfl,rfl⟩ := getOp_ok.mp h1
  cases hbody : (s.ops op).body with
  | project projs =>
    cases hins : (s.ops op).inputs with
    | nil => simp [hbody,hins] at h
    | cons inOp ins =>
      simp only [hbody, hins] at h
      obtain ⟨_,_,h2,h⟩ := bind_eq_ok.mp h
      obtain ⟨rfl,rfl⟩ := getOp_ok.mp h2
      split at h
      · obtain ⟨rfl,rfl⟩ := pure_eq_ok.mp h
        exact .inl ⟨rfl,rfl⟩
      · rename_i hlen1
        cases hinto : projectInto (projs.take (s.ops op).attrs.length) (s.ops inOp).body with
        | none =>
          simp only [hinto] at h
          obtain ⟨rfl,rfl⟩ := pure_eq_ok.mp h
          exact .inl ⟨rfl,rfl⟩
        | some body' =>
          simp only [hinto] at h
          obtain ⟨_,_,h3,h⟩ := bind_eq_ok.mp h
          obtain ⟨hlen,rfl⟩ := failIf_eq_ok.mp h3
          obtain ⟨_,_,h4,h⟩ := bind_eq_ok.mp h
          obtain ⟨rfl,rfl⟩ := pure_eq_ok.mp h
          exact .inr ⟨projs,inOp,ins,body',rfl,rfl,rfl,not_lt.mp hlen1,not_lt.mp hlen,hinto,modifyOp_ok.mp h4⟩
  | _ =>
    simp only [hbody] at h
    obtain ⟨rfl,rfl⟩ := pure_eq_ok.mp h
    exact .inl ⟨rfl,rfl⟩

/-- Any plan that is consistent and acyclic, whose projects have one input. -/
structure Plausible (s : PlanState) : Prop where
  pool : PoolInv s
  consistent : s.ports.Consistent s.used
  acyclic : s.ports.Acyclic s.used
  projects : ∀ o ∈ s.used, (s.ops o).body.kind = .project → (s.ops o).inputs.length = 1

theorem Plausible.removed {done rest : List OpId} (h : Plausible s) (hr : Removed done rest op i s u) : Plausible u := by
  refine ⟨hr.pool,hr.consistent h.pool h.consistent,hr.acyclic h.pool h.consistent h.acyclic,fun o ho hk => ?_⟩
  obtain ⟨ins,outs,hlen,heq⟩ := hr.fields o
  rw [heq] at hk ⊢
  exact hlen.trans (h.projects o (hr.mem_before ho) hk)

/-- Changing an operator that does not become a project, apart from its edges. -/
theorem Plausible.setOp {x : Operator} (h : Plausible s) (hi : x.inputs = (s.ops op).inputs)
    (ho : x.outputs = (s.ops op).outputs) (hk : x.body.kind ≠ .project) : Plausible (s.setOp op x) := by
  have hops (p : OpId) : (((s.setOp op x).ops p).inputs = (s.ops p).inputs ∧
      ((s.setOp op x).ops p).outputs = (s.ops p).outputs) ∧
      (((s.setOp op x).ops p).body.kind = .project → (s.ops p).body.kind = .project) := by
    by_cases hp : p = op
    · subst hp
      rw [setOp_ops_self]
      exact ⟨⟨hi,ho⟩,fun h => absurd h hk⟩
    · rw [setOp_ops_of_ne _ hp]
      exact ⟨⟨rfl,rfl⟩,id⟩
  refine ⟨h.pool.setOp _ _,h.consistent.congr (fun p _ => (hops p).1.1) fun p _ => (hops p).1.2,?_,fun p hp hkp => ?_⟩
  · have hreads : (s.setOp op x).ports.Reads = s.ports.Reads := by
      funext p c
      simp only [Ports.Reads, ports_inputs, (hops p).1.1]
    unfold Ports.Acyclic
    rw [hreads]
    exact h.acyclic
  · rw [(hops p).1.1]
    exact h.projects p hp ((hops p).2 hkp)

theorem projectInto_kind {projs : List Expr} {body body' : Body} (h : projectInto projs body = some body') :
    body'.kind ≠ .project := by
  cases body <;> simp only [projectInto, Option.some.injEq, reduceCtorEq] at h
  · subst h
    simp [Body.kind]
  · subst h
    simp [Body.kind]

/-- A project that is merged makes its input, which nobody else reads, a join with projections, and is removed. -/
theorem Plausible.fused {done rest : List OpId} {next : Option OpId} (h : Plausible s)
    (hused : s.used = done ++ op :: rest) (hm : mergeProject op s = .ok true t) (hr : removeOp op t = .ok next u) :
    next = rest.head? ∧ ∃ projs i body, (s.ops op).body = .project projs ∧ (s.ops op).inputs = [i] ∧ i ≠ op ∧
      (s.ops i).outputs = [op] ∧ projectInto (projs.take (s.ops op).attrs.length) (s.ops i).body = some body ∧
      t = s.setOp i { s.ops i with body := body, attrs := (s.ops op).attrs } ∧ Plausible t ∧ Removed done rest op i t u := by
  rcases mergeProject_ok hm with ⟨he,-⟩ | ⟨projs,i,ins,body,-,hbody,hins,hlen,-,hinto,rfl⟩
  · simp at he
  · have hop : op ∈ s.used := by simp [hused]
    have hne : i ≠ op := by
      rintro rfl
      exact h.acyclic i hop (.single (by simp [Ports.Reads,hins]))
    have ht : Plausible (s.setOp i { s.ops i with body := body, attrs := (s.ops op).attrs }) :=
      h.setOp rfl rfl (projectInto_kind hinto)
    have hone := h.projects op hop (by rw [hbody]; rfl)
    rw [hins] at hone
    obtain rfl : ins = [] := by simpa using hone
    have hin : ((s.setOp i { s.ops i with body := body, attrs := (s.ops op).attrs }).ops op).inputs = [i] := by
      rw [setOp_ops_of_ne _ (Ne.symm hne), hins]
    obtain ⟨hnext,hrem⟩ := removeOp_ok ht.pool ht.consistent hused hin hne hr
    have hmem : op ∈ (s.ops i).outputs :=
      (h.consistent.mem_iff hop (h.consistent.inputs_mem op hop i (by simp [hins]))).mp (by simp [hins])
    exact ⟨hnext,projs,i,body,hbody,hins,hne,eq_singleton_of_mem hmem hlen,hinto,rfl,ht,hrem⟩

theorem Plausible.mergeProject {done rest : List OpId} {next : Option OpId} (h : Plausible s)
    (hused : s.used = done ++ op :: rest) (hm : mergeProject op s = .ok true t) (hr : removeOp op t = .ok next u) :
    next = rest.head? ∧ Plausible u ∧ u.used = done ++ rest := by
  obtain ⟨hnext,_,_,_,-,-,-,-,-,-,ht,hrem⟩ := h.fused hused hm hr
  exact ⟨hnext,ht.removed hrem,hrem.used⟩

theorem mergeProjectsToJoin_plausible {a : Unit} (hs : Plausible s) (h : mergeProjectsToJoin s = .ok a t) :
    Plausible t := by
  obtain ⟨_,_,h1,h⟩ := bind_eq_ok.mp h
  obtain ⟨rfl,rfl⟩ := get_eq_ok.mp h1
  rw [hs.pool.usedList.head_eq] at h
  have hstart : Plausible s ∧ s.used = [] ++ s.used := ⟨hs,rfl⟩
  have hrun : ∃ kept, Plausible t ∧ t.used = kept ++ [] := by
    refine removeWhere_rule (I := fun done rest r => Plausible r ∧ r.used = done ++ rest)
      (fun _ _ _ h => ⟨h.1.pool,h.2⟩) (fun done op rest r r' hr hm => ?_)
      (fun done op rest r r' r'' next hr hm hrem => hr.1.mergeProject hr.2 hm hrem) hstart h
    rcases mergeProject_ok hm with ⟨-,rfl⟩ | ⟨_,_,_,_,he,-⟩
    · exact ⟨hr.1,by simpa using hr.2⟩
    · simp at he
  exact hrun.elim fun _ h => h.1

/-- The plan graph: the two lists of operators, and the edges at both ends. -/
structure PlanGraph (s : PlanState) : Prop where
  pool : PoolInv s
  consistent : s.ports.Consistent s.used
  acyclic : s.ports.Acyclic s.used
  precedes : ∀ p ∈ s.used, ∀ c ∈ (s.ops p).inputs, Ports.Precedes s.used p c

theorem Sound.planGraph (h : Sound s) : PlanGraph s := ⟨h.pool,h.consistent,h.acyclic,h.layered.precedes⟩

/-- Registration builds a plan graph, and each of the passes that return leaves one: after
the sinks have been added every operator is read that has to be, and no query source is left. -/
theorem registration_keeps_planGraph {mem : OpId → Operator} {s : PlanState} (hs : Registered mem s) :
    PlanGraph s ∧
    (∀ t, removeQuerySources s = .ok () t → PlanGraph t ∧
      ∀ u, addSinks t = .ok () u → (PlanGraph u ∧ AllRead u ∧ NoQuerySource u) ∧
        ∀ v, mergeSelects u = .ok () v → PlanGraph v ∧ AllRead v ∧ NoQuerySource v) ∧
    (∀ p q, Plausible p → mergeProjectsToJoin p = .ok () q →
      q.ports.Consistent q.used ∧ q.ports.Acyclic q.used) := by
  have h0 := registered_sound hs
  refine ⟨h0.planGraph,fun t ht => ?_,fun p q hp hq => ?_⟩
  · obtain ⟨h1,hq1⟩ := removeQuerySources_sound h0 ht
    refine ⟨h1.planGraph,fun u hu => ?_⟩
    obtain ⟨h2,hq2,hr2⟩ := addSinks_sound h1 hq1 hu
    refine ⟨⟨h2.planGraph,hr2,hq2⟩,fun v hv => ?_⟩
    obtain ⟨h3,hq3,hr3⟩ := mergeSelects_sound h2 hq2 hr2 hv
    exact ⟨h3.planGraph,hr3,hq3⟩
  · have h := mergeProjectsToJoin_plausible hp hq
    exact ⟨h.consistent,h.acyclic⟩

theorem viewOfStream_registered : Registered blankMemory viewOfStream :=
  ((Registered.start.of_returns _ (by decide +kernel)).of_returns _ (by decide +kernel)).of_returns _
    (by decide +kernel)

/-- The passes on the plan of a view of a stream. -/
theorem view_keeps_planGraph : PlanGraph viewOfStream ∧ ∃ t u v, removeQuerySources viewOfStream = .ok () t ∧
    addSinks t = .ok () u ∧ mergeSelects u = .ok () v ∧ PlanGraph v := by
  obtain ⟨h0,h1,-⟩ := registration_keeps_planGraph viewOfStream_registered
  obtain ⟨_,t,ht⟩ := exists_of_returns (r := removeQuerySources viewOfStream) (by decide +kernel)
  obtain ⟨_,u,hu⟩ : ∃ a u, addSinks t = .ok a u := exists_of_returns (by
    rw [show t = finalState (removeQuerySources viewOfStream) by rw [ht]; rfl]
    decide +kernel)
  obtain ⟨_,v,hv⟩ : ∃ a v, mergeSelects u = .ok a v := exists_of_returns (by
    rw [show u = finalState (addSinks (finalState (removeQuerySources viewOfStream))) by rw [ht]; simp [hu]]
    decide +kernel)
  exact ⟨h0,t,u,v,ht,hu,hv,(((h1 t ht).2 u hu).2 v hv).1⟩

end AqsiosCoordinator.Physical
