import AqsiosCoordinator.Metadata.PlanGraph
import AqsiosCoordinator.Foundation.LeastLabel

/-! # The classes of the operators of registered queries

The class of an operator is the least class of the outputs that it feeds. A search from
a new output stops where the class is small enough already: whatever an operator with
such a class reads from has one as well.
-/
namespace AqsiosCoordinator.Physical
open Common Foundation Foundation.Outcome Metadata Relation
variable {s t u : PlanState} {op : OpId} {cls cls' : OpId → ℤ} {k : ℤ}

def PlanState.queryClass (s : PlanState) (o : OpId) : ℤ := (s.ops o).queryClassId

def PlanState.IsOutput (s : PlanState) (o : OpId) : Prop := o ∈ s.used ∧ (s.ops o).body.kind = .output

/-- The classes that `cls` gives to the outputs that an operator reaches along output edges. -/
def PlanState.classesAbove (s : PlanState) (cls : OpId → ℤ) (o : OpId) : Set ℤ :=
  keysAbove s.ports.Feeds s.IsOutput cls o

/-- Outside of `W`, whatever an operator with a small enough class reads from has one as well. -/
def ClosedExcept (V : List OpId) (k : ℤ) (W : OpId → Prop) (s : PlanState) : Prop :=
  ∀ q ∈ V, ¬ W q → Covered 0 k (s.queryClass q) → ∀ c ∈ (s.ops q).inputs, Covered 0 k (s.queryClass c)

structure Searched (k : ℤ) (roots : List OpId) (s t : PlanState) : Prop where
  same : s.sameButClasses t
  changed : ∀ p, t.queryClass p = s.queryClass p ∨
    ¬ Covered 0 k (s.queryClass p) ∧ t.queryClass p = k ∧ ∃ o ∈ roots, ReflTransGen s.ports.Reads o p
  covered : ∀ o ∈ roots, Covered 0 k (t.queryClass o)

theorem Searched.keeps {roots : List OpId} (h : Searched k roots s t) {p : OpId} (hp : Covered 0 k (s.queryClass p)) :
    Covered 0 k (t.queryClass p) := by
  rcases h.changed p with heq | ⟨hn,-⟩
  · rwa [heq]
  · exact absurd hp hn

theorem PlanState.sameButClasses.ports (h : s.sameButClasses t) : t.ports = s.ports := by
  obtain ⟨f,rfl⟩ := h
  rfl

theorem PlanState.sameButClasses.current (h : s.sameButClasses t) : t.currentQueryClass = s.currentQueryClass := by
  obtain ⟨f,rfl⟩ := h
  rfl

theorem Searched.cons {o : OpId} {roots : List OpId} (h : Searched k [o] s t) (h' : Searched k roots t u) :
    Searched k (o :: roots) s u := by
  refine ⟨h.same.trans h'.same,fun p => ?_,fun q hq => ?_⟩
  · rcases h'.changed p with heq | ⟨hn,hk,q,hq,hr⟩
    · rw [heq]
      rcases h.changed p with heq | ⟨hn,hk,q,hq,hr⟩
      · exact .inl heq
      · exact .inr ⟨hn,hk,q,List.mem_cons.mpr (.inl (List.mem_singleton.mp hq)),hr⟩
    · refine .inr ⟨fun hc => hn (h.keeps hc),hk,q,List.mem_cons_of_mem _ hq,?_⟩
      rwa [h.same.ports] at hr
  · rcases List.mem_cons.mp hq with rfl | hq
    · exact h'.keeps (h.covered q (List.mem_singleton_self q))
    · exact h'.covered q hq

/-- The search from the inputs of an operator, once the operator has been given the class. -/
theorem Searched.of_inputs {o : OpId} (hk : k ≠ 0) (hn : ¬ Covered 0 k (s.queryClass o))
    (h : Searched k (s.ops o).inputs (s.setOp o { s.ops o with queryClassId := k }) t)
    (hset : s.sameButClasses (s.setOp o { s.ops o with queryClassId := k })) : Searched k [o] s t := by
  have hself : (s.setOp o { s.ops o with queryClassId := k }).queryClass o = k := by simp [PlanState.queryClass]
  have hother : ∀ p, p ≠ o → (s.setOp o { s.ops o with queryClassId := k }).queryClass p = s.queryClass p := by
    intro p hp
    simp [PlanState.queryClass,setOp_ops_of_ne _ hp]
  have hcov : Covered 0 k k := ⟨hk,le_rfl⟩
  have hto : t.queryClass o = k := by
    rcases h.changed o with heq | ⟨hnc,-⟩
    · rw [heq, hself]
    · rw [hself] at hnc
      exact absurd hcov hnc
  refine ⟨hset.trans h.same,fun p => ?_,fun q hq => ?_⟩
  · by_cases hp : p = o
    · subst hp
      exact .inr ⟨hn,hto,p,List.mem_singleton_self p,.refl⟩
    · rcases h.changed p with heq | ⟨hnc,hpk,c,hc,hr⟩
      · exact .inl (heq.trans (hother p hp))
      · rw [hother p hp] at hnc
        rw [hset.ports] at hr
        exact .inr ⟨hnc,hpk,o,List.mem_singleton_self o,.head hc hr⟩
  · rw [List.mem_singleton.mp hq, hto]
    exact hcov

theorem addQueryClasses_searched {V : List OpId} (hk : k ≠ 0) {fuel : ℕ} {o : OpId} {a : Unit} {W : OpId → Prop}
    (hV : ∀ p ∈ V, ∀ c ∈ (s.ops p).inputs, c ∈ V) (ho : o ∈ V) (hcur : s.currentQueryClass = k)
    (hclosed : ClosedExcept V k W s) (h : addQueryClasses fuel o s = .ok a t) :
    Searched k [o] s t ∧ ClosedExcept V k W t := by
  induction fuel generalizing o s t W with
  | zero => simp [addQueryClasses] at h
  | succ fuel ih =>
    have hall {l : List OpId} {s t : PlanState} {a : PUnit} {W : OpId → Prop}
        (hV : ∀ p ∈ V, ∀ c ∈ (s.ops p).inputs, c ∈ V) (hl : ∀ o ∈ l, o ∈ V) (hcur : s.currentQueryClass = k)
        (hclosed : ClosedExcept V k W s) (h : l.forM (addQueryClasses fuel) s = .ok a t) :
        Searched k l s t ∧ ClosedExcept V k W t := by
      induction l generalizing s with
      | nil =>
        obtain ⟨-,rfl⟩ := pure_eq_ok.mp h
        exact ⟨⟨sameButClasses_refl s,fun _ => .inl rfl,by simp⟩,hclosed⟩
      | cons o l ihl =>
        obtain ⟨_,r,h1,h2⟩ := bind_eq_ok.mp h
        obtain ⟨hs1,hc1⟩ := ih hV (hl o List.mem_cons_self) hcur hclosed h1
        have hports := hs1.same.ports
        have hV' : ∀ p ∈ V, ∀ c ∈ (r.ops p).inputs, c ∈ V := by
          intro p hp c hc
          rw [← ports_inputs, hports] at hc
          exact hV p hp c hc
        obtain ⟨hs2,hc2⟩ := ihl hV' (fun o ho => hl o (List.mem_cons_of_mem _ ho)) (hs1.same.current.trans hcur) hc1 h2
        exact ⟨hs1.cons hs2,hc2⟩
    unfold addQueryClasses at h
    obtain ⟨x,_,h1,h⟩ := bind_eq_ok.mp h
    obtain ⟨rfl,rfl⟩ := getOp_ok.mp h1
    obtain ⟨_,_,h2,h⟩ := bind_eq_ok.mp h
    obtain ⟨rfl,rfl⟩ := get_eq_ok.mp h2
    rw [hcur] at h
    split at h
    · rename_i hclass
      have hn : ¬ Covered 0 k (s.queryClass o) := by
        rintro ⟨h0,hle⟩
        rcases hclass with hz | hgt
        · exact h0 hz
        · exact absurd hle (not_le.mpr hgt)
      obtain ⟨_,s₁,h3,h⟩ := bind_eq_ok.mp h
      obtain rfl := modifyOp_ok.mp h3
      have hset := sameButClasses_setOp (s := s) o k
      have hin : ∀ p, ((s.setOp o { s.ops o with queryClassId := k }).ops p).inputs = (s.ops p).inputs := fun p =>
        congrFun (congrArg Ports.inputs hset.ports) p
      have hcov : ∀ p, Covered 0 k (s.queryClass p) ∨ p = o →
          Covered 0 k ((s.setOp o { s.ops o with queryClassId := k }).queryClass p) := by
        intro p hp
        by_cases hpo : p = o
        · subst hpo
          simp [PlanState.queryClass,Covered,hk]
        · have hcp := hp.resolve_right hpo
          simpa [PlanState.queryClass,setOp_ops_of_ne _ hpo] using hcp
      have hclosed₁ : ClosedExcept V k (fun p => W p ∨ p = o) (s.setOp o { s.ops o with queryClassId := k }) := by
        intro q hq hW hcq c hc
        obtain ⟨hWq,hqo⟩ := not_or.mp hW
        rw [hin] at hc
        have hcq' : Covered 0 k (s.queryClass q) := by
          simpa [PlanState.queryClass,setOp_ops_of_ne _ hqo] using hcq
        exact hcov c (.inl (hclosed q hq hWq hcq' c hc))
      obtain ⟨hsearch,hclosed₂⟩ := hall (fun p hp c hc => hV p hp c (hin p ▸ hc)) (fun c hc => hV o ho c hc) hcur
        hclosed₁ h
      refine ⟨.of_inputs hk hn hsearch hset,fun q hq hWq hcq c hc => ?_⟩
      by_cases hqo : q = o
      · subst hqo
        have hports := hsearch.same.ports
        rw [← ports_inputs, hports, ports_inputs, hin] at hc
        exact hsearch.covered c hc
      · exact hclosed₂ q hq (not_or.mpr ⟨hWq,hqo⟩) hcq c hc
    · rename_i hclass
      obtain ⟨-,rfl⟩ := pure_eq_ok.mp h
      obtain ⟨h0,hle⟩ := not_or.mp hclass
      refine ⟨⟨sameButClasses_refl s,fun _ => .inl rfl,fun q hq => ?_⟩,hclosed⟩
      rw [List.mem_singleton.mp hq]
      exact ⟨h0,not_lt.mp hle⟩

/-- The search ends: what an operator reads from stands behind it. -/
theorem addQueryClasses_returns {fuel : ℕ} {l : List OpId} {o : OpId} (hlen : l.length ≤ fuel) (hl : s.ports.Layered l)
    (ho : o ∈ l) : ∃ t, addQueryClasses fuel o s = .ok () t := by
  induction fuel generalizing l o s with
  | zero =>
    rw [List.length_eq_zero_iff.mp (Nat.le_zero.mp hlen)] at ho
    simp at ho
  | succ fuel ih =>
    obtain ⟨l₁,l₂,rfl⟩ := List.append_of_mem ho
    have hlay := hl.append_right
    have hlen₂ : l₂.length ≤ fuel := by
      simp only [List.length_append, List.length_cons] at hlen
      omega
    have hall : ∀ (cs : List OpId) (s' : PlanState), s'.ports = s.ports → (∀ c ∈ cs, c ∈ l₂) →
        ∃ t, cs.forM (addQueryClasses fuel) s' = .ok ⟨⟩ t := by
      intro cs
      induction cs with
      | nil => exact fun s' _ _ => ⟨s',rfl⟩
      | cons c cs ihc =>
        intro s' hports hcs
        obtain ⟨r,hr⟩ := ih hlen₂ (hports ▸ hlay.2) (hcs c List.mem_cons_self)
        obtain ⟨t,ht⟩ := ihc r ((addQueryClasses_ok hr).ports.trans hports) fun c' hc' => hcs c' (List.mem_cons_of_mem _ hc')
        exact ⟨t,bind_eq_ok.mpr ⟨_,r,hr,ht⟩⟩
    unfold addQueryClasses
    rw [bind_of_ok (getOp_ok.mpr ⟨rfl,rfl⟩), bind_of_ok (get_eq_ok.mpr ⟨rfl,rfl⟩)]
    split
    · rw [bind_of_ok (modifyOp_ok (a := ()).mpr rfl)]
      exact hall _ _ (sameButClasses_setOp o s.currentQueryClass).ports hlay.1
    · exact ⟨s,rfl⟩

theorem Sound.addQueryClasses_returns (hs : Sound s) {o : OpId} (ho : o ∈ s.used) :
    ∃ t, addQueryClasses (MAX_OPS + 1) o s = .ok () t :=
  Physical.addQueryClasses_returns (Nat.le_succ_of_le (OpPool.length_le hs.pool.nodup)) hs.layered ho

/-- The classes of the operators in use, where `cls` are the classes of the outputs. The
generator of the system stream has a class of its own. -/
structure ClassInv (s : PlanState) (cls : OpId → ℤ) : Prop where
  sound : Sound s
  least : ∀ o ∈ s.used, (s.ops o).body.kind ≠ .ssGen → LeastOr 0 (s.classesAbove cls o) (s.queryClass o)
  generator : ∀ o ∈ s.used, (s.ops o).body.kind = .ssGen → s.queryClass o = 1
  free : ∀ o ∈ s.free, s.queryClass o = 0
  positive : ∀ o, s.IsOutput o → 1 ≤ cls o

theorem classesAbove_congr (h : ∀ o, s.IsOutput o → cls o = cls' o) (o : OpId) :
    s.classesAbove cls o = s.classesAbove cls' o := by
  ext k
  constructor <;> rintro ⟨p,hp,hop,rfl⟩
  · exact ⟨p,hp,hop,(h p hp).symm⟩
  · exact ⟨p,hp,hop,h p hp⟩

theorem ClassInv.congr (hs : ClassInv s cls) (h : ∀ o, s.IsOutput o → cls o = cls' o) : ClassInv s cls' := by
  refine ⟨hs.sound,fun o ho hk => ?_,hs.generator,hs.free,fun o ho => ?_⟩
  · rw [← classesAbove_congr h]
    exact hs.least o ho hk
  · rw [← h o ho]
    exact hs.positive o ho

/-- Changes that leave the edges, the kinds and the classes of operators alone. -/
theorem ClassInv.of_same (hs : ClassInv s cls) (ht : Sound t) (hused : t.used = s.used) (hfree : t.free = s.free)
    (hports : t.ports = s.ports) (hkind : ∀ o, (t.ops o).body.kind = (s.ops o).body.kind)
    (hclass : ∀ o, t.queryClass o = s.queryClass o) : ClassInv t cls := by
  have hout : t.IsOutput = s.IsOutput := by
    funext o
    rw [PlanState.IsOutput, PlanState.IsOutput, hused, hkind]
  refine ⟨ht,fun o ho hk => ?_,fun o ho hk => ?_,fun o ho => ?_,fun o ho => ?_⟩
  · rw [hused] at ho
    rw [hkind] at hk
    rw [PlanState.classesAbove, hports, hout, hclass]
    exact hs.least o ho hk
  · rw [hclass]
    exact hs.generator o (hused ▸ ho) (hkind o ▸ hk)
  · rw [hclass]
    exact hs.free o (hfree ▸ ho)
  · exact hs.positive o (hout ▸ ho)

section Added
variable {body : Body} {attrs : List Column} {bStream : Bool} {inputs : List OpId}

theorem Added.queryClass (h : Added op body attrs bStream inputs s t) (o : OpId) : t.queryClass o = s.queryClass o := by
  by_cases ho : o = op
  · subst ho
    simp [PlanState.queryClass,h.self]
  · simp [PlanState.queryClass,h.other o ho]

theorem Added.kind (h : Added op body attrs bStream inputs s t) {o : OpId} (ho : o ≠ op) :
    (t.ops o).body.kind = (s.ops o).body.kind := by
  rw [h.other o ho]

/-- A new operator reaches no output of before, and the others reach the same ones. -/
theorem Added.leastOr (h : Added op body attrs bStream inputs s t) (hs : ClassInv s cls) {o : OpId} (ho : o ∈ t.used)
    (hk : (t.ops o).body.kind ≠ .ssGen) :
    LeastOr 0 (keysAbove t.ports.Feeds s.IsOutput cls o) (t.queryClass o) := by
  have hop : op ∉ s.used := h.not_mem hs.sound.pool
  have hne : ∀ p, s.IsOutput p → p ≠ op := fun p hp he => hop (he ▸ hp.1)
  rw [h.queryClass]
  rw [h.used] at ho
  rcases List.mem_cons.mp ho with rfl | ho
  · right
    constructor
    · refine Set.eq_empty_iff_forall_notMem.mpr ?_
      rintro k ⟨p,hp,hreach,-⟩
      exact hne p hp (h.ports.reaches_self.mp hreach)
    · apply hs.free
      rw [h.free]
      exact List.mem_cons_self
  · have hoo : o ≠ op := fun he => hop (he ▸ ho)
    have hkeys : keysAbove t.ports.Feeds s.IsOutput cls o = s.classesAbove cls o := by
      ext k
      constructor <;> rintro ⟨p,hp,hreach,hkey⟩
      · exact ⟨p,hp,(h.ports.reaches_iff hs.sound.consistent hop ho (hne p hp)).mp hreach,hkey⟩
      · exact ⟨p,hp,(h.ports.reaches_iff hs.sound.consistent hop ho (hne p hp)).mpr hreach,hkey⟩
    rw [hkeys]
    rw [h.kind hoo] at hk
    exact hs.least o ho hk

theorem Added.generator (h : Added op body attrs bStream inputs s t) (hs : ClassInv s cls) (hb : body.kind ≠ .ssGen)
    {o : OpId} (ho : o ∈ t.used) (hk : (t.ops o).body.kind = .ssGen) : t.queryClass o = 1 := by
  have hoo : o ≠ op := by
    rintro rfl
    rw [h.self] at hk
    exact hb hk
  rw [h.used] at ho
  rw [h.queryClass]
  exact hs.generator o ((List.mem_cons.mp ho).resolve_left hoo) (h.kind hoo ▸ hk)

theorem Added.isOutput_iff (h : Added op body attrs bStream inputs s t) (hs : PoolInv s) {o : OpId} :
    t.IsOutput o ↔ o = op ∧ body.kind = .output ∨ s.IsOutput o := by
  have hop : op ∉ s.used := h.not_mem hs
  by_cases hoo : o = op
  · subst hoo
    simp [PlanState.IsOutput,h.used,h.self,hop]
  · simp [PlanState.IsOutput,h.used,hoo,h.kind hoo]

/-- Creating an operator that is not an output. -/
theorem Added.classInv (h : Added op body attrs bStream inputs s t) (hs : ClassInv s cls) (ht : Sound t)
    (hb : body.kind ≠ .output) (hb' : body.kind ≠ .ssGen) : ClassInv t cls := by
  have hout : t.IsOutput = s.IsOutput := by
    funext o
    rw [eq_iff_iff, h.isOutput_iff hs.sound.pool]
    simp [hb]
  refine ⟨ht,fun o ho hk => ?_,fun o ho hk => h.generator hs hb' ho hk,fun o ho => ?_,fun o ho => ?_⟩
  · rw [PlanState.classesAbove, hout]
    exact h.leastOr hs ho hk
  · rw [h.queryClass]
    apply hs.free
    rw [h.free]
    exact List.mem_cons_of_mem _ ho
  · exact hs.positive o (hout ▸ ho)

/-- The labels that the search starts from are monotone along the inputs. -/
theorem Added.closed (h : Added op body attrs bStream inputs s t) (hs : ClassInv s cls) (ht : Sound t)
    (hb : body.kind ≠ .ssGen) (hk : 1 ≤ k) : ClosedExcept t.used k (fun _ => False) t := by
  intro q hq _ hcov c hc
  have hcu : c ∈ t.used := ht.consistent.inputs_mem q hq c hc
  by_cases hcg : (t.ops c).body.kind = .ssGen
  · rw [h.generator hs hb hcu hcg]
    exact ⟨one_ne_zero,hk⟩
  · have hqg : (t.ops q).body.kind ≠ .ssGen := by
      intro hqg
      have harity := ht.arity q hq
      cases hbody : (t.ops q).body <;> simp [hbody,Body.kind,Body.arity] at hqg harity
      simp [harity] at hc
    refine hcov.of_subset (h.leastOr hs hq hqg) (h.leastOr hs hcu hcg) (keysAbove_subset (.single ?_)) ?_
    · exact (ht.consistent.feeds_iff hq hcu).mpr hc
    · rintro ⟨p,hp,-,hz⟩
      have hpos := hs.positive p hp
      omega

end Added

theorem Searched.relabelled (h : Searched k [op] s t) (hs : Sound s) (hop : op ∈ s.used)
    (hclosed : ClosedExcept s.used k (fun _ => False) t) :
    Relabelled s.ports.Feeds s.used 0 k op s.queryClass t.queryClass := by
  refine ⟨fun o => ?_,h.covered op (List.mem_singleton_self op),fun o ho q hoq hcov => ?_⟩
  · rcases h.changed o with heq | ⟨hn,hk,r,hr,hreach⟩
    · exact .inl heq
    · rw [List.mem_singleton.mp hr] at hreach
      exact .inr ⟨hn,hk,(hs.consistent.feeds_of_reads hop hreach).2⟩
  · have hq := hs.consistent.outputs_mem o ho q hoq
    refine hclosed q hq id hcov o ?_
    rw [← ports_inputs, h.same.ports]
    exact (hs.consistent.feeds_iff hq ho).mp hoq

/-- Creating an output of class `k` and searching from it. -/
theorem ClassInv.output {outputId queryId : ℕ} {attrs : List Column} {bStream : Bool} {inputs : List OpId}
    (hs : ClassInv s cls) (h : Added op (.output outputId queryId) attrs bStream inputs s t) (ht : Sound t)
    (hcls : cls op = k) (hk : 1 ≤ k) (hsearch : Searched k [op] t u)
    (hclosed : ClosedExcept t.used k (fun _ => False) u) : ClassInv u cls := by
  have hop : op ∈ t.used := h.used ▸ List.mem_cons_self
  have hrel := hsearch.relabelled ht hop hclosed
  have hkeep : ∀ o, Covered 0 k (t.queryClass o) → u.queryClass o = t.queryClass o := by
    intro o ho
    rcases hsearch.changed o with heq | ⟨hn,-⟩
    · exact heq
    · exact absurd ho hn
  have hsame := hsearch.same
  have hfinal : u.used = t.used ∧ u.free = t.free ∧ ∀ o, (u.ops o).body = (t.ops o).body := by
    obtain ⟨f,rfl⟩ := hsame
    exact ⟨rfl,rfl,fun _ => rfl⟩
  obtain ⟨hused,hfree,hbody⟩ := hfinal
  have hout : u.IsOutput = fun o => o = op ∨ s.IsOutput o := by
    funext o
    have hto := h.isOutput_iff hs.sound.pool (o := o)
    rw [PlanState.IsOutput, hused, hbody, ← PlanState.IsOutput, eq_iff_iff, hto]
    simp [Body.kind]
  refine ⟨hsame.sound ht,fun o ho hkind => ?_,fun o ho hkind => ?_,fun o ho => ?_,fun o ho => ?_⟩
  · rw [hused] at ho
    rw [hbody] at hkind
    rw [PlanState.classesAbove, hsame.ports, hout]
    refine hrel.leastOr (fun p hp q hpq => ht.consistent.outputs_mem p hp q hpq) ho hcls ?_ (h.leastOr hs ho hkind)
    rintro ⟨p,hp,-,hz⟩
    have hpos := hs.positive p hp
    omega
  · rw [hused] at ho
    rw [hbody] at hkind
    have hone := h.generator hs (by simp [Body.kind]) ho hkind
    rw [hkeep o (hone ▸ ⟨one_ne_zero,hk⟩), hone]
  · rw [hfree] at ho
    have hofree : o ∉ t.used := fun hu => ht.pool.disjoint o hu ho
    have hsf : o ∈ s.free := by
      rw [h.free]
      exact List.mem_cons_of_mem _ ho
    rcases hsearch.changed o with heq | ⟨-,-,r,hr,hreach⟩
    · rw [heq, h.queryClass, hs.free o hsf]
    · rw [List.mem_singleton.mp hr] at hreach
      exact absurd (ht.consistent.feeds_of_reads hop hreach).1 hofree
  · rw [hout] at ho
    rcases ho with rfl | ho
    · exact hcls ▸ hk
    · exact hs.positive o ho

theorem SelectGrown.classInv {pred : BExpr} (h : SelectGrown op pred s t) (hs : ClassInv s cls) : ClassInv t cls := by
  refine hs.of_same (h.sound hs.sound) h.used h.free ?_ (fun o => ?_) fun o => ?_
  · unfold PlanState.ports
    congr 1 <;> funext o <;> obtain ⟨b,hb,-⟩ := h.ops_eq o <;> rw [hb]
  · obtain ⟨b,hb,-,hbk,-⟩ := h.ops_eq o
    rw [hb, hbk]
  · obtain ⟨b,hb,-⟩ := h.ops_eq o
    simp [PlanState.queryClass,hb]

theorem Made.classInv {kind : Logical.Kind} {children : List OpId} (h : Made kind children s op t) (hs : ClassInv s cls) :
    ClassInv t cls := by
  cases h with
  | source _ _ hst => exact hst ▸ hs
  | grown _ _ h => exact h.classInv hs
  | added hkind h _ harity hcomplete =>
    refine h.classInv hs (h.sound hs.sound harity hcomplete) ?_ ?_ <;> intro hb <;>
      simp [hb,OperatorKind.combines] at hkind

theorem genPhysicalPlan_classInv {v : Uninit} {p : Logical.Plan} (hsrc : ∀ id, lookupSource id s.sourceOps ∈ s.used)
    (hs : ClassInv s cls) (h : genPhysicalPlan v p s = .ok op t) : ClassInv t cls := by
  have hrule : PlanRule (fun r => Built s r ∧ ClassInv r cls) (fun _ o r => o ∈ r.used) := by
    refine ⟨fun r hr => hr.2.sound.pool,fun _ _ _ _ ho => ho,fun kind _ _ inputs children r op u hr hc _ hmade => ?_⟩
    obtain ⟨hb,hop⟩ := hmade.built (lookupSource_mem hsrc hr.1) fun c hmem => by
      obtain ⟨_,-,hc⟩ := forall₂_mem_right hc hmem
      exact hc
    exact ⟨⟨hr.1.trans hb,hmade.classInv hr.2⟩,hop,fun _ o ho => hb.used_mono o ho⟩
  exact (hrule.plan p ⟨.refl,hs⟩ h).1.2

/-- The tables of the state do not concern the operators. -/
theorem ClassInv.tables (hs : ClassInv s cls) (hlinks : t.links = s.links) (husedOps : t.usedOps = s.usedOps)
    (hfreeOps : t.freeOps = s.freeOps) (hops : t.ops = s.ops) : ClassInv t cls := by
  have hused : t.used = s.used := by simp only [PlanState.used, hlinks, husedOps]
  have hfree : t.free = s.free := by simp only [PlanState.free, hlinks, hfreeOps]
  have hports : t.ports = s.ports := by simp only [PlanState.ports, hops]
  have hpool := hs.sound.pool
  refine hs.of_same ⟨⟨?_,?_,?_⟩,?_,?_,?_,?_⟩ hused hfree hports (fun o => by rw [hops]) fun o => ?_
  · rw [hused, hlinks, husedOps]
    exact hpool.usedList
  · rw [hfree, hlinks, hfreeOps]
    exact hpool.freeList
  · rw [hused, hfree]
    exact hpool.disjoint
  · rw [hports, hused]
    exact hs.sound.consistent
  · rw [hports, hused]
    exact hs.sound.layered
  · rw [hused, hops]
    exact hs.sound.arity
  · rw [hused, hops]
    exact hs.sound.complete
  · simp only [PlanState.queryClass, hops]

theorem QuerySteps.classInv {v : Uninit} {queryId : ℕ} {logPlan : Logical.Plan} {output : Bool}
    (hsrc : ∀ id, lookupSource id s.sourceOps ∈ s.used) (hs : ClassInv s cls) (hk : 1 ≤ s.currentQueryClass)
    (h : QuerySteps v queryId logPlan s output t) :
    ClassInv t (fun o => if o ∈ s.used then cls o else s.currentQueryClass) := by
  have hs' : ClassInv s (fun o => if o ∈ s.used then cls o else s.currentQueryClass) :=
    hs.congr fun o ho => (if_pos ho.1).symm
  cases h with
  | inner hplan hqry =>
    have h1 := genPhysicalPlan_classInv hsrc hs' hplan
    exact (hqry.classInv h1 (hqry.sound h1.sound rfl trivial) (by simp [Body.kind]) (by simp [Body.kind])).tables rfl rfl rfl
      rfl
  | @outer phyPlan querySource outputOp s₁ s₂ s₃ t hplan hqry hout hclass =>
    have h1 := genPhysicalPlan_classInv hsrc hs' hplan
    have h2 := (hqry.classInv h1 (hqry.sound h1.sound rfl trivial) (by simp [Body.kind]) (by simp [Body.kind])).tables
      (t := { s₂ with queryOutOps := s₂.queryOutOps ++ [(queryId,querySource)] }) rfl rfl rfl rfl
    have h3 := hout.sound h2.sound rfl trivial
    have hb := (genPhysicalPlan_built logPlan hs.sound.pool hsrc hplan).1
    have hcur : s₃.currentQueryClass = s.currentQueryClass := by
      have e1 := congrArg Tables.currentQueryClass hb.tables
      have e2 := congrArg Tables.currentQueryClass hqry.tables
      have e3 := congrArg Tables.currentQueryClass hout.tables
      exact e3.trans (e2.trans e1)
    have hnew : outputOp ∉ s.used := by
      intro hmem
      refine hout.not_mem h2.sound.pool ?_
      show outputOp ∈ s₂.used
      rw [hqry.used]
      exact List.mem_cons_of_mem _ (hb.used_mono outputOp hmem)
    have hadd : Added outputOp (.output s₂.numOutputs queryId) (s₂.ops phyPlan).attrs (s₂.ops phyPlan).bStream [phyPlan]
        { s₂ with queryOutOps := s₂.queryOutOps ++ [(queryId,querySource)] } s₃ := hout
    obtain ⟨hsearch,hclosed⟩ := addQueryClasses_searched
      (s := { s₃ with numOutputs := s₃.numOutputs + 1 }) (V := s₃.used) (k := s.currentQueryClass) (W := fun _ => False)
      (by omega) (fun p hp c hc => h3.consistent.inputs_mem p hp c hc)
      (by rw [hout.used]; exact List.mem_cons_self) hcur
      (fun q hq hW hcov c hc => hadd.closed h2 h3 (by simp [Body.kind]) hk q hq hW hcov c hc) hclass
    have hsearch' : Searched s.currentQueryClass [outputOp] s₃ { t with numOutputs := s₃.numOutputs } := by
      obtain ⟨f,rfl⟩ := hsearch.same
      exact ⟨⟨f,rfl⟩,hsearch.changed,hsearch.covered⟩
    exact (h2.output hadd h3 (if_neg hnew) hk hsearch' hclosed).tables rfl rfl rfl rfl

def Call.isQuery : Call → Bool
  | .addLogicalQueryPlan _ _ _ _ => true
  | _ => false

/-- The runs of registration calls that all return, each query under a class of at least 1,
with the class that was in force when each operator was created. -/
inductive ClassedRun (mem : OpId → Operator) : PlanState → (OpId → ℤ) → Prop where
  | start : ClassedRun mem (newPlanManager mem) (fun _ => 0)
  | call {s t : PlanState} {cls : OpId → ℤ} (h : ClassedRun mem s cls) (c : Call) (hc : c.run s = .ok () t)
      (hclass : c.isQuery = true → 1 ≤ s.currentQueryClass) :
      ClassedRun mem t (fun o => if o ∈ s.used then cls o else s.currentQueryClass)

theorem newPlanManager_free {mem : OpId → Operator} {o : OpId} (ho : o ∈ (newPlanManager mem).free) :
    ((newPlanManager mem).ops o).queryClassId = (mem o).queryClassId := by
  obtain ⟨s,hnew,hrun⟩ := newPlanManager_eq mem
  have hne : o ≠ ⟨0,maxOps_pos⟩ := by
    rintro rfl
    have hused : (⟨0,maxOps_pos⟩ : OpId) ∈ (newPlanManager mem).used := by
      rw [(newPlanManager_started mem).2.1]
      exact List.mem_singleton_self _
    exact (newPlanManager_started mem).1.disjoint _ hused ho
  rw [hrun]
  dsimp only
  rw [setOp_ops_of_ne _ hne, hnew.other o hne]
  rfl

theorem newPlanManager_classInv {mem : OpId → Operator} (hmem : ∀ o, (mem o).queryClassId = 0) :
    ClassInv (newPlanManager mem) (fun _ => 0) := by
  obtain ⟨-,hused,hop,-⟩ := newPlanManager_started mem
  have hall : ∀ o ∈ (newPlanManager mem).used, (newPlanManager mem).ops o =
      ⟨1,.ssGen,SysStream.SS_COLUMNS,true,[],[]⟩ := by
    intro o ho
    rw [hused] at ho
    rw [List.mem_singleton.mp ho]
    exact hop
  refine ⟨newPlanManager_sound mem,fun o ho hk => ?_,fun o ho _ => ?_,fun o ho => ?_,fun o ho => ?_⟩
  · rw [hall o ho] at hk
    exact absurd rfl hk
  · rw [PlanState.queryClass, hall o ho]
  · exact (newPlanManager_free ho).trans (hmem o)
  · have hk := ho.2
    rw [hall o ho.1] at hk
    simp [Body.kind] at hk

theorem ClassedRun.registered {mem : OpId → Operator} (h : ClassedRun mem s cls) : Registered mem s := by
  induction h with
  | start => exact .start
  | call _ c hc _ ih => exact ih.call c hc

theorem ClassedRun.classInv {mem : OpId → Operator} (hmem : ∀ o, (mem o).queryClassId = 0) (h : ClassedRun mem s cls) :
    ClassInv s cls := by
  induction h with
  | start => exact newPlanManager_classInv hmem
  | @call s t cls h c hc hclass ih =>
    have hsrc := (reachable_regInv h.registered.reachable).lookupSource_mem
    have hkeep : ∀ o, s.IsOutput o → cls o = if o ∈ s.used then cls o else s.currentQueryClass :=
      fun o ho => (if_pos ho.1).symm
    cases c with
    | addBaseTable tableMgr tableId =>
      obtain ⟨op,s',hadd,rfl⟩ := addBaseTable_ok ih.sound.pool hc
      have hs' := hadd.sound ih.sound (by split <;> rfl) (by split <;> trivial)
      exact (hadd.classInv (ih.congr hkeep) hs' (by split <;> simp [Body.kind]) (by split <;> simp [Body.kind])).tables
        rfl rfl rfl rfl
    | addLogicalQueryPlan u queryId logPlan output =>
      exact (addLogicalQueryPlan_steps ih.sound.pool hsrc hc).classInv hsrc ih (hclass rfl)
    | map tableMgr queryId tableId =>
      obtain ⟨_,_,-,-,rfl⟩ := map_ok hc
      exact (ih.congr hkeep).tables rfl rfl rfl rfl
    | setQueryClass queryClass =>
      obtain rfl := modify_eq_ok.mp hc
      exact (ih.congr hkeep).tables rfl rfl rfl rfl

/-- After every run, the class of an operator in use is the least class among the outputs
that it reaches, each under the class in force when its query was registered, and 0 when
it reaches none. -/
theorem queryClass_least {mem : OpId → Operator} (hmem : ∀ o, (mem o).queryClassId = 0) (h : ClassedRun mem s cls) :
    ∀ o ∈ s.used, (s.ops o).body.kind ≠ .ssGen → LeastOr 0 {k | ∃ p ∈ s.used, (s.ops p).body.kind = .output ∧
      ReflTransGen (fun a b => b ∈ (s.ops a).outputs) o p ∧ cls p = k} (s.ops o).queryClassId := by
  intro o ho hk
  have hleast := (h.classInv hmem).least o ho hk
  have hset : {k | ∃ p ∈ s.used, (s.ops p).body.kind = .output ∧
      ReflTransGen (fun a b => b ∈ (s.ops a).outputs) o p ∧ cls p = k} = s.classesAbove cls o := by
    ext k
    constructor
    · rintro ⟨p,hp,hpk,hreach,hkey⟩
      exact ⟨p,⟨hp,hpk⟩,hreach,hkey⟩
    · rintro ⟨p,⟨hp,hpk⟩,hreach,hkey⟩
      exact ⟨p,hp,hpk,hreach,hkey⟩
  rw [hset]
  exact hleast

def positiveClasses : List Call → PlanState → Bool
  | [], _ => true
  | c :: cs, s => (!c.isQuery || decide (1 ≤ s.currentQueryClass)) && positiveClasses cs (finalState (c.run s))

theorem ClassedRun.runCalls {mem : OpId → Operator} (h : ClassedRun mem s cls) (cs : List Call)
    (hc : returns (runCalls cs s) = true) (hclass : positiveClasses cs s = true) :
    ∃ cls', ClassedRun mem (finalState (Physical.runCalls cs s)) cls' := by
  induction cs generalizing s cls with
  | nil => exact ⟨cls,h⟩
  | cons c cs ih =>
    rw [eq_ok_of_returns hc]
    obtain ⟨_,t,h1,h2⟩ := bind_eq_ok.mp (eq_ok_of_returns hc)
    simp only [positiveClasses, Bool.and_eq_true, Bool.or_eq_true, Bool.not_eq_true', decide_eq_true_eq, h1,
      finalState_ok] at hclass
    have hnext := h.call c h1 fun hq => hclass.1.resolve_left (by simp [hq])
    have hrest := ih hnext (by rw [h2]; rfl) hclass.2
    rw [h2] at hrest
    exact hrest

/-- Three queries over a stream, the first without an output, the others under class 2 and then under class 1. -/
def threeClasses : List Call :=
  [.addBaseTable oneAttrTables 1, .addLogicalQueryPlan blankUninit 0 (positiveRows 1) false, .map oneAttrTables 0 2,
    .setQueryClass 2, .addLogicalQueryPlan blankUninit 1 (positiveRows 2) true, .setQueryClass 1,
    .addLogicalQueryPlan blankUninit 2 (positiveRows 1) true]

theorem threeClasses_least : ∃ cls : OpId → ℤ, ∀ o ∈ (finalState (runCalls threeClasses (newPlanManager blankMemory))).used,
    ((finalState (runCalls threeClasses (newPlanManager blankMemory))).ops o).body.kind ≠ .ssGen →
    LeastOr 0 {k | ∃ p ∈ (finalState (runCalls threeClasses (newPlanManager blankMemory))).used,
      ((finalState (runCalls threeClasses (newPlanManager blankMemory))).ops p).body.kind = .output ∧
      ReflTransGen (fun a b => b ∈ ((finalState (runCalls threeClasses (newPlanManager blankMemory))).ops a).outputs) o p ∧
      cls p = k} ((finalState (runCalls threeClasses (newPlanManager blankMemory))).ops o).queryClassId := by
  have hstart : ClassedRun blankMemory (newPlanManager blankMemory) (fun _ => 0) := ClassedRun.start
  obtain ⟨cls,h⟩ := hstart.runCalls threeClasses (by decide +kernel) (by decide +kernel)
  exact ⟨cls,queryClass_least (fun _ => rfl) h⟩

/-- The classes of source, view and the two queries. -/
example : (finalState (runCalls threeClasses (newPlanManager blankMemory))).used.map
    (finalState (runCalls threeClasses (newPlanManager blankMemory))).queryClass = [1, 0, 1, 2, 0, 2, 2, 2, 1, 1] := by
  decide +kernel

end AqsiosCoordinator.Physical
