import AqsiosCoordinator.Metadata.PoolInvariant
import Mathlib.Data.List.Count

/-! # What the constructors of physical operators have done when they return -/
namespace AqsiosCoordinator.Physical
open Common Foundation Foundation.Outcome

variable {s t u : PlanState} {op child parent : OpId}

/-- The state after `parent` has been added to the outputs of each of the operators `cs`. -/
def PlanState.readBy (s : PlanState) (cs : List OpId) (parent : OpId) : PlanState :=
  { s with ops := fun o => { s.ops o with outputs := (s.ops o).outputs ++ List.replicate (cs.count o) parent } }

theorem getOp_ok {o : OpId} {x : Operator} : getOp o s = .ok x t ↔ s.ops o = x ∧ s = t := by
  constructor
  · intro h
    cases h
    exact ⟨rfl,rfl⟩
  · rintro ⟨rfl,rfl⟩
    rfl

theorem modifyOp_ok {o : OpId} {f : Operator → Operator} {a : Unit} :
    modifyOp o f s = .ok a t ↔ s.setOp o (f (s.ops o)) = t := modify_eq_ok

theorem addOutput_ok {a : Unit} : addOutput child parent s = .ok a t ↔
    (s.ops child).outputs.length < MAX_OUT_BRANCHING ∧ s.readBy [child] parent = t := by
  have hstate : s.setOp child { s.ops child with outputs := (s.ops child).outputs ++ [parent] } =
      s.readBy [child] parent := by
    unfold PlanState.setOp PlanState.readBy
    congr 1
    funext o
    by_cases ho : o = child
    · subst ho
      simp
    · simp [ho,Ne.symm ho]
  simp only [addOutput, bind_eq_ok, getOp_ok, failIf_eq_ok, modifyOp_ok]
  constructor
  · rintro ⟨c,_,⟨rfl,rfl⟩,_,_,⟨hlt,rfl⟩,rfl⟩
    exact ⟨by omega,hstate.symm⟩
  · rintro ⟨hlt,rfl⟩
    exact ⟨_,s,⟨rfl,rfl⟩,⟨⟩,s,⟨by omega,rfl⟩,hstate⟩

theorem readBy_readBy (cs ds : List OpId) : (s.readBy cs parent).readBy ds parent = s.readBy (cs ++ ds) parent := by
  unfold PlanState.readBy
  simp [List.append_assoc,List.replicate_append_replicate]

theorem addOutputs_ok {cs : List OpId} {a : Unit} (h : addOutputs cs parent s = .ok a t) :
    t = s.readBy cs parent := by
  induction cs generalizing s with
  | nil =>
    obtain ⟨-,rfl⟩ := pure_eq_ok.mp h
    unfold PlanState.readBy
    simp
  | cons c cs ih =>
    unfold addOutputs at h
    obtain ⟨_,r,h1,h2⟩ := bind_eq_ok.mp h
    obtain ⟨-,rfl⟩ := addOutput_ok.mp h1
    rw [ih h2, readBy_readBy]
    rfl

structure Added (op : OpId) (body : Body) (attrs : List Column) (bStream : Bool) (inputs : List OpId)
    (s t : PlanState) : Prop where
  inv : PoolInv t
  used : t.used = op :: s.used
  free : s.free = op :: t.free
  inputs_mem : ∀ i ∈ inputs, i ∈ s.used
  self : t.ops op = ⟨(s.ops op).queryClassId,body,attrs,bStream,[],inputs⟩
  other : ∀ o, o ≠ op →
    t.ops o = { s.ops o with outputs := (s.ops o).outputs ++ List.replicate (inputs.count o) op }
  tables : t.tables = s.tables

variable {body : Body} {attrs : List Column} {bStream : Bool} {inputs : List OpId}

theorem Added.not_mem (h : Added op body attrs bStream inputs s t) (hs : PoolInv s) : op ∉ s.used :=
  fun hu => hs.disjoint op hu (h.free ▸ List.mem_cons_self)

/-- The counters of the pools of expressions do not concern the plan. -/
def PlanState.sameButCounters (s t : PlanState) : Prop :=
  ∃ n m, t = { s with numExprs := n, numBExprs := m }

theorem sameButCounters_refl (s : PlanState) : s.sameButCounters s := ⟨s.numExprs,s.numBExprs,rfl⟩

theorem PlanState.sameButCounters.trans (h : s.sameButCounters t) (h' : t.sameButCounters u) : s.sameButCounters u := by
  obtain ⟨n,m,rfl⟩ := h
  obtain ⟨n',m',rfl⟩ := h'
  exact ⟨n',m',rfl⟩

theorem NewOp.counters {body : Body} (h : NewOp body op s t) (h' : t.sameButCounters u) : NewOp body op s u := by
  obtain ⟨n,m,rfl⟩ := h'
  exact ⟨⟨h.inv.1,h.inv.2,h.inv.3⟩,h.used,h.free,h.self,h.other,h.tables⟩

/-- Completing a new operator. -/
theorem connect_ok {body' : Body} {a : Unit} (hs : PoolInv s) (hn : NewOp body' op s t) (hi : ∀ i ∈ inputs, i ∈ s.used)
    (h : connect op body attrs bStream inputs t = .ok a u) : Added op body attrs bStream inputs s u := by
  unfold connect at h
  obtain ⟨_,r,h1,h2⟩ := bind_eq_ok.mp h
  obtain rfl := modifyOp_ok.mp h1
  obtain rfl := addOutputs_ok h2
  have hop : op ∉ inputs := fun ho => hn.not_mem hs (hi op ho)
  refine ⟨⟨hn.inv.1,hn.inv.2,hn.inv.3⟩,hn.used,hn.free,hi,?_,fun o ho => ?_,hn.tables⟩
  · simp [PlanState.readBy,List.count_eq_zero_of_not_mem hop,hn.self]
  · simp only [PlanState.readBy, setOp_ops_of_ne _ ho, hn.other o ho]

theorem NewOp.ops_used {body : Body} (h : NewOp body op s t) (hs : PoolInv s) {c : OpId} (hc : c ∈ s.used) :
    t.ops c = s.ops c :=
  h.other c fun he => h.not_mem hs (he ▸ hc)

theorem mkUnary_ok {f : Bool → Bool} (hs : PoolInv s) (hc : child ∈ s.used)
    (h : mkUnary body f child s = .ok op t) :
    Added op body (s.ops child).attrs (f (s.ops child).bStream) [child] s t := by
  unfold mkUnary at h
  obtain ⟨op',r,h1,h2⟩ := bind_eq_ok.mp h
  obtain ⟨c,r',h3,h4⟩ := bind_eq_ok.mp h2
  obtain ⟨rfl,rfl⟩ := getOp_ok.mp h3
  obtain ⟨_,r'',h5,h6⟩ := bind_eq_ok.mp h4
  obtain ⟨rfl,rfl⟩ := pure_eq_ok.mp h6
  have hn := newOp_ok hs h1
  rw [hn.ops_used hs hc] at h5
  exact connect_ok hs hn (by simpa using hc) h5

theorem Added.of_counters (h' : s.sameButCounters t) (h : Added op body attrs bStream inputs t u) :
    Added op body attrs bStream inputs s u := by
  obtain ⟨n,m,rfl⟩ := h'
  exact ⟨h.inv,h.used,h.free,h.inputs_mem,h.self,h.other,h.tables⟩

theorem newExprs_ok {n : ℕ} {a : Unit} (h : newExprs n s = .ok a t) : s.sameButCounters t := by
  simp only [newExprs, bind_eq_ok, get_eq_ok, set_eq_ok, failIf_eq_ok] at h
  obtain ⟨_,_,⟨rfl,rfl⟩,_,_,rfl,-,rfl⟩ := h
  exact ⟨_,_,rfl⟩

theorem newBExpr_ok {a : Unit} (h : newBExpr s = .ok a t) : s.sameButCounters t := by
  simp only [newBExpr, bind_eq_ok, get_eq_ok, set_eq_ok, failIf_eq_ok] at h
  obtain ⟨_,_,⟨rfl,rfl⟩,_,_,⟨-,rfl⟩,rfl⟩ := h
  exact ⟨_,_,rfl⟩

variable {v : Uninit} {schemas : List (List Logical.Attr)} {children : List OpId}

theorem transformExpr_ok {e : Logical.Expr} {e' : Expr} (h : transformExpr v schemas e s = .ok e' t) :
    s.sameButCounters t ∧ e' = e.map (transformAttr v schemas) := by
  obtain ⟨_,r,h1,h2⟩ := bind_eq_ok.mp h
  obtain ⟨rfl,rfl⟩ := pure_eq_ok.mp h2
  exact ⟨newExprs_ok h1,rfl⟩

theorem transformExprs_ok {es : List Logical.Expr} {es' : List Expr}
    (h : es.mapM (transformExpr v schemas) s = .ok es' t) :
    s.sameButCounters t ∧ es' = es.map (Expr.map (transformAttr v schemas)) := by
  induction es generalizing s es' with
  | nil =>
    rw [List.mapM_nil] at h
    obtain ⟨rfl,rfl⟩ := pure_eq_ok.mp h
    exact ⟨sameButCounters_refl s,rfl⟩
  | cons e es ih =>
    rw [List.mapM_cons] at h
    obtain ⟨e₁,r,h1,h2⟩ := bind_eq_ok.mp h
    obtain ⟨es₁,r',h3,h4⟩ := bind_eq_ok.mp h2
    obtain ⟨rfl,rfl⟩ := pure_eq_ok.mp h4
    obtain ⟨hc,rfl⟩ := transformExpr_ok h1
    obtain ⟨hc',rfl⟩ := ih h3
    exact ⟨hc.trans hc',rfl⟩

/-- A predicate of a logical plan over the positions in the schemas of the inputs. -/
def transformedBExpr (v : Uninit) (schemas : List (List Logical.Attr)) (b : Logical.BExpr) : BExpr :=
  ⟨b.op,b.left.map (transformAttr v schemas),b.right.map (transformAttr v schemas)⟩

theorem transformBExpr_ok {b : Logical.BExpr} {b' : BExpr} (h : transformBExpr v schemas b s = .ok b' t) :
    s.sameButCounters t ∧ b' = transformedBExpr v schemas b := by
  obtain ⟨_,r,h1,h2⟩ := bind_eq_ok.mp h
  obtain ⟨_,r',h3,h4⟩ := bind_eq_ok.mp h2
  obtain ⟨rfl,rfl⟩ := pure_eq_ok.mp h4
  exact ⟨(newExprs_ok h1).trans (newBExpr_ok h3),rfl⟩

theorem phyChild_ok {i : ℕ} {c : OpId} : phyChild children i s = .ok c t ↔ children[i]? = some c ∧ s = t := by
  unfold phyChild
  cases children[i]? with
  | none => simp
  | some d => simp

/-- A predicate has been added to an operator that is a select. -/
structure SelectGrown (child : OpId) (pred : BExpr) (s t : PlanState) : Prop where
  inv : PoolInv t
  used : t.used = s.used
  free : t.free = s.free
  self : ∃ preds, (s.ops child).body = .select preds ∧
    t.ops child = { s.ops child with body := .select (pred :: preds) }
  other : ∀ o, o ≠ child → t.ops o = s.ops o
  tables : t.tables = s.tables

theorem mkSelect_ok {bexpr : Logical.BExpr} (hs : PoolInv s) (hc : ∀ c ∈ children, c ∈ s.used)
    (h : mkSelect v schemas bexpr children s = .ok op t) :
    ∃ child, children[0]? = some child ∧
      ((op = child ∧ SelectGrown child (transformedBExpr v schemas bexpr) s t) ∨
       ((s.ops child).body.kind ≠ .select ∧
        Added op (.select [transformedBExpr v schemas bexpr]) (s.ops child).attrs (s.ops child).bStream [child] s t)) := by
  obtain ⟨pred,r,h1,h2⟩ := bind_eq_ok.mp h
  obtain ⟨child,r',h3,h4⟩ := bind_eq_ok.mp h2
  obtain ⟨c,r'',h5,h6⟩ := bind_eq_ok.mp h4
  obtain ⟨hcount,rfl⟩ := transformBExpr_ok h1
  obtain ⟨hchild,rfl⟩ := phyChild_ok.mp h3
  obtain ⟨rfl,rfl⟩ := getOp_ok.mp h5
  refine ⟨child,hchild,?_⟩
  have hmem : child ∈ s.used := hc child (List.mem_of_getElem? hchild)
  have hs' : PoolInv r := by
    obtain ⟨n,m,rfl⟩ := hcount
    exact ⟨hs.1,hs.2,hs.3⟩
  have hnew (hk : (r.ops child).body.kind ≠ .select)
      (hu : mkUnary (.select [transformedBExpr v schemas bexpr]) (fun b => b) child r = .ok op t) :
      (s.ops child).body.kind ≠ .select ∧
        Added op (.select [transformedBExpr v schemas bexpr]) (s.ops child).attrs (s.ops child).bStream [child] s t := by
    have hadd := mkUnary_ok hs' (by obtain ⟨n,m,rfl⟩ := hcount; exact hmem) hu
    obtain ⟨n,m,rfl⟩ := hcount
    exact ⟨hk,hadd.of_counters ⟨n,m,rfl⟩⟩
  cases hbody : (r.ops child).body with
  | select preds =>
    simp only [hbody] at h6
    obtain ⟨_,r₂,h7,h8⟩ := bind_eq_ok.mp h6
    obtain ⟨rfl,rfl⟩ := pure_eq_ok.mp h8
    obtain rfl := modifyOp_ok.mp h7
    obtain ⟨n,m,rfl⟩ := hcount
    exact .inl ⟨rfl,⟨hs.1,hs.2,hs.3⟩,rfl,rfl,⟨preds,hbody,setOp_ops_self _ _⟩,fun o ho => setOp_ops_of_ne _ ho,rfl⟩
  | _ =>
    refine .inr (hnew (by simp [hbody,Body.kind]) ?_)
    simpa only [hbody] using h6

theorem mkProject_ok {projExprs : List Logical.Expr} {n : ℕ} (hs : PoolInv s) (hc : ∀ c ∈ children, c ∈ s.used)
    (h : mkProject v schemas projExprs n children s = .ok op t) :
    n ≤ projExprs.length ∧ n ≤ MAX_ATTRS ∧ ∃ child, children[0]? = some child ∧
      Added op (.project ((projExprs.take n).map (Expr.map (transformAttr v schemas))))
        (((projExprs.take n).map (Expr.map (transformAttr v schemas))).map (projColumn v (s.ops child)))
        (s.ops child).bStream [child] s t := by
  obtain ⟨op',r,h1,h⟩ := bind_eq_ok.mp h
  obtain ⟨_,_,h2,h⟩ := bind_eq_ok.mp h
  obtain ⟨hn,rfl⟩ := failIf_eq_ok.mp h2
  obtain ⟨_,_,h3,h⟩ := bind_eq_ok.mp h
  obtain ⟨hl,rfl⟩ := failIf_eq_ok.mp h3
  obtain ⟨projs,r',h4,h⟩ := bind_eq_ok.mp h
  obtain ⟨child,_,h5,h⟩ := bind_eq_ok.mp h
  obtain ⟨hchild,rfl⟩ := phyChild_ok.mp h5
  obtain ⟨c,_,h6,h⟩ := bind_eq_ok.mp h
  obtain ⟨rfl,rfl⟩ := getOp_ok.mp h6
  obtain ⟨_,r'',h7,h8⟩ := bind_eq_ok.mp h
  obtain ⟨rfl,rfl⟩ := pure_eq_ok.mp h8
  obtain ⟨hcount,rfl⟩ := transformExprs_ok h4
  have hmem : child ∈ s.used := hc child (List.mem_of_getElem? hchild)
  have hnew := (newOp_ok hs h1).counters hcount
  rw [hnew.ops_used hs hmem] at h7
  exact ⟨by omega,by omega,child,hchild,connect_ok hs hnew (by simpa using hmem) h7⟩

theorem mkBinaryJoin_ok {mk : ℕ → ℕ → List BExpr → Body} {f : Bool → Bool → Bool} (hs : PoolInv s)
    (hc : ∀ c ∈ children, c ∈ s.used) (h : mkBinaryJoin mk f children s = .ok op t) :
    ∃ outer inner, children[0]? = some outer ∧ children[1]? = some inner ∧
      Added op (mk (s.ops outer).attrs.length (s.ops inner).attrs.length []) ((s.ops outer).attrs ++ (s.ops inner).attrs)
        (f (s.ops outer).bStream (s.ops inner).bStream) [outer, inner] s t := by
  obtain ⟨op',r,h1,h⟩ := bind_eq_ok.mp h
  obtain ⟨outer,_,h2,h⟩ := bind_eq_ok.mp h
  obtain ⟨houter,rfl⟩ := phyChild_ok.mp h2
  obtain ⟨inner,_,h3,h⟩ := bind_eq_ok.mp h
  obtain ⟨hinner,rfl⟩ := phyChild_ok.mp h3
  obtain ⟨o,_,h4,h⟩ := bind_eq_ok.mp h
  obtain ⟨rfl,rfl⟩ := getOp_ok.mp h4
  obtain ⟨i,_,h5,h⟩ := bind_eq_ok.mp h
  obtain ⟨rfl,rfl⟩ := getOp_ok.mp h5
  obtain ⟨_,_,h6,h⟩ := bind_eq_ok.mp h
  obtain ⟨-,rfl⟩ := failIf_eq_ok.mp h6
  obtain ⟨_,r',h7,h8⟩ := bind_eq_ok.mp h
  obtain ⟨rfl,rfl⟩ := pure_eq_ok.mp h8
  have hmo : outer ∈ s.used := hc outer (List.mem_of_getElem? houter)
  have hmi : inner ∈ s.used := hc inner (List.mem_of_getElem? hinner)
  have hnew := newOp_ok hs h1
  rw [hnew.ops_used hs hmo, hnew.ops_used hs hmi] at h7
  exact ⟨outer,inner,houter,hinner,connect_ok hs hnew (by simp [hmo,hmi]) h7⟩

theorem mkGroupAggr_ok {groupAttrs : List Logical.Attr} {aggrs : List (AggrFn × Logical.Attr)} (hs : PoolInv s)
    (hc : ∀ c ∈ children, c ∈ s.used) (h : mkGroupAggr v schemas groupAttrs aggrs children s = .ok op t) :
    ∃ child, children[0]? = some child ∧
      Added op (.groupAggr (groupAttrs.map (transformAttr v schemas)) (aggrs.map (transformAggr v schemas)))
        ((groupAttrs.map (transformAttr v schemas)).map (attrColumn v (s.ops child)) ++
          (aggrs.map (transformAggr v schemas)).map (aggrColumn v (s.ops child))) false [child] s t := by
  obtain ⟨op',r,h1,h⟩ := bind_eq_ok.mp h
  obtain ⟨_,_,h2,h⟩ := bind_eq_ok.mp h
  obtain ⟨-,rfl⟩ := failIf_eq_ok.mp h2
  obtain ⟨child,_,h3,h⟩ := bind_eq_ok.mp h
  obtain ⟨hchild,rfl⟩ := phyChild_ok.mp h3
  obtain ⟨c,_,h4,h⟩ := bind_eq_ok.mp h
  obtain ⟨rfl,rfl⟩ := getOp_ok.mp h4
  obtain ⟨_,r',h5,h6⟩ := bind_eq_ok.mp h
  obtain ⟨rfl,rfl⟩ := pure_eq_ok.mp h6
  have hmem : child ∈ s.used := hc child (List.mem_of_getElem? hchild)
  have hnew := newOp_ok hs h1
  rw [hnew.ops_used hs hmem] at h5
  exact ⟨child,hchild,connect_ok hs hnew (by simpa using hmem) h5⟩

theorem mkSetOp_ok {f : Bool → Bool → Bool} (hs : PoolInv s) (hc : ∀ c ∈ children, c ∈ s.used)
    (h : mkSetOp body f v children s = .ok op t) :
    ∃ l r, children[0]? = some l ∧ children[1]? = some r ∧
      Added op body (unionColumns v (s.ops l).attrs (s.ops r).attrs) (f (s.ops l).bStream (s.ops r).bStream)
        [l, r] s t := by
  obtain ⟨op',w,h1,h⟩ := bind_eq_ok.mp h
  obtain ⟨l,_,h2,h⟩ := bind_eq_ok.mp h
  obtain ⟨hl,rfl⟩ := phyChild_ok.mp h2
  obtain ⟨r,_,h3,h⟩ := bind_eq_ok.mp h
  obtain ⟨hr,rfl⟩ := phyChild_ok.mp h3
  obtain ⟨o,_,h4,h⟩ := bind_eq_ok.mp h
  obtain ⟨rfl,rfl⟩ := getOp_ok.mp h4
  obtain ⟨i,_,h5,h⟩ := bind_eq_ok.mp h
  obtain ⟨rfl,rfl⟩ := getOp_ok.mp h5
  obtain ⟨_,w',h6,h7⟩ := bind_eq_ok.mp h
  obtain ⟨rfl,rfl⟩ := pure_eq_ok.mp h7
  have hml : l ∈ s.used := hc l (List.mem_of_getElem? hl)
  have hmr : r ∈ s.used := hc r (List.mem_of_getElem? hr)
  have hnew := newOp_ok hs h1
  rw [hnew.ops_used hs hml, hnew.ops_used hs hmr] at h6
  exact ⟨l,r,hl,hr,connect_ok hs hnew (by simp [hml,hmr]) h6⟩

theorem ofChild_ok {f : OpId → M OpId} (h : (do f (← phyChild children 0)) s = .ok op t) :
    ∃ child, children[0]? = some child ∧ f child s = .ok op t := by
  obtain ⟨child,_,h1,h2⟩ := bind_eq_ok.mp h
  obtain ⟨hchild,rfl⟩ := phyChild_ok.mp h1
  exact ⟨child,hchild,h2⟩

end AqsiosCoordinator.Physical
