import AqsiosCoordinator.Querygen.BinaryCrosses
import AqsiosCoordinator.Querygen.OperatorLinks

/-! # Making crosses binary in the pool

The transformations as they change the operators of the pool and the links between them.
-/
namespace AqsiosCoordinator.Logical
open Common Foundation Foundation.Outcome Metadata

def orFail (o : Option OpId) : M OpId :=
  match o with
  | some x => pure x
  | none => throw (.code (-1))

def findCross (kind : Kind) : ℕ → OpId → M (Option OpId)
  | 0, _ => throw .nonTermination
  | n+1, op => do
    let o ← getOp op
    if o.kind = kind then return some op
    if Plan.isUnaryAboveCross o.kind then findCross kind n (← deref o.inputs.head?) else return none

def binaryCross (left right : OpId) : M OpId := do
  let cross ← orFail (← mkCross)
  let cross ← orFail (← crossAddInput cross left)
  orFail (← crossAddInput cross right)

def binaryStreamCross (left right : OpId) : M OpId := do
  let cross ← orFail (← mkStreamCross left)
  orFail (← streamCrossAddInput cross right)

/-- The root of the plan after an operator of the kind with several inputs has become a sequence of binary ones. -/
def makeBinary (binary : OpId → OpId → M OpId) (kind : Kind) (fuel : ℕ) (plan : OpId) : M OpId := do
  match ← findCross kind fuel plan with
  | none => return plan
  | some cross =>
    match (← getOp cross).inputs with
    | [_, _] => return plan
    | first :: second :: rest => do
      let binCross ← binary first second
      let binCross ← rest.foldlM binary binCross
      let output := (← getOp cross).output
      modify (fun p => p.setOutput binCross output)
      match output with
      | some output => do
        modify (fun p => p.setInputs output ((p.ops output).inputs.set 0 binCross))
        return plan
      | none => return binCross
    | _ => throw .outOfBounds

def tMakeCrossBinary (fuel : ℕ) (plan : OpId) : M OpId := makeBinary binaryCross .cross fuel plan

def tMakeStreamCrossBinary (fuel : ℕ) (plan : OpId) : M OpId := makeBinary binaryStreamCross .streamCross fuel plan

def Pool.joined (s : Pool) (kind : Kind) (l r : OpId) : Pool :=
  ⟨fun o =>
    if o = s.operatorPtr then
      ⟨kind,(s.ops l).outAttrs ++ (s.ops r).outAttrs,kind.streams [(s.ops l).bStream, (s.ops r).bStream],none,[l, r]⟩
    else if o = l ∨ o = r then { s.ops o with output := some s.operatorPtr }
    else s.ops o,
   s.operatorPtr + 1⟩

/-- `binary` makes an operator of the kind as long as there is one in the pool. -/
structure Joins (binary : OpId → OpId → M OpId) (kind : Kind) : Prop where
  ok : ∀ (s : Pool) (l r : OpId), l < s.operatorPtr → r < s.operatorPtr → s.operatorPtr ≠ MAXOPERATOR →
    (s.ops l).outAttrs.length + (s.ops r).outAttrs.length ≤ MAX_ATTRS → binary l r s = .ok s.operatorPtr (s.joined kind l r)
  full : ∀ (s : Pool) (l r : OpId), s.operatorPtr = MAXOPERATOR → binary l r s = .error (.code (-1)) s

section Constructors
variable {s : Pool} {kind : Kind} {outAttrs : List Attr} {bStream : Bool} {c i : OpId}

theorem getOp_apply : getOp c s = .ok (s.ops c) s := rfl

theorem newop_full {inputs : List OpId} (h : s.operatorPtr = MAXOPERATOR) : newop kind outAttrs bStream inputs s = .ok none s := by
  unfold newop
  rw [bind_of_ok (get_apply s), if_pos h]
  rfl

theorem newop_nil (h : s.operatorPtr ≠ MAXOPERATOR) : newop kind outAttrs bStream [] s = .ok (some s.operatorPtr)
    (Pool.set ⟨s.ops,s.operatorPtr + 1⟩ s.operatorPtr ⟨kind,outAttrs,bStream,none,[]⟩) := by
  unfold newop
  rw [bind_of_ok (get_apply s), if_neg h]
  rfl

theorem newop_single (h : s.operatorPtr ≠ MAXOPERATOR) : newop kind outAttrs bStream [i] s = .ok (some s.operatorPtr)
    ((Pool.set ⟨s.ops,s.operatorPtr + 1⟩ s.operatorPtr ⟨kind,outAttrs,bStream,none,[i]⟩).setOutput i (some s.operatorPtr)) := by
  unfold newop
  rw [bind_of_ok (get_apply s), if_neg h]
  rfl

theorem crossAddInput_ok (hlen : (s.ops c).outAttrs.length + (s.ops i).outAttrs.length ≤ MAX_ATTRS)
    (hin : (s.ops c).inputs.length ≠ MAX_INPUT_OPS) : crossAddInput c i s = .ok (some c)
      ((s.set c ⟨(s.ops c).kind,(s.ops c).outAttrs ++ (s.ops i).outAttrs,(s.ops c).bStream && (s.ops i).bStream,
        (s.ops c).output,(s.ops c).inputs ++ [i]⟩).setOutput i (some c)) := by
  unfold crossAddInput
  rw [bind_of_ok getOp_apply, bind_of_ok getOp_apply, if_neg (Nat.not_lt.mpr hlen), if_neg hin]
  rfl

theorem streamCrossAddInput_ok (hci : i ≠ c) (hlen : (s.ops c).outAttrs.length + (s.ops i).outAttrs.length ≤ MAX_ATTRS)
    (hin : (s.ops c).inputs.length ≠ MAX_INPUT_OPS) : streamCrossAddInput c i s = .ok (some c)
      ((s.set c { s.ops c with
        outAttrs := (s.ops c).outAttrs ++ (s.ops i).outAttrs, inputs := (s.ops c).inputs ++ [i] }).setOutput i (some c)) := by
  unfold streamCrossAddInput
  rw [bind_of_ok getOp_apply, if_neg hin, bind_of_ok (modify_apply _ s), bind_of_ok (modify_apply _ _),
    bind_of_ok getOp_apply, bind_of_ok getOp_apply]
  simp only [Pool.setOutput_of_ne hci.symm, Pool.setOutput_self, Pool.setInputs_self, Pool.setInputs_of_ne hci]
  rw [if_neg (Nat.not_lt.mpr hlen)]
  refine (bind_of_ok (modify_apply _ _)).trans (congrArg (EStateM.Result.ok (some c)) (Pool.eq_of_ops rfl fun o => ?_))
  by_cases hc : o = c
  · subst hc
    simp [Pool.setOutput_of_ne hci.symm]
  · by_cases hi : o = i
    · subst hi
      simp [Pool.set_of_ne hc,Pool.setInputs_of_ne hc]
    · simp [Pool.set_of_ne hc,Pool.setInputs_of_ne hc,Pool.setOutput_of_ne hi]

end Constructors

theorem joins_cross : Joins binaryCross .cross := by
  constructor
  · intro s l r hl hr hfull hlen
    unfold binaryCross mkCross
    rw [bind_of_ok (newop_nil hfull)]
    refine (bind_of_ok (crossAddInput_ok ?_ ?_)).trans ?_
    · simp [Pool.set_of_ne hl.ne]
      omega
    · simp [MAX_INPUT_OPS]
    refine (bind_of_ok (crossAddInput_ok ?_ ?_)).trans ?_
    · simp [Pool.set_of_ne hl.ne,Pool.set_of_ne hr.ne]
      omega
    · simp [MAX_INPUT_OPS]
    refine congrArg (EStateM.Result.ok s.operatorPtr) (Pool.eq_of_ops rfl fun o => ?_)
    by_cases hnew : o = s.operatorPtr
    · subst hnew
      simp [Pool.joined,Pool.setOutput_of_ne hr.ne',Pool.setOutput_of_ne hl.ne',Pool.set_of_ne hr.ne,Pool.set_of_ne hl.ne,
        Kind.streams]
    · by_cases hor : o = r
      · subst hor
        simp [Pool.joined,hnew,Pool.set_of_ne hnew]
      · by_cases hol : o = l
        · subst hol
          simp [Pool.joined,hnew,Pool.setOutput_of_ne hor,Pool.set_of_ne hnew]
        · simp [Pool.joined,hnew,hol,hor,Pool.setOutput_of_ne hor,Pool.setOutput_of_ne hol,Pool.set_of_ne hnew]
  · intro s l r hfull
    unfold binaryCross mkCross
    rw [bind_of_ok (newop_full hfull)]
    rfl

theorem joins_streamCross : Joins binaryStreamCross .streamCross := by
  constructor
  · intro s l r hl hr hfull hlen
    unfold binaryStreamCross mkStreamCross
    rw [bind_of_ok (bind_of_ok getOp_apply |>.trans (newop_single hfull))]
    refine (bind_of_ok (streamCrossAddInput_ok hr.ne ?_ ?_)).trans ?_
    · simpa [Pool.set_of_ne hr.ne,Pool.setOutput_of_ne hl.ne'] using hlen
    · simp [MAX_INPUT_OPS]
    refine congrArg (EStateM.Result.ok s.operatorPtr) (Pool.eq_of_ops rfl fun o => ?_)
    by_cases hnew : o = s.operatorPtr
    · subst hnew
      simp [Pool.joined,Pool.setOutput_of_ne hr.ne',Pool.setOutput_of_ne hl.ne',Pool.set_of_ne hr.ne,Kind.streams]
    · by_cases hor : o = r
      · subst hor
        simp [Pool.joined,hnew,Pool.set_of_ne hnew]
      · by_cases hol : o = l
        · subst hol
          simp [Pool.joined,hnew,Pool.setOutput_of_ne hor,Pool.set_of_ne hnew]
        · simp [Pool.joined,hnew,hol,hor,Pool.setOutput_of_ne hor,Pool.setOutput_of_ne hol,Pool.set_of_ne hnew]
  · intro s l r hfull
    unfold binaryStreamCross mkStreamCross
    rw [bind_of_ok (bind_of_ok getOp_apply |>.trans (newop_full hfull))]
    rfl

/-- Operators in use with the plans below them, which have nothing in common. -/
structure Separate (s : Pool) (parts : List Part) : Prop where
  linked : ∀ x ∈ parts, ∃ output, Linked s output x.id x.plan x.ids
  nodup : (parts.flatMap Part.ids).Nodup
  used : ∀ y ∈ parts.flatMap Part.ids, y < s.operatorPtr

section Loop
variable {s : Pool} {binary : OpId → OpId → M OpId} {kind : Kind} {l r : Part} {rest : List Part}

theorem Pool.joined_of_ne {o : OpId} {a b : OpId} (hnew : o ≠ s.operatorPtr) (ha : o ≠ a) (hb : o ≠ b) :
    (s.joined kind a b).ops o = s.ops o := by
  simp [Pool.joined,hnew,ha,hb]

def Part.join (s : Pool) (kind : Kind) (l r : Part) : Part :=
  ⟨s.operatorPtr,Plan.binaryNode kind l.plan r.plan,s.operatorPtr :: (l.ids ++ r.ids)⟩

theorem Separate.mem_id {parts : List Part} (h : Separate s parts) {x : Part} (hx : x ∈ parts) : x.id ∈ x.ids := by
  obtain ⟨output,hlinked⟩ := h.linked x hx
  exact hlinked.mem_ids

/-- Joining two parts leaves the others alone. -/
theorem Separate.join (h : Separate s (l :: r :: rest)) : Separate (s.joined kind l.id r.id) (Part.join s kind l r :: rest) := by
  obtain ⟨outputl,hl⟩ := h.linked l (by simp)
  obtain ⟨outputr,hr⟩ := h.linked r (by simp)
  have hnodup := h.nodup
  simp only [List.flatMap_cons, List.nodup_append', List.disjoint_append_right] at hnodup
  obtain ⟨hnl,⟨hnr,hnrest,hrrest⟩,hlr,hlrest⟩ := hnodup
  have hused : ∀ y, y ∈ l.ids ∨ y ∈ r.ids ∨ y ∈ rest.flatMap Part.ids → y < s.operatorPtr := by
    simpa only [List.flatMap_cons, List.mem_append] using h.used
  have hlr' : l.id ≠ r.id := fun he => hlr hl.mem_ids (he ▸ hr.mem_ids)
  have hlnew : l.id ≠ s.operatorPtr := (hused _ (.inl hl.mem_ids)).ne
  have hrnew : r.id ≠ s.operatorPtr := (hused _ (.inr (.inl hr.mem_ids))).ne
  refine ⟨fun x hx => ?_,?_,fun y hy => ?_⟩
  · rcases List.mem_cons.mp hx with rfl | hx
    · have hop : (s.joined kind l.id r.id).ops s.operatorPtr = ⟨kind,l.plan.outAttrs ++ r.plan.outAttrs,
          kind.streams [l.plan.bStream, r.plan.bStream],none,[l, r].map Part.id⟩ := by
        simp [Pool.joined,hl.op,hr.op]
      have hnode := Linked.node hop fun x hx => ?_
      · exact ⟨none,by simpa [Part.join,Plan.binaryNode] using hnode⟩
      · simp only [List.mem_cons, List.not_mem_nil, or_false] at hx
        rcases hx with rfl | rfl
        · refine hl.relink hnl (by simp [Pool.joined,hlnew]) fun y hy hne => Pool.joined_of_ne ?_ hne ?_
          · exact (hused y (.inl hy)).ne
          · rintro rfl
            exact hlr hy hr.mem_ids
        · refine hr.relink hnr (by simp [Pool.joined,hrnew]) fun y hy hne => Pool.joined_of_ne ?_ ?_ hne
          · exact (hused y (.inr (.inl hy))).ne
          · rintro rfl
            exact hlr hl.mem_ids hy
    · obtain ⟨output,hlinked⟩ := h.linked x (by simp [hx])
      refine ⟨output,hlinked.frame fun y hy => ?_⟩
      have hmem : y ∈ rest.flatMap Part.ids := List.mem_flatMap.mpr ⟨x,hx,hy⟩
      apply Pool.joined_of_ne
      · exact (hused y (.inr (.inr hmem))).ne
      · rintro rfl
        exact hlrest hl.mem_ids hmem
      · rintro rfl
        exact hrrest hr.mem_ids hmem
  · simp only [List.flatMap_cons, Part.join, List.cons_append, List.nodup_cons, List.append_assoc]
    refine ⟨fun hmem => ?_,?_⟩
    · exact lt_irrefl _ (hused s.operatorPtr (by simpa using hmem))
    · simpa using h.nodup
  · simp only [List.flatMap_cons, Part.join, List.cons_append, List.mem_cons, List.mem_append] at hy
    have hlt : y ≤ s.operatorPtr := by
      rcases hy with rfl | (hy | hy) | hy
      · exact le_refl _
      · exact (hused y (.inl hy)).le
      · exact (hused y (.inr (.inl hy))).le
      · exact (hused y (.inr (.inr hy))).le
    exact Nat.lt_succ_of_le hlt

theorem Separate.step (hbinary : Joins binary kind) (h : Separate s (l :: r :: rest)) (hfull : s.operatorPtr ≠ MAXOPERATOR)
    (hattrs : l.plan.outAttrs.length + r.plan.outAttrs.length ≤ MAX_ATTRS) :
    binary l.id r.id s = .ok s.operatorPtr (s.joined kind l.id r.id) ∧
      Separate (s.joined kind l.id r.id) (Part.join s kind l r :: rest) := by
  obtain ⟨outputl,hl⟩ := h.linked l (by simp)
  obtain ⟨outputr,hr⟩ := h.linked r (by simp)
  have hlused : l.id < s.operatorPtr := h.used _ (List.mem_flatMap.mpr ⟨l,by simp,hl.mem_ids⟩)
  have hrused : r.id < s.operatorPtr := h.used _ (List.mem_flatMap.mpr ⟨r,by simp,hr.mem_ids⟩)
  refine ⟨hbinary.ok s l.id r.id hlused hrused hfull ?_,h.join⟩
  rw [hl.op.2.1, hr.op.2.1]
  exact hattrs

/-- The operators that a loop of joins leaves alone are those that it does not join. -/
theorem joins_ok (hbinary : Joins binary kind) (h : Separate s (l :: rest)) (hpool : s.operatorPtr + rest.length ≤ MAXOPERATOR)
    (hattrs : ((l :: rest).map fun x => x.plan.outAttrs.length).sum ≤ MAX_ATTRS) :
    ∃ s' x, (rest.map Part.id).foldlM binary l.id s = .ok x.id s' ∧ s'.operatorPtr = s.operatorPtr + rest.length ∧
      x.plan = Plan.leftDeep kind l.plan (rest.map Part.plan) ∧ Separate s' [x] ∧
      x.ids.Perm (List.range' s.operatorPtr rest.length ++ (l :: rest).flatMap Part.ids) ∧
      (∀ y < s.operatorPtr, y ∉ (l :: rest).map Part.id → s'.ops y = s.ops y) ∧
      (rest ≠ [] → ∀ y ∈ (l :: rest).map Part.id,
        ∃ n ∈ List.range' s.operatorPtr rest.length, (s'.ops y).output = some n) ∧
      (rest = [] ∧ x = l ∨ s.operatorPtr ≤ x.id) := by
  induction rest generalizing l s with
  | nil => exact ⟨s,l,rfl,rfl,rfl,h,by simp,fun y _ _ => rfl,fun hne => absurd rfl hne,.inl ⟨rfl,rfl⟩⟩
  | cons r rest ih =>
    simp only [List.length_cons, List.map_cons, List.sum_cons] at hpool hattrs
    obtain ⟨hstep,hjoin⟩ := h.step hbinary (by omega) (by omega)
    have hptr : (s.joined kind l.id r.id).operatorPtr = s.operatorPtr + 1 := rfl
    obtain ⟨s',x,h1,h2,h3,h4,h5,h6,h7,h8⟩ := ih hjoin (by rw [hptr]; omega) (by
      simp only [List.map_cons, List.sum_cons, Part.join, Plan.binaryNode, Plan.outAttrs_node, List.length_append]
      omega)
    refine ⟨s',x,?_,?_,h3,h4,?_,fun y hy hne => ?_,fun _ y hy => ?_,?_⟩
    · rw [List.map_cons, List.foldlM_cons, bind_of_ok hstep]
      exact h1
    · rw [h2, hptr, List.length_cons]
      omega
    · refine h5.trans ?_
      rw [hptr, List.length_cons, List.range'_succ]
      simp only [List.flatMap_cons, Part.join, List.cons_append, List.append_assoc]
      exact List.perm_middle
    · simp only [List.map_cons, List.mem_cons, not_or] at hne
      rw [h6 y (by rw [hptr]; omega) ?_, Pool.joined_of_ne hy.ne hne.1 hne.2.1]
      simp only [List.map_cons, List.mem_cons, not_or]
      exact ⟨hy.ne,hne.2.2⟩
    · by_cases hrest : y ∈ rest.map Part.id
      · have hne : rest ≠ [] := by
          rintro rfl
          simp at hrest
        obtain ⟨n,hn,hout⟩ := h7 hne y (List.mem_cons_of_mem _ hrest)
        refine ⟨n,?_,hout⟩
        rw [hptr] at hn
        rw [List.length_cons, List.range'_succ]
        exact List.mem_cons_of_mem _ hn
      · have hlr : y = l.id ∨ y = r.id := by
          simpa [hrest] using hy
        have hold : y < s.operatorPtr := by
          rcases hlr with rfl | rfl
          · exact h.used _ (List.mem_flatMap.mpr ⟨l,by simp,h.mem_id (by simp)⟩)
          · exact h.used _ (List.mem_flatMap.mpr ⟨r,by simp,h.mem_id (by simp)⟩)
        refine ⟨s.operatorPtr,by simp,?_⟩
        rw [h6 y (Nat.lt_succ_of_lt hold) (by simpa [Part.join,hold.ne] using hrest)]
        simp [Pool.joined,hold.ne,hlr]
    · rcases h8 with ⟨-,rfl⟩ | hge
      · exact .inr le_rfl
      · exact .inr (Nat.le_of_succ_le hge)

/-- A loop of more joins than operators are left fails. -/
theorem joins_full (hbinary : Joins binary kind) (h : Separate s (l :: rest)) (hptr : s.operatorPtr ≤ MAXOPERATOR)
    (hpool : MAXOPERATOR < s.operatorPtr + rest.length)
    (hattrs : ((l :: rest).map fun x => x.plan.outAttrs.length).sum ≤ MAX_ATTRS) :
    ∃ s', (rest.map Part.id).foldlM binary l.id s = .error (.code (-1)) s' ∧ s'.operatorPtr = MAXOPERATOR := by
  induction rest generalizing l s with
  | nil => simp only [List.length_nil] at hpool; omega
  | cons r rest ih =>
    simp only [List.length_cons, List.map_cons, List.sum_cons] at hpool hattrs
    rw [List.map_cons, List.foldlM_cons]
    by_cases hfull : s.operatorPtr = MAXOPERATOR
    · exact ⟨s,bind_of_error (hbinary.full s l.id r.id hfull),hfull⟩
    · obtain ⟨hstep,hjoin⟩ := h.step hbinary hfull (by omega)
      rw [bind_of_ok hstep]
      have hnext : (s.joined kind l.id r.id).operatorPtr = s.operatorPtr + 1 := rfl
      refine ih hjoin (by rw [hnext]; omega) (by rw [hnext]; omega) ?_
      simp only [List.map_cons, List.sum_cons, Part.join, Plan.binaryNode, Plan.outAttrs_node, List.length_append]
      omega

end Loop

section Walk
variable {s : Pool} {kind : Kind} {output : Option OpId} {root o : OpId} {p q : Plan} {passed passed' : List Passed} {ids ids' : List OpId}

theorem findCross_here (h : (s.ops o).kind = kind) {n : ℕ} (hn : 0 < n) : findCross kind n o s = .ok (some o) s := by
  obtain ⟨n,rfl⟩ := Nat.exists_eq_succ_of_ne_zero hn.ne'
  unfold findCross
  rw [bind_of_ok getOp_apply, if_pos h]
  rfl

theorem findCross_pass (hk : kind.IsCross) (h : Plan.isUnaryAboveCross (s.ops o).kind = true) {c : OpId}
    (hin : (s.ops o).inputs = [c]) (n : ℕ) : findCross kind (n + 1) o s = findCross kind n c s := by
  have hne : (s.ops o).kind ≠ kind := by
    rintro rfl
    rcases hk with hk | hk
    · rw [hk] at h
      cases h
    · rw [hk] at h
      cases h
  conv_lhs => unfold findCross
  rw [bind_of_ok getOp_apply, if_neg hne, if_pos h, hin]
  rfl

/-- The walk in the pool finds the operator that the walk in the tree stops at. -/
theorem findCross_ok (hk : kind.IsCross) (hchain : Chain s root passed output o ids) (h : Linked s output o p ids')
    (hw : Plan.walk Plan.isUnaryAboveCross p passed = (passed',q)) (hq : q.kind = kind) :
    ∃ output' c ids₁ ids₂, Chain s root passed' output' c ids₁ ∧ Linked s output' c q ids₂ ∧ (ids₁ ++ ids₂).Perm (ids ++ ids') ∧
      ∀ n, passed'.length < passed.length + n → findCross kind n o s = .ok (some c) s := by
  fun_induction Plan.walk Plan.isUnaryAboveCross p passed generalizing output o ids ids' with
  | case1 kind' outAttrs bStream input passed hthrough ih =>
    obtain ⟨c,ids₁,hin,hbelow,hchain',rfl⟩ := Linked.pass hchain h
    obtain ⟨output',c',ids₂,ids₃,h1,h2,h3,h4⟩ := ih hchain' hbelow hw
    refine ⟨output',c',ids₂,ids₃,h1,h2,h3.trans ?_,fun n hn => ?_⟩
    · exact List.perm_middle.symm
    · have hlen : passed.length + 1 ≤ passed'.length := by
        obtain ⟨new,hnew,-⟩ := Plan.walk_passed Plan.isUnaryAboveCross input (⟨kind',outAttrs,bStream⟩ :: passed)
        rw [hw] at hnew
        simp only at hnew
        simp [hnew]
      obtain ⟨n,rfl⟩ := Nat.exists_eq_succ_of_ne_zero (show n ≠ 0 by omega)
      have hpass : Plan.isUnaryAboveCross (s.ops o).kind = true := by
        rw [h.op.1]
        exact hthrough
      rw [findCross_pass hk hpass hin]
      exact h4 n (by simp only [List.length_cons]; omega)
  | case2 kind' outAttrs bStream input passed hthrough =>
    obtain ⟨rfl,rfl⟩ := Prod.mk.inj hw
    exact ⟨output,o,ids,ids',hchain,h,.refl _,fun n hn => findCross_here (h.op.1.trans hq) (by omega)⟩
  | case3 p passed hne =>
    obtain ⟨rfl,rfl⟩ := Prod.mk.inj hw
    exact ⟨output,o,ids,ids',hchain,h,.refl _,fun n hn => findCross_here (h.op.1.trans hq) (by omega)⟩

end Walk

section Replacement
variable {s s' : Pool} {output : Option OpId} {root c t : OpId} {p q : Plan} {passed : List Passed} {ids ids' : List OpId}

def Pool.attach (s : Pool) (output : Option OpId) (t : OpId) : Pool :=
  match output with
  | some n => (s.setOutput t output).setInputs n (((s.setOutput t output).ops n).inputs.set 0 t)
  | none => s.setOutput t output

theorem Pool.attach_of_ne {o : OpId} (ht : o ≠ t) (hn : output ≠ some o) : (s.attach output t).ops o = s.ops o := by
  cases output with
  | none => exact Pool.setOutput_of_ne ht
  | some n =>
    have hne : o ≠ n := fun he => hn (he ▸ rfl)
    exact (Pool.setInputs_of_ne hne).trans (Pool.setOutput_of_ne ht)

theorem Chain.output_mem (h : Chain s root passed output c ids) : ∀ n, output = some n →
    n ∈ ids ∧ (s.ops n).inputs = [c] := by
  cases h with
  | nil => rintro n ⟨⟩
  | cons here _ =>
    rintro n ⟨⟩
    rw [here]
    exact ⟨List.mem_cons_self,rfl⟩

/-- The plan after `t` has been attached in the place of `c`. -/
theorem Chain.attach {output' : Option OpId} (h : Chain s root passed output c ids) (heq : ∀ y ∈ ids, s'.ops y = s.ops y)
    (ht : Linked s' output' t p ids') (hids : (ids ++ ids').Nodup) :
    ∃ all, Linked (s'.attach output t) none (if output = none then t else root) (Plan.rebuild p passed) all ∧
      all.Perm (ids ++ ids') := by
  obtain ⟨hnodup,hnodup',hdis⟩ := List.nodup_append'.mp hids
  have hne : ∀ y ∈ ids, y ≠ t := by
    rintro y hy rfl
    exact hdis hy ht.mem_ids
  have hout : ∀ n, output = some n → n ≠ t := fun n hn => hne n (h.output_mem n hn).1
  refine Chain.linked (h.replace hnodup (fun n hn => ?_) fun y hy hn => ?_) (ht.relink hnodup' ?_ fun y hy hyt => ?_)
  · obtain ⟨hmem,hin⟩ := h.output_mem n hn
    subst hn
    simp [Pool.attach,Pool.setOutput_of_ne (hne n hmem),heq n hmem,hin]
  · rw [Pool.attach_of_ne (hne y hy) hn, heq y hy]
  · cases output with
    | none => simp [Pool.attach]
    | some n => simp [Pool.attach,Pool.setInputs_of_ne (hout n rfl).symm]
  · apply Pool.attach_of_ne hyt
    intro hn
    exact hdis (h.output_mem y hn).1 hy

theorem attach_apply (output : Option OpId) (root t : OpId) (s : Pool) :
    (do
      modify (fun p => p.setOutput t output)
      match output with
      | some output => do
        modify (fun p => p.setInputs output ((p.ops output).inputs.set 0 t))
        return root
      | none => return t : M OpId) s = .ok (if output = none then t else root) (s.attach output t) := by
  cases output with
  | none => rfl
  | some n => rfl

end Replacement

section Transformation
variable {s : Pool} {binary : OpId → OpId → M OpId} {kind : Kind} {root : OpId} {p first : Plan} {rest : List Plan}
variable {passed : List Passed} {outAttrs : List Attr} {bStream : Bool} {ids : List OpId} {fuel : ℕ}

/-- The loop, and what is done with the operator that it leaves. -/
theorem makeBinary_loop {cross a b c : OpId} {rs : List OpId} (hfind : findCross kind fuel root s = .ok (some cross) s)
    (hin : (s.ops cross).inputs = a :: b :: c :: rs) : makeBinary binary kind fuel root s =
      ((b :: c :: rs).foldlM binary a >>= fun t => do
        let output := (← getOp cross).output
        modify (fun p => p.setOutput t output)
        match output with
        | some output => do
          modify (fun p => p.setInputs output ((p.ops output).inputs.set 0 t))
          return root
        | none => return t : M OpId) s := by
  unfold makeBinary
  refine (bind_of_ok hfind).trans ((bind_of_ok getOp_apply).trans ?_)
  rw [hin]
  simp only [List.foldlM_cons, bind_assoc]

/-- The transformation fails when the pool is used up, and otherwise leaves a plan with a nest of
binary operators in which every input of the former operator is linked to a new one. -/
theorem makeBinary_ok (hbinary : Joins binary kind) (hk : kind.IsCross) (hlinked : Linked s none root p ids) (hids : ids.Nodup)
    (hused : ∀ y ∈ ids, y < s.operatorPtr) (hptr : s.operatorPtr ≤ MAXOPERATOR)
    (hw : Plan.walk Plan.isUnaryAboveCross p [] = (passed,.node kind outAttrs bStream (first :: rest)))
    (hn : 2 ≤ rest.length) (hattrs : ((first :: rest).map fun i => i.outAttrs.length).sum ≤ MAX_ATTRS)
    (hfuel : passed.length < fuel) : ∃ cross ∈ ids, (s.ops cross).kind = kind ∧ (s.ops cross).inputs.length = rest.length + 1 ∧
      (MAXOPERATOR < s.operatorPtr + rest.length ∧
          (∃ s', makeBinary binary kind fuel root s = .error (.code (-1)) s' ∧ s'.operatorPtr = MAXOPERATOR) ∨
        s.operatorPtr + rest.length ≤ MAXOPERATOR ∧ ∃ root' s' ids', makeBinary binary kind fuel root s = .ok root' s' ∧
          Linked s' none root' (Plan.rebuild (Plan.leftDeep kind first rest) passed) ids' ∧
          ids'.Perm (List.range' s.operatorPtr rest.length ++ ids.erase cross) ∧
          ∀ i ∈ (s.ops cross).inputs, ids'.count i = 1 ∧ ∃ n ∈ List.range' s.operatorPtr rest.length,
            (s'.ops i).output = some n ∧ i ∈ (s'.ops n).inputs) := by
  obtain ⟨output,cross,ids₁,ids₂,hchain,hcross,hperm,hfind⟩ := findCross_ok hk .nil hlinked hw rfl
  obtain ⟨parts,hop,hparts,rfl,hbelow⟩ := hcross.parts
  obtain ⟨a,rs,rfl,rfl,rfl⟩ := List.map_eq_cons_iff.mp hparts.symm
  obtain ⟨b,c,rs',rfl⟩ : ∃ b c rs', rs = b :: c :: rs' := by
    match rs, hn with
    | b :: c :: rs', _ => exact ⟨b,c,rs',rfl⟩
  have hnodup := hperm.nodup_iff.mpr hids
  have hmem : ∀ y ∈ ids₁ ++ cross :: (a :: b :: c :: rs').flatMap Part.ids, y < s.operatorPtr := fun y hy =>
    hused y (hperm.mem_iff.mp hy)
  have hsep : Separate s (a :: b :: c :: rs') := by
    refine ⟨fun x hx => ⟨_,hbelow x hx⟩,?_,fun y hy => hmem y ?_⟩
    · exact (List.nodup_cons.mp (List.nodup_append'.mp hnodup).2.1).2
    · exact List.mem_append_right _ (List.mem_cons_of_mem _ hy)
  have hin : (s.ops cross).inputs = a.id :: b.id :: c.id :: rs'.map Part.id := by
    rw [hop]
    rfl
  have hattrs' : ((a :: b :: c :: rs').map fun x => x.plan.outAttrs.length).sum ≤ MAX_ATTRS := by
    simpa [List.map_map,Function.comp_def] using hattrs
  have hcrossmem : cross ∈ ids := hperm.mem_iff.mp (List.mem_append_right _ List.mem_cons_self)
  refine ⟨cross,hcrossmem,by rw [hop],by simp [hin],?_⟩
  rw [makeBinary_loop (hfind fuel (by simpa using hfuel)) hin, List.length_map]
  rcases Nat.lt_or_ge MAXOPERATOR (s.operatorPtr + (b :: c :: rs').length) with hfull | hpool
  · obtain ⟨s',h1,h2⟩ := joins_full hbinary hsep hptr hfull hattrs'
    exact .inl ⟨hfull,s',bind_of_error h1,h2⟩
  · obtain ⟨s',x,h1,h2,h3,h4,h5,h6,h7,h8⟩ := joins_ok hbinary hsep hpool hattrs'
    -- the loop has left the operators above the cross and the cross itself alone
    have hkeep : ∀ y ∈ ids₁ ++ [cross], s'.ops y = s.ops y := by
      intro y hy
      have hnot : y ∉ (a :: b :: c :: rs').flatMap Part.ids := by
        intro hin'
        have hdis : (ids₁ ++ [cross] ++ (a :: b :: c :: rs').flatMap Part.ids).Nodup := by simpa using hnodup
        exact (List.nodup_append'.mp hdis).2.2 hy hin'
      refine h6 y (hmem y ?_) fun hid => hnot ?_
      · rw [List.append_cons]
        exact List.mem_append_left _ hy
      · obtain ⟨x,hx,rfl⟩ := List.mem_map.mp hid
        exact List.mem_flatMap.mpr ⟨x,hx,hsep.mem_id hx⟩
    have hrun : (getOp cross) s' = .ok (s.ops cross) s' := by
      rw [getOp_apply, hkeep cross (by simp)]
    obtain ⟨output',hx⟩ := h4.linked x (List.mem_singleton_self x)
    have hnew : (ids₁ ++ x.ids).Perm (List.range' s.operatorPtr (b :: c :: rs').length ++ ids.erase cross) := by
      have herase : (ids.erase cross).Perm (ids₁ ++ (a :: b :: c :: rs').flatMap Part.ids) := by
        have hcons := (hperm.symm.trans List.perm_middle).erase cross
        rwa [List.erase_cons_head] at hcons
      refine ((List.Perm.refl ids₁).append h5).trans (.trans ?_ ((List.Perm.refl _).append herase.symm))
      exact List.perm_append_comm_assoc ..
    have hnodup' : (ids₁ ++ x.ids).Nodup := by
      rw [hnew.nodup_iff, List.nodup_append']
      refine ⟨List.nodup_range',hids.erase cross,fun y hy hy' => ?_⟩
      have hlt := hused y (List.mem_of_mem_erase hy')
      exact absurd (List.mem_range'_1.mp hy).1 (Nat.not_le.mpr hlt)
    obtain ⟨all,hall,hallperm⟩ := hchain.attach (fun y hy => hkeep y (List.mem_append_left _ hy)) hx hnodup'
    refine .inr ⟨hpool,if output = none then x.id else root,s'.attach output x.id,all,(bind_of_ok h1).trans ((bind_of_ok hrun).trans ?_),?_,hallperm.trans hnew,fun i hi => ?_⟩
    · rw [hop]
      exact attach_apply output root x.id s'
    · rw [← h3]
      exact hall
    · have hid : i ∈ (a :: b :: c :: rs').map Part.id := by
        rw [hop] at hi
        exact hi
      obtain ⟨n,hn,hout⟩ := h7 (by simp) i hid
      obtain ⟨y,hy,rfl⟩ := List.mem_map.mp hid
      have hF : y.id ∈ (a :: b :: c :: rs').flatMap Part.ids := List.mem_flatMap.mpr ⟨y,hy,hsep.mem_id hy⟩
      have hout' : ((s'.attach output x.id).ops y.id).output = some n := by
        rw [Pool.attach_of_ne, hout]
        · have hge := h8.resolve_left (by simp)
          exact (Nat.lt_of_lt_of_le (hsep.used _ hF) hge).ne
        · intro ho
          have hdis := (List.nodup_append'.mp hnodup).2.2 (hchain.output_mem _ ho).1
          exact hdis (List.mem_cons_of_mem _ hF)
      have hmem' : y.id ∈ all := by
        rw [hallperm.mem_iff, List.mem_append, h5.mem_iff]
        exact .inr (List.mem_append_right _ hF)
      refine ⟨List.count_eq_one_of_mem (hallperm.nodup_iff.mpr hnodup') hmem',n,hn,hout',?_⟩
      obtain ⟨m,-,hm,hin'⟩ := hall.parent _ hmem' (by
        intro he
        rw [he, hall.output_eq] at hout'
        cases hout')
      rw [hout'] at hm
      obtain rfl := Option.some.inj hm
      exact hin'

/-- Both transformations keep what the plan computes, and no capacity but that of the pool ends them. -/
theorem makeCrossesBinary_same {make : ℕ → OpId → M OpId} {known : ℕ → Prop} {tableMgr : TableManager}
    (hmake : make = tMakeCrossBinary ∧ kind = .cross ∨ make = tMakeStreamCrossBinary ∧ kind = .streamCross)
    (hschemed : Plan.Schemed tableMgr p) (hflagged : Plan.Flagged known tableMgr p) (hlinked : Linked s none root p ids)
    (hids : ids.Nodup) (hused : ∀ y ∈ ids, y < s.operatorPtr) (hptr : s.operatorPtr ≤ MAXOPERATOR)
    (hw : Plan.walk Plan.isUnaryAboveCross p [] = (passed,.node kind outAttrs bStream (first :: rest)))
    (hn : 2 ≤ rest.length) (hattrs : outAttrs.length ≤ MAX_ATTRS) (hfuel : passed.length < fuel) :
    ∃ cross ∈ ids, (s.ops cross).kind = kind ∧ (s.ops cross).inputs.length = rest.length + 1 ∧
      (MAXOPERATOR < s.operatorPtr + rest.length ∧
          (∃ s', make fuel root s = .error (.code (-1)) s' ∧ s'.operatorPtr = MAXOPERATOR) ∨
        s.operatorPtr + rest.length ≤ MAXOPERATOR ∧ ∃ root' s' ids', make fuel root s = .ok root' s' ∧
          Linked s' none root' (Plan.rebuild (Plan.leftDeep kind first rest) passed) ids' ∧
          ids'.Perm (List.range' s.operatorPtr rest.length ++ ids.erase cross) ∧
          (∀ i ∈ (s.ops cross).inputs, ids'.count i = 1 ∧ ∃ n ∈ List.range' s.operatorPtr rest.length,
            (s'.ops i).output = some n ∧ i ∈ (s'.ops n).inputs) ∧
          Plan.Same (.node kind outAttrs bStream (first :: rest)) (Plan.leftDeep kind first rest) ∧
          Plan.Same p (Plan.rebuild (Plan.leftDeep kind first rest) passed)) := by
  have hk : kind.IsCross := hmake.imp And.right And.right
  have hall := (Plan.Everywhere.walk [] hschemed hw).of_rebuild
  have hout := ((Plan.everywhere_node.mp hall).1.cross hk).1
  have hflag := (Plan.flagged_node.mp (Plan.Flagged.walk [] hflagged hw).of_rebuild).2.2.1
  obtain ⟨second,rest,rfl⟩ := List.exists_cons_of_length_pos (show 0 < rest.length by omega)
  have hsame := Plan.leftDeep_same hk hout hflag
  have hplan : Plan.Same p (Plan.rebuild (Plan.leftDeep kind first (second :: rest)) passed) := by
    have hre := Plan.rebuild_walk Plan.isUnaryAboveCross p []
    rw [hw] at hre
    have hrebuilt : Plan.Same (Plan.rebuild _ passed) (Plan.rebuild _ passed) := hsame.rebuild
    rwa [hre] at hrebuilt
  have hsum : ((first :: second :: rest).map fun i => i.outAttrs.length).sum ≤ MAX_ATTRS := by
    rw [hout, List.length_flatten, List.map_map] at hattrs
    exact hattrs
  have hjoin (binary : OpId → OpId → M OpId) (hbinary : Joins binary kind) (hm : make = makeBinary binary kind) := by
    have hok := makeBinary_ok hbinary hk hlinked hids hused hptr hw hn hsum hfuel
    rw [← hm] at hok
    exact hok
  have hok := hmake.elim (fun h => hjoin binaryCross (h.2 ▸ joins_cross) (h.2 ▸ h.1))
    fun h => hjoin binaryStreamCross (h.2 ▸ joins_streamCross) (h.2 ▸ h.1)
  obtain ⟨cross,h1,h2,h3,hrun⟩ := hok
  refine ⟨cross,h1,h2,h3,hrun.imp id fun h => ⟨h.1,?_⟩⟩
  obtain ⟨root',s',ids',h4,h5,h6,h7⟩ := h.2
  exact ⟨root',s',ids',h4,h5,h6,h7,hsame,hplan⟩

end Transformation

def relationOf (varId : ℕ) : Plan := .node (.relnSource varId 1) [.named varId 1 0] false []

def threeRelations : Plan :=
  .node (.select ⟨.eq,.attrRef .int (.named 0 1 0),.attrRef .int (.named 2 1 0)⟩)
    [.named 0 1 0, .named 1 1 0, .named 2 1 0] false
    [.node .cross [.named 0 1 0, .named 1 1 0, .named 2 1 0] false [relationOf 0, relationOf 1, relationOf 2]]

def threeRelationsPool : Pool :=
  ⟨fun
    | 3 => ⟨.cross,[.named 0 1 0, .named 1 1 0, .named 2 1 0],false,some 4,[0, 1, 2]⟩
    | 4 => ⟨.select ⟨.eq,.attrRef .int (.named 0 1 0),.attrRef .int (.named 2 1 0)⟩,
        [.named 0 1 0, .named 1 1 0, .named 2 1 0],false,none,[3]⟩
    | varId => ⟨.relnSource varId 1,[.named varId 1 0],false,some 3,[]⟩,
   5⟩

theorem threeRelations_linked : Linked threeRelationsPool none 4 threeRelations [4, 3, 0, 1, 2] := by
  have hsource (varId : ℕ) (h : varId < 3) : Linked threeRelationsPool (some 3) varId (relationOf varId) [varId] := by
    refine @Linked.node _ _ _ _ _ _ [] ?_ (by simp)
    rcases (show varId = 0 ∨ varId = 1 ∨ varId = 2 by omega) with rfl | rfl | rfl
    · rfl
    · rfl
    · rfl
  have hcross := @Linked.node threeRelationsPool (some 4) 3 .cross [.named 0 1 0, .named 1 1 0, .named 2 1 0] false
    [⟨0,relationOf 0,[0]⟩, ⟨1,relationOf 1,[1]⟩, ⟨2,relationOf 2,[2]⟩] rfl (by simp [hsource])
  exact @Linked.node threeRelationsPool none 4 _ _ _ [⟨3,_,[3, 0, 1, 2]⟩] rfl (by simpa using hcross)

/-- The first two relations are joined first. -/
theorem threeRelations_binary : ∃ root s ids, tMakeCrossBinary 2 4 threeRelationsPool = .ok root s ∧
    Linked s none root (Plan.rebuild (Plan.leftDeep .cross (relationOf 0) [relationOf 1, relationOf 2])
      [⟨threeRelations.kind,threeRelations.outAttrs,false⟩]) ids := by
  have hschemed : Plan.Schemed Plan.streamAndRelation threeRelations := by
    simp [Plan.Schemed,threeRelations,relationOf,Plan.everywhere_node,Kind.Schema,Apart,Attr.same,tableAttrs,
      TableManager.getNumAttrs,TableManager.attrs,Plan.streamAndRelation]
  have hflagged : Plan.Flagged (fun _ => True) Plan.streamAndRelation threeRelations := by
    simp [threeRelations,relationOf,Plan.flagged_node,Kind.Registered,Kind.Takes,Kind.streams,TableManager.isStream,
      Plan.streamAndRelation]
  obtain ⟨cross,-,-,-,hrun⟩ := makeCrossesBinary_same (.inl ⟨rfl,rfl⟩) hschemed hflagged threeRelations_linked (by decide)
    (by decide) (by decide) rfl (by decide) (by decide) (show 1 < 2 by decide)
  rcases hrun with ⟨hfull,-⟩ | ⟨-,root,s,ids,h1,h2,-⟩
  · exact absurd hfull (by decide)
  · exact ⟨root,s,ids,h1,h2⟩

end AqsiosCoordinator.Logical
