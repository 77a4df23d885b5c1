import AqsiosCoordinator.Querygen.StreamFlags

/-! # The links of logical operators

The operators of a plan form a tree in the pool: each knows its inputs and the operator it is an input of.
-/
namespace AqsiosCoordinator.Logical
open Common Foundation Metadata Plan

/-- A part of a plan: its root, the tree and the operators it is made of. -/
structure Part where
  id : OpId
  plan : Plan
  ids : List OpId

/-- The operators `ids` form the plan below `o`, and every link to an output is to the operator above. -/
inductive Linked (s : Pool) : Option OpId → OpId → Plan → List OpId → Prop where
  | node {output : Option OpId} {o : OpId} {kind : Kind} {outAttrs : List Attr} {bStream : Bool} {parts : List Part}
      (here : s.ops o = ⟨kind,outAttrs,bStream,output,parts.map Part.id⟩)
      (below : ∀ x ∈ parts, Linked s (some o) x.id x.plan x.ids) :
      Linked s output o (.node kind outAttrs bStream (parts.map Part.plan)) (o :: parts.flatMap Part.ids)

/-- The operators `ids` are passed on the way from the root down to what `c` is an input of. -/
inductive Chain (s : Pool) (root : OpId) : List Passed → Option OpId → OpId → List OpId → Prop where
  | nil : Chain s root [] none root []
  | cons {o : Passed} {passed : List Passed} {output : Option OpId} {parent c : OpId} {ids : List OpId}
      (here : s.ops parent = ⟨o.kind,o.outAttrs,o.bStream,output,[c]⟩) (above : Chain s root passed output parent ids) :
      Chain s root (o :: passed) (some parent) c (parent :: ids)

variable {s s' : Pool} {output output' : Option OpId} {root o c : OpId} {p q : Plan} {ids : List OpId} {passed : List Passed}

theorem Linked.mem_ids (h : Linked s output o p ids) : o ∈ ids := by
  cases h
  exact List.mem_cons_self

theorem Linked.output_eq (h : Linked s output o p ids) : (s.ops o).output = output := by
  cases h with
  | node here _ => rw [here]

/-- What is read off the root. -/
theorem Linked.op (h : Linked s output o p ids) :
    (s.ops o).kind = p.kind ∧ (s.ops o).outAttrs = p.outAttrs ∧ (s.ops o).bStream = p.bStream := by
  cases h with
  | node here _ =>
    rw [here]
    exact ⟨rfl,rfl,rfl⟩

theorem Linked.frame (h : Linked s output o p ids) (heq : ∀ y ∈ ids, s'.ops y = s.ops y) : Linked s' output o p ids := by
  induction h with
  | node here _ ih =>
    refine .node ((heq _ List.mem_cons_self).trans here) fun x hx => ih x hx fun y hy => heq y ?_
    exact List.mem_cons_of_mem _ (List.mem_flatMap.mpr ⟨x,hx,hy⟩)

/-- Only the link of the root to its output changes. -/
theorem Linked.relink (h : Linked s output o p ids) (hids : ids.Nodup)
    (hroot : s'.ops o = { s.ops o with output := output' }) (heq : ∀ y ∈ ids, y ≠ o → s'.ops y = s.ops y) :
    Linked s' output' o p ids := by
  cases h with
  | node here below =>
    rw [here] at hroot
    refine .node hroot fun x hx => (below x hx).frame fun y hy => ?_
    have hmem := List.mem_flatMap.mpr ⟨x,hx,hy⟩
    refine heq y (List.mem_cons_of_mem _ hmem) ?_
    rintro rfl
    exact (List.nodup_cons.mp hids).1 hmem

/-- Every operator below the root is an input of the one that its link leads to. -/
theorem Linked.parent (h : Linked s output o p ids) : ∀ y ∈ ids, y ≠ o →
    ∃ n ∈ ids, (s.ops y).output = some n ∧ y ∈ (s.ops n).inputs := by
  induction h with
  | @node output o kind outAttrs bStream parts here below ih =>
    intro y hy hne
    obtain ⟨x,hx,hyx⟩ := List.mem_flatMap.mp ((List.mem_cons.mp hy).resolve_left hne)
    by_cases hroot : y = x.id
    · subst hroot
      refine ⟨o,List.mem_cons_self,(below x hx).output_eq,?_⟩
      rw [here]
      exact List.mem_map.mpr ⟨x,hx,rfl⟩
    · obtain ⟨n,hn,h1,h2⟩ := ih x hx y hyx hroot
      exact ⟨n,List.mem_cons_of_mem _ (List.mem_flatMap.mpr ⟨x,hx,hn⟩),h1,h2⟩

theorem Chain.frame (h : Chain s root passed output c ids) (heq : ∀ y ∈ ids, s'.ops y = s.ops y) :
    Chain s' root passed output c ids := by
  induction h with
  | nil => exact .nil
  | cons here _ ih =>
    refine .cons ((heq _ List.mem_cons_self).trans here) (ih fun y hy => heq y ?_)
    exact List.mem_cons_of_mem _ hy

/-- A plan and the operators above it. -/
theorem Chain.linked {ids' : List OpId} (h : Chain s root passed output c ids) (hp : Linked s output c p ids') :
    ∃ all, Linked s none root (rebuild p passed) all ∧ all.Perm (ids ++ ids') := by
  induction h generalizing p ids' with
  | nil => exact ⟨ids',hp,.refl _⟩
  | @cons o passed output parent c ids here _ ih =>
    have habove : Linked s output parent (above o p) (parent :: ids') := by
      have hnode := @Linked.node s output parent _ _ _ [⟨c,p,ids'⟩] here fun x hx => by
        rw [List.mem_singleton.mp hx]
        exact hp
      simpa [above] using hnode
    obtain ⟨all,hall,hperm⟩ := ih habove
    exact ⟨all,hall,hperm.trans List.perm_middle⟩

/-- Another operator takes the place of the one that the chain leads to. -/
theorem Chain.replace {t : OpId} (h : Chain s root passed output c ids) (hids : ids.Nodup)
    (hparent : ∀ n, output = some n → s'.ops n = { s.ops n with inputs := [t] })
    (heq : ∀ y ∈ ids, output ≠ some y → s'.ops y = s.ops y) :
    Chain s' (if output = none then t else root) passed output t ids := by
  cases h with
  | nil => exact .nil
  | @cons o passed output parent c ids here above =>
    have hnew := hparent parent rfl
    rw [here] at hnew
    refine .cons hnew (above.frame fun y hy => heq y (List.mem_cons_of_mem _ hy) ?_)
    rintro ⟨⟩
    exact (List.nodup_cons.mp hids).1 hy

theorem Linked.parts {outAttrs : List Attr} {bStream : Bool} {kind : Kind} {inputs : List Plan}
    (h : Linked s output o (.node kind outAttrs bStream inputs) ids) : ∃ parts : List Part,
      s.ops o = ⟨kind,outAttrs,bStream,output,parts.map Part.id⟩ ∧ inputs = parts.map Part.plan ∧
      ids = o :: parts.flatMap Part.ids ∧ ∀ x ∈ parts, Linked s (some o) x.id x.plan x.ids := by
  generalize hp : Plan.node kind outAttrs bStream inputs = q at h
  cases h with
  | @node _ _ _ _ _ parts here below =>
    obtain ⟨rfl,rfl,rfl,rfl⟩ := Plan.node.inj hp
    exact ⟨parts,here,rfl,rfl,below⟩

/-- An operator with one input that is passed on the way down. -/
theorem Linked.pass {outAttrs : List Attr} {bStream : Bool} {kind : Kind} {ids' : List OpId}
    (hchain : Chain s root passed output o ids) (h : Linked s output o (.node kind outAttrs bStream [p]) ids') :
    ∃ c ids₁, (s.ops o).inputs = [c] ∧ Linked s (some o) c p ids₁ ∧
      Chain s root (⟨kind,outAttrs,bStream⟩ :: passed) (some o) c (o :: ids) ∧ ids' = o :: ids₁ := by
  obtain ⟨parts,here,hparts,rfl,below⟩ := h.parts
  obtain ⟨x,rfl,rfl⟩ := List.map_eq_singleton_iff.mp hparts.symm
  refine ⟨x.id,x.ids,?_,below x (List.mem_singleton_self x),.cons here hchain,by simp⟩
  rw [here]
  rfl

end AqsiosCoordinator.Logical
