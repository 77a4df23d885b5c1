import AqsiosCoordinator.Metadata.SharedOperators
import AqsiosCoordinator.Metadata.PlanGraph
import AqsiosCoordinator.Foundation.Unfolding

/-! # What operators compute, and when they are found equal -/
namespace AqsiosCoordinator.Physical
open Common Foundation Foundation.Outcome

/-- An expression without the types of its non-constants: all of them become one and the same. -/
def untyped : Expr → Expr
  | .constVal c => .constVal c
  | .attrRef _ a => .attrRef .int a
  | .compExpr _ op l r => .compExpr .int op (untyped l) (untyped r)

def untypedBExpr (b : BExpr) : BExpr := ⟨b.op,untyped b.left,untyped b.right⟩

/-- The parameters of an operator with `numAttrs` columns, without types of expressions. -/
def Body.untyped (numAttrs : ℕ) : Body → Body
  | .select p => .select (p.map untypedBExpr)
  | .project es => .project ((es.take numAttrs).map Physical.untyped)
  | .join o i p => .join o i (p.map untypedBExpr)
  | .strJoin o i p => .strJoin o i (p.map untypedBExpr)
  | .joinProject es p => .joinProject ((es.take numAttrs).map Physical.untyped) (p.map untypedBExpr)
  | .strJoinProject es p => .strJoinProject ((es.take numAttrs).map Physical.untyped) (p.map untypedBExpr)
  | b => b

structure Label where
  body : Body
  attrs : List Column
  bStream : Bool
  deriving DecidableEq

def Operator.label (op : Operator) : Label := ⟨op.body.untyped op.attrs.length,op.attrs,op.bStream⟩

theorem untyped_eq_iff (e f : Expr) : exprEq e f = true ↔ untyped e = untyped f := by
  induction e generalizing f with
  | constVal c => cases f <;> simp [exprEq,untyped]
  | attrRef t a => cases f <;> simp [exprEq,untyped]
  | compExpr t op l r ihl ihr =>
    cases f with
    | compExpr t' op' l' r' => simp [exprEq,untyped,ihl,ihr,and_assoc]
    | _ => simp [exprEq,untyped]

theorem bexprEq_iff (b c : BExpr) : bexprEq b c = true ↔ untypedBExpr b = untypedBExpr c := by
  simp [bexprEq,untypedBExpr,untyped_eq_iff,and_assoc]

theorem predEq_iff (p q : List BExpr) : predEq p q = true ↔ p.map untypedBExpr = q.map untypedBExpr := by
  induction p generalizing q with
  | nil => cases q <;> simp [predEq]
  | cons b p ih =>
    cases q with
    | nil => simp [predEq]
    | cons c q => simp [predEq,ih,bexprEq_iff]

theorem comparePreds_sound {p q : List BExpr} (h : comparePreds p q = .ok true) :
    p.map untypedBExpr = q.map untypedBExpr := by
  unfold comparePreds at h
  split at h
  · simp at h
  · exact (predEq_iff p q).mp (by simpa using h)

theorem comparePreds_complete {p q : List BExpr} (hp : p ≠ []) (hq : q ≠ []) :
    comparePreds p q = .ok (decide (p.map untypedBExpr = q.map untypedBExpr)) := by
  rw [comparePreds, if_neg (by tauto)]
  congr 1
  rw [Bool.eq_iff_iff, predEq_iff, decide_eq_true_iff]

theorem compareProjs_sound {n : ℕ} {es fs : List Expr} (h : compareProjs n es fs = .ok true) :
    (es.take n).map untyped = (fs.take n).map untyped := by
  induction n generalizing es fs with
  | zero => rfl
  | succ n ih =>
    cases es with
    | nil => simp [compareProjs] at h
    | cons e es =>
      cases fs with
      | nil => simp [compareProjs] at h
      | cons f fs =>
        simp only [compareProjs] at h
        split at h
        · rename_i hef
          simp only [List.take_succ_cons, List.map_cons, (untyped_eq_iff e f).mp hef, ih h]
        · simp at h

theorem compareProjs_complete {n : ℕ} {es fs : List Expr} (he : n ≤ es.length) (hf : n ≤ fs.length) :
    compareProjs n es fs = .ok (decide ((es.take n).map untyped = (fs.take n).map untyped)) := by
  induction n generalizing es fs with
  | zero => simp [compareProjs]
  | succ n ih =>
    cases es with
    | nil => simp at he
    | cons e es =>
      cases fs with
      | nil => simp at hf
      | cons f fs =>
        simp only [compareProjs, List.take_succ_cons, List.map_cons, List.cons.injEq]
        by_cases hef : exprEq e f = true
        · rw [if_pos hef, ih (Nat.le_of_succ_le_succ he) (Nat.le_of_succ_le_succ hf)]
          simp [(untyped_eq_iff e f).mp hef]
        · rw [if_neg hef]
          have hne : untyped e ≠ untyped f := fun h => hef ((untyped_eq_iff e f).mpr h)
          simp [hne]

theorem compareJoins_complete {o i o' i' : ℕ} {p q : List BExpr} (hp : p ≠ []) (hq : q ≠ []) :
    (if o ≠ o' ∨ i ≠ i' then .ok false else comparePreds p q) =
      (.ok (decide (o = o' ∧ i = i' ∧ p.map untypedBExpr = q.map untypedBExpr)) : Except Failure Bool) := by
  rw [comparePreds_complete hp hq]
  by_cases ho : o = o'
  · by_cases hi : i = i' <;> simp [ho,hi]
  · simp [ho]

theorem compareJoins_true {o i o' i' : ℕ} {p q : List BExpr}
    (h : (if o ≠ o' ∨ i ≠ i' then .ok false else comparePreds p q) = (.ok true : Except Failure Bool)) :
    o = o' ∧ i = i' ∧ comparePreds p q = .ok true := by
  split at h
  · simp at h
  · rename_i hoi
    exact ⟨by tauto,by tauto,h⟩

theorem compareJoinProjs_true {n : ℕ} {es fs : List Expr} {p q : List BExpr} (h : (do
    if ← comparePreds p q then compareProjs n es fs else return false) = (.ok true : Except Failure Bool)) :
    comparePreds p q = .ok true ∧ compareProjs n es fs = .ok true := by
  cases hp : comparePreds p q with
  | error e => simp [hp,bind,Except.bind] at h
  | ok r =>
    cases r with
    | false => simp [hp,bind,Except.bind,pure,Except.pure] at h
    | true => exact ⟨rfl,by simpa [hp,bind,Except.bind] using h⟩

theorem compareBodies_sound {n : ℕ} {b c : Body} (h : compareBodies n b c = .ok true) :
    b.untyped n = c.untyped n ∧ b.kind.combines = true ∧ c.kind.combines = true := by
  unfold compareBodies at h
  split at h
  case h_1 => simp [Body.untyped,comparePreds_sound h,Body.kind,OperatorKind.combines]
  case h_2 => simp [Body.untyped,compareProjs_sound h,Body.kind,OperatorKind.combines]
  case h_3 | h_4 =>
    obtain ⟨rfl,rfl,hp⟩ := compareJoins_true h
    simp [Body.untyped,comparePreds_sound hp,Body.kind,OperatorKind.combines]
  case h_5 | h_6 =>
    obtain ⟨hp,he⟩ := compareJoinProjs_true h
    simp [Body.untyped,comparePreds_sound hp,compareProjs_sound he,Body.kind,OperatorKind.combines]
  case h_17 => simp at h
  all_goals
    simp only [Except.ok.injEq, Bool.and_eq_true, decide_eq_true_eq] at h
    simp [Body.untyped,h,Body.kind,OperatorKind.combines]

/-- An operator whose parameters can be compared: predicates are non-null, and there is
an expression for each column. -/
def Body.Comparable (numAttrs : ℕ) : Body → Prop
  | .select p => p ≠ []
  | .project es => numAttrs ≤ es.length
  | .join _ _ p | .strJoin _ _ p => p ≠ []
  | .joinProject es p | .strJoinProject es p => p ≠ [] ∧ numAttrs ≤ es.length
  | _ => True

theorem compareBodies_complete {n : ℕ} {b c : Body} (hk : b.kind = c.kind) (hb : b.Comparable n)
    (hc : c.Comparable n) : compareBodies n b c = .ok (decide (b.kind.combines = true ∧ b.untyped n = c.untyped n)) := by
  cases b <;> cases c <;> simp only [Body.kind, reduceCtorEq] at hk <;>
    simp only [Body.Comparable] at hb hc <;>
    simp only [compareBodies, Body.untyped, Body.kind, OperatorKind.combines, true_and]
  case join.join | strJoin.strJoin =>
    rw [compareJoins_complete hb hc]
    simp
  case joinProject.joinProject | strJoinProject.strJoinProject =>
    rw [comparePreds_complete hb.1 hc.1, compareProjs_complete hb.2 hc.2]
    simp only [bind, Except.bind, pure, Except.pure]
    split <;> simp_all
  all_goals simp [comparePreds_complete,compareProjs_complete,hb,hc]

section Labels
variable {L : Type} {lab : OpId → Operator → L} {V : List OpId} {T : OpId → ComputationTree L} {s : PlanState} {a b : OpId}

/-- A labelling of operators that is the same for operators that are merged. -/
structure Labelling (lab : OpId → Operator → L) : Prop where
  same : ∀ o x y, x.label = y.label → x.body.kind = y.body.kind → lab o x = lab o y
  merged : ∀ a b x y, x.label = y.label → x.body.kind.combines = true → y.body.kind.combines = true → lab a x = lab b y

theorem labelling_label : Labelling (fun _ op => op.label) := ⟨fun _ _ _ h _ => h,fun _ _ _ _ h _ _ => h⟩

/-- The label of an operator, with its identity when it is not merged. -/
def identLabel (o : OpId) (op : Operator) : Label × Option OpId :=
  (op.label,if op.body.kind.combines then none else some o)

theorem labelling_ident : Labelling identLabel := by
  constructor
  · intro o x y h hk
    rw [identLabel, identLabel, h, hk]
  · intro a b x y h hx hy
    rw [identLabel, identLabel, h, if_pos hx, if_pos hy]

/-- `T` is what the operators of `V` compute, and whoever is among the outputs of an
operator reads what that operator computes. -/
structure Computes (lab : OpId → Operator → L) (V : List OpId) (T : OpId → ComputationTree L) (s : PlanState) : Prop where
  unfolding : IsUnfolding (fun o => lab o (s.ops o)) s.ports.inputs V T
  readers : ∀ o ∈ V, ∀ q ∈ (s.ops o).outputs, q ∈ V ∧ T o ∈ (T q).inputs

theorem Computes.input_mem (h : Computes lab V T s) (ha : a ∈ V) : ∀ c ∈ (s.ops a).inputs, c ∈ V := h.unfolding.closed a ha

theorem compareInputs_sound {compare : OpId → OpId → Except Failure Bool} {as bs : List OpId}
    (hlen : as.length = bs.length) (hc : ∀ a ∈ as, ∀ b ∈ bs, compare a b = .ok true → T a = T b)
    (h : compareInputs compare as bs = .ok true) : as.map T = bs.map T := by
  induction as generalizing bs with
  | nil =>
    cases bs with
    | nil => rfl
    | cons b bs => simp at hlen
  | cons a as ih =>
    cases bs with
    | nil => simp at hlen
    | cons b bs =>
      simp only [compareInputs] at h
      cases hab : compare a b with
      | error e => simp [hab,bind,Except.bind] at h
      | ok r =>
        simp only [hab, bind, Except.bind] at h
        cases r with
        | false => simp [pure,Except.pure] at h
        | true =>
          have hrest := ih (by simpa using hlen) (fun a ha b hb => hc a (List.mem_cons_of_mem _ ha) b
            (List.mem_cons_of_mem _ hb)) (by simpa using h)
          rw [List.map_cons, List.map_cons, hrest, hc a List.mem_cons_self b List.mem_cons_self hab]

/-- Operators that are found equal compute the same. -/
theorem compareOperators_sound (hlab : Labelling lab) (h : Computes lab V T s) {fuel : ℕ} (ha : a ∈ V) (hb : b ∈ V)
    (hab : compareOperators s.ops fuel a b = .ok true) : T a = T b := by
  induction fuel generalizing a b with
  | zero => simp [compareOperators] at hab
  | succ fuel ih =>
    simp only [compareOperators] at hab
    split at hab
    · rename_i heq
      rw [heq]
    · split at hab
      · simp [pure,Except.pure] at hab
      · rename_i hne
        simp only [not_or, not_not] at hne
        obtain ⟨hk,hattrs,hstr,hlen⟩ := hne
        cases hin : compareInputs (compareOperators s.ops fuel) (s.ops a).inputs (s.ops b).inputs with
        | error e => simp [hin,bind,Except.bind] at hab
        | ok r =>
          simp only [hin, bind, Except.bind] at hab
          cases r with
          | false => simp [pure,Except.pure] at hab
          | true =>
            have hins := compareInputs_sound hlen (fun x hx y hy hxy => ih (h.input_mem ha x hx)
              (h.input_mem hb y hy) hxy) hin
            obtain ⟨hbody,hca,hcb⟩ := compareBodies_sound (by simpa using hab)
            rw [h.unfolding.node a ha, h.unfolding.node b hb]
            have hlabel : (s.ops a).label = (s.ops b).label := by
              simp only [Operator.label, hbody, ← hattrs, hstr]
            rw [hlab.merged a b _ _ hlabel hca hcb]
            exact congrArg _ hins

/-- What a comparison ends with when it does not return. -/
theorem compareInputs_terminates {compare : OpId → OpId → Except Failure Bool} {as bs : List OpId}
    (hc : ∀ a ∈ as, ∀ b, compare a b ≠ .error .nonTermination) :
    compareInputs compare as bs ≠ .error .nonTermination := by
  induction as generalizing bs with
  | nil => simp [compareInputs]
  | cons a as ih =>
    cases bs with
    | nil => simp [compareInputs]
    | cons b bs =>
      have ha := hc a List.mem_cons_self b
      simp only [compareInputs]
      cases hab : compare a b with
      | error e => simpa [bind,Except.bind,hab] using ha
      | ok r =>
        cases r with
        | false => simp [bind,Except.bind,pure,Except.pure]
        | true => simpa [bind,Except.bind] using ih fun a ha => hc a (List.mem_cons_of_mem _ ha)

theorem comparePreds_error {p q : List BExpr} {e : Failure} (h : comparePreds p q = .error e) : e = .nullDeref := by
  unfold comparePreds at h
  split at h
  · simpa using h.symm
  · simp at h

theorem compareProjs_error {n : ℕ} {es fs : List Expr} {e : Failure} (h : compareProjs n es fs = .error e) :
    e = .nullDeref := by
  fun_induction compareProjs n es fs <;> simp_all

/-- Comparing parameters fails in one way only. -/
theorem compareBodies_error {n : ℕ} {b c : Body} {e : Failure} (h : compareBodies n b c = .error e) :
    e = .nullDeref := by
  have hboth {es fs : List Expr} {p q : List BExpr} (h : (do
      if ← comparePreds p q then compareProjs n es fs else return false) = (.error e : Except Failure Bool)) :
      e = .nullDeref := by
    cases hp : comparePreds p q with
    | error e' =>
      obtain rfl : e' = e := by simpa [bind,Except.bind,hp] using h
      exact comparePreds_error hp
    | ok r =>
      cases r with
      | false => simp [bind,Except.bind,pure,Except.pure,hp] at h
      | true => exact compareProjs_error (by simpa [bind,Except.bind,hp] using h)
  unfold compareBodies at h
  split at h
  case h_1 => exact comparePreds_error h
  case h_2 => exact compareProjs_error h
  case h_3 | h_4 =>
    split at h
    · simp at h
    · exact comparePreds_error h
  case h_5 | h_6 => exact hboth h
  all_goals simp at h

theorem compareBodies_terminates {n : ℕ} {b c : Body} : compareBodies n b c ≠ .error .nonTermination := by
  intro h
  exact absurd (compareBodies_error h) (by simp)

theorem compareInputs_error {compare : OpId → OpId → Except Failure Bool} {as bs : List OpId} {e : Failure}
    (h : compareInputs compare as bs = .error e) : ∃ a ∈ as, ∃ b ∈ bs, compare a b = .error e := by
  induction as generalizing bs with
  | nil => simp [compareInputs] at h
  | cons a as ih =>
    cases bs with
    | nil => simp [compareInputs] at h
    | cons b bs =>
      simp only [compareInputs] at h
      cases hab : compare a b with
      | error e' =>
        obtain rfl : e' = e := by simpa [bind,Except.bind,hab] using h
        exact ⟨a,List.mem_cons_self,b,List.mem_cons_self,hab⟩
      | ok r =>
        cases r with
        | false => simp [bind,Except.bind,pure,Except.pure,hab] at h
        | true =>
          have hrest : compareInputs compare as bs = .error e := by simpa [bind,Except.bind,hab] using h
          obtain ⟨c,hc,d,hd,hcd⟩ := ih hrest
          exact ⟨c,List.mem_cons_of_mem _ hc,d,List.mem_cons_of_mem _ hd,hcd⟩

/-- A comparison reads from a null pointer or runs out of fuel when it fails. -/
theorem compareOperators_error {ops : OpId → Operator} {fuel : ℕ} {a b : OpId} {e : Failure}
    (h : compareOperators ops fuel a b = .error e) : e = .nullDeref ∨ e = .nonTermination := by
  induction fuel generalizing a b with
  | zero => exact .inr (by simpa [compareOperators] using h.symm)
  | succ fuel ih =>
    simp only [compareOperators] at h
    split at h
    · simp [pure,Except.pure] at h
    · split at h
      · simp [pure,Except.pure] at h
      · cases hin : compareInputs (compareOperators ops fuel) (ops a).inputs (ops b).inputs with
        | error e' =>
          obtain rfl : e' = e := by simpa [bind,Except.bind,hin] using h
          obtain ⟨c,-,d,-,hcd⟩ := compareInputs_error hin
          exact ih hcd
        | ok r =>
          cases r with
          | false => simp [bind,Except.bind,pure,Except.pure,hin] at h
          | true => exact .inl (compareBodies_error (by simpa [bind,Except.bind,hin] using h))

theorem compareOperators_terminates (h : Computes lab V T s) {fuel : ℕ} (ha : a ∈ V) (hf : (T a).height ≤ fuel) :
    compareOperators s.ops fuel a b ≠ .error .nonTermination := by
  induction fuel generalizing a b with
  | zero => exact absurd (T a).height_pos (by omega)
  | succ fuel ih =>
    simp only [compareOperators]
    split
    · simp [pure,Except.pure]
    · split
      · simp [pure,Except.pure]
      · have hin : compareInputs (compareOperators s.ops fuel) (s.ops a).inputs (s.ops b).inputs ≠
            .error .nonTermination := by
          refine compareInputs_terminates fun c hc d => ih (h.input_mem ha c hc) ?_
          have hlt := ComputationTree.height_lt_of_mem (h.unfolding.mem_inputs ha hc)
          omega
        cases hr : compareInputs (compareOperators s.ops fuel) (s.ops a).inputs (s.ops b).inputs with
        | error e => simpa [bind,Except.bind,hr] using hin
        | ok r =>
          cases r with
          | false => simp [bind,Except.bind,pure,Except.pure]
          | true => simpa [bind,Except.bind] using compareBodies_terminates

theorem untyped_kind (n : ℕ) (b : Body) : (b.untyped n).kind = b.kind := by cases b <;> rfl

theorem compareInputs_complete {compare : OpId → OpId → Except Failure Bool} {as bs : List OpId}
    (hlen : as.length = bs.length) (hc : ∀ a ∈ as, ∀ b ∈ bs, ∃ r, compare a b = .ok r ∧ (r = true ↔ T a = T b)) :
    ∃ r, compareInputs compare as bs = .ok r ∧ (r = true ↔ as.map T = bs.map T) := by
  induction as generalizing bs with
  | nil =>
    obtain rfl := List.length_eq_zero_iff.mp hlen.symm
    exact ⟨true,rfl,by simp⟩
  | cons a as ih =>
    cases bs with
    | nil => simp at hlen
    | cons b bs =>
      obtain ⟨r,hr,hab⟩ := hc a List.mem_cons_self b List.mem_cons_self
      simp only [compareInputs, hr, bind, Except.bind, List.map_cons, List.cons.injEq]
      cases r with
      | false =>
        have hne : T a ≠ T b := by simpa using hab
        exact ⟨false,rfl,by simp [hne]⟩
      | true =>
        obtain ⟨r',hr',hrest⟩ := ih (by simpa using hlen) fun a ha b hb => hc a (List.mem_cons_of_mem _ ha) b
          (List.mem_cons_of_mem _ hb)
        exact ⟨r',by simpa using hr',by rw [hrest, hab.mp rfl]; simp⟩

/-- Operators with comparable parameters are found equal exactly when they compute the same,
where an operator that is not merged differs from every other. -/
theorem compareOperators_complete {T : OpId → ComputationTree (Label × Option OpId)}
    (h : IsUnfolding (fun o => identLabel o (s.ops o)) s.ports.inputs V T)
    (hcmp : ∀ o ∈ V, (s.ops o).body.Comparable (s.ops o).attrs.length) {fuel : ℕ} (ha : a ∈ V) (hb : b ∈ V)
    (hf : (T a).height ≤ fuel) : ∃ r, compareOperators s.ops fuel a b = .ok r ∧ (r = true ↔ T a = T b) := by
  induction fuel generalizing a b with
  | zero => exact absurd (T a).height_pos (by omega)
  | succ fuel ih =>
    by_cases hab : a = b
    · exact ⟨true,by simp [compareOperators,hab,pure,Except.pure],by simp [hab]⟩
    have hlabel : T a = T b ↔ identLabel a (s.ops a) = identLabel b (s.ops b) ∧
        (s.ops a).inputs.map T = (s.ops b).inputs.map T := by
      rw [h.node a ha, h.node b hb, ComputationTree.node.injEq]
      rfl
    simp only [compareOperators, if_neg hab]
    split
    · rename_i hne
      refine ⟨false,rfl,?_⟩
      simp only [Bool.false_eq_true, false_iff]
      intro hT
      obtain ⟨hl,hin⟩ := hlabel.mp hT
      have hl1 := congrArg Prod.fst hl
      have hk := congrArg (fun l : Label => l.body.kind) hl1
      simp only [identLabel, Operator.label, untyped_kind] at hk
      have hlen := congrArg List.length hin
      simp only [List.length_map] at hlen
      rcases hne with hne | hne | hne | hne
      · exact hne hk
      · exact hne (congrArg Label.attrs hl1)
      · exact hne (congrArg Label.bStream hl1)
      · exact hne hlen
    · rename_i hne
      simp only [not_or, not_not] at hne
      obtain ⟨hk,hattrs,hstr,hlen⟩ := hne
      have hins : ∃ r, compareInputs (compareOperators s.ops fuel) (s.ops a).inputs (s.ops b).inputs = .ok r ∧
          (r = true ↔ (s.ops a).inputs.map T = (s.ops b).inputs.map T) := compareInputs_complete hlen fun c hc d hd => by
        have hlt := ComputationTree.height_lt_of_mem (h.mem_inputs ha hc)
        exact ih (h.closed a ha c hc) (h.closed b hb d hd) (by omega)
      obtain ⟨r,hr,hin⟩ := hins
      simp only [hr, bind, Except.bind]
      cases r with
      | false =>
        have hne : ¬ (s.ops a).inputs.map T = (s.ops b).inputs.map T := by simpa using hin
        exact ⟨false,rfl,by simp [hlabel,hne]⟩
      | true =>
        have hcb := hcmp b hb
        rw [← hattrs] at hcb
        refine ⟨_,by simpa using compareBodies_complete hk (hcmp a ha) hcb,?_⟩
        rw [Bool.and_eq_true, decide_eq_true_iff, hlabel, and_iff_left (hin.mp rfl)]
        simp only [identLabel, Operator.label, Prod.mk.injEq, Label.mk.injEq, ← hattrs, hstr, and_true, ← hk]
        constructor
        · rintro ⟨hcomb,hbody⟩
          simp [hcomb,hbody]
        · rintro ⟨hbody,hid⟩
          refine ⟨?_,hbody⟩
          by_contra hcomb
          simp [hcomb,hab] at hid

theorem comparePreds_ne_false {p q : List BExpr} (h : p.map untypedBExpr = q.map untypedBExpr) :
    comparePreds p q ≠ .ok false := by
  unfold comparePreds
  split
  · simp
  · simp [(predEq_iff p q).mpr h]

theorem compareProjs_ne_false {n : ℕ} {es fs : List Expr} (h : (es.take n).map untyped = (fs.take n).map untyped) :
    compareProjs n es fs ≠ .ok false := by
  fun_induction compareProjs n es fs with
  | case1 => simp
  | case2 n e es f fs _ ih => exact ih (by simpa using (List.cons.inj h).2)
  | case3 n e es f fs hef => exact absurd ((untyped_eq_iff e f).mpr (List.cons.inj h).1) hef
  | case4 => simp

/-- Comparing parameters that are the same ends with true or does not return. -/
theorem compareBodies_ne_false {n : ℕ} {b c : Body} (hb : b.kind.combines = true) (h : b.untyped n = c.untyped n) :
    compareBodies n b c ≠ .ok false := by
  have hjoin {o i o' i' : ℕ} {p q : List BExpr} (ho : o = o') (hi : i = i')
      (hp : p.map untypedBExpr = q.map untypedBExpr) :
      (if o ≠ o' ∨ i ≠ i' then .ok false else comparePreds p q : Except Failure Bool) ≠ .ok false := by
    rw [if_neg (by simp [ho,hi])]
    exact comparePreds_ne_false hp
  have hboth {es fs : List Expr} {p q : List BExpr} (he : (es.take n).map untyped = (fs.take n).map untyped)
      (hp : p.map untypedBExpr = q.map untypedBExpr) : (do
      if ← comparePreds p q then compareProjs n es fs else return false : Except Failure Bool) ≠ .ok false := by
    cases hc : comparePreds p q with
    | error e => simp [bind,Except.bind]
    | ok r =>
      cases r with
      | false => exact absurd hc (comparePreds_ne_false hp)
      | true => simpa [bind,Except.bind] using compareProjs_ne_false he
  cases b <;> cases c <;> simp only [Body.untyped, reduceCtorEq] at h <;> simp only [compareBodies]
  case select.select => exact comparePreds_ne_false (by simpa using h)
  case project.project => exact compareProjs_ne_false (by simpa using h)
  case join.join | strJoin.strJoin =>
    simp only [Body.join.injEq, Body.strJoin.injEq] at h
    exact hjoin h.1 h.2.1 h.2.2
  case joinProject.joinProject | strJoinProject.strJoinProject =>
    simp only [Body.joinProject.injEq, Body.strJoinProject.injEq] at h
    exact hboth h.1 h.2
  case streamSource.streamSource | relnSource.relnSource | querySource.querySource | output.output | sink.sink |
      ssGen.ssGen => simp [Body.kind,OperatorKind.combines] at hb
  all_goals simp_all

theorem compareInputs_ne_false {compare : OpId → OpId → Except Failure Bool} {as bs : List OpId}
    (hc : ∀ a ∈ as, ∀ b ∈ bs, T a = T b → compare a b ≠ .ok false) (h : as.map T = bs.map T) :
    compareInputs compare as bs ≠ .ok false := by
  induction as generalizing bs with
  | nil => simp [compareInputs]
  | cons a as ih =>
    cases bs with
    | nil => simp at h
    | cons b bs =>
      obtain ⟨hab,hrest⟩ := List.cons.inj h
      have hne := hc a List.mem_cons_self b List.mem_cons_self hab
      simp only [compareInputs]
      cases hr : compare a b with
      | error e => simp [bind,Except.bind]
      | ok r =>
        cases r with
        | false => exact absurd hr hne
        | true =>
          have hall := ih (fun a ha b hb => hc a (List.mem_cons_of_mem _ ha) b (List.mem_cons_of_mem _ hb)) hrest
          simpa [bind,Except.bind] using hall

theorem combines_of_same {T : OpId → ComputationTree (Label × Option OpId)} (h : Computes identLabel V T s) (ha : a ∈ V)
    (hb : b ∈ V) (hne : a ≠ b) (heq : T a = T b) : (s.ops b).body.kind.combines = true := by
  have hlabel := congrArg ComputationTree.label heq
  rw [h.unfolding.label_eq ha, h.unfolding.label_eq hb] at hlabel
  by_contra hk
  have hid := congrArg Prod.snd hlabel
  simp only [identLabel, if_neg hk] at hid
  split at hid
  · simp at hid
  · exact hne (Option.some.inj hid)

/-- A comparison that returns does not deny that two operators compute the same. -/
theorem compareOperators_ne_false {T : OpId → ComputationTree (Label × Option OpId)} (h : Computes identLabel V T s)
    {fuel : ℕ} (ha : a ∈ V) (hb : b ∈ V) (heq : T a = T b) : compareOperators s.ops fuel a b ≠ .ok false := by
  induction fuel generalizing a b with
  | zero => simp [compareOperators]
  | succ fuel ih =>
    simp only [compareOperators]
    by_cases hab : a = b
    · simp [hab,pure,Except.pure]
    have hcomb := combines_of_same h hb ha (Ne.symm hab) heq.symm
    have hnode := heq
    rw [h.unfolding.node a ha, h.unfolding.node b hb, ComputationTree.node.injEq] at hnode
    obtain ⟨hl,hin⟩ := hnode
    have hl1 : (s.ops a).label = (s.ops b).label := congrArg Prod.fst hl
    have hbody := congrArg Label.body hl1
    have hattrs : (s.ops a).attrs = (s.ops b).attrs := congrArg Label.attrs hl1
    have hk : (s.ops a).body.kind = (s.ops b).body.kind := by
      have hkind := congrArg Body.kind hbody
      simpa only [Operator.label, untyped_kind] using hkind
    have hlen : (s.ops a).inputs.length = (s.ops b).inputs.length := by
      have hmap := congrArg List.length hin
      simpa using hmap
    have hstr : (s.ops a).bStream = (s.ops b).bStream := congrArg Label.bStream hl1
    rw [if_neg hab, if_neg (by simp [hk,hattrs,hlen,hstr])]
    have hins : compareInputs (compareOperators s.ops fuel) (s.ops a).inputs (s.ops b).inputs ≠ .ok false := compareInputs_ne_false
      (fun c hc d hd => ih (h.input_mem ha c hc) (h.input_mem hb d hd)) hin
    cases hr : compareInputs (compareOperators s.ops fuel) (s.ops a).inputs (s.ops b).inputs with
    | error e => simp [bind,Except.bind]
    | ok r =>
      cases r with
      | false => exact absurd hr hins
      | true =>
        simp only [Operator.label, ← hattrs] at hbody
        simpa [bind,Except.bind] using compareBodies_ne_false hcomb hbody

end Labels

end AqsiosCoordinator.Physical
