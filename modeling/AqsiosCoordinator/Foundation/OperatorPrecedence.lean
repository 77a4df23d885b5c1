import AqsiosCoordinator.Foundation.Recognizers

/-! # Expressions with operators of different precedence

Binary operators that associate to the left, some of which bind more tightly than others, over
atoms and expressions in parentheses. An expression of level `n` has at its root, unless in
parentheses, no operator that binds less than `n`; what stands left of an operator may have one
that binds as tightly at its root, what stands right of it only one that binds more tightly.
-/
namespace AqsiosCoordinator.Foundation
variable {τ α ω : Type}

structure Operators (τ α ω : Type) where
  op : τ → Option ω
  prec : ω → ℕ
  node : ω → α → α → α
  opening : τ
  closing : τ

variable (L : Operators τ α ω) (D : List τ → α → Prop)

inductive Operators.Derives : ℕ → List τ → α → Prop where
  | atom {n : ℕ} {ts : List τ} {a : α} : D ts a → Derives n ts a
  | paren {n : ℕ} {ts : List τ} {a : α} : Derives 0 ts a → Derives n (L.opening :: (ts ++ [L.closing])) a
  | binary {n : ℕ} {ts us : List τ} {t : τ} {o : ω} {a b : α} : L.op t = some o → n ≤ L.prec o →
      Derives (L.prec o) ts a → Derives (L.prec o + 1) us b → Derives n (ts ++ t :: us) (L.node o a b)

variable [DecidableEq τ] (p : List τ → Option (α × List τ))

/-- Takes an expression of level `n`, or continues one that has been taken, with `fuel` for the tokens. -/
def Operators.climb : ℕ → Option α → ℕ → List τ → Option (α × List τ)
  | 0, _, _, _ => none
  | fuel+1, none, n, ts =>
    if ts.head? = some L.opening then
      match climb fuel none 0 ts.tail with
      | some (a,t :: rest) => if t = L.closing then climb fuel (some a) n rest else none
      | _ => none
    else match p ts with
      | some (a,rest) => climb fuel (some a) n rest
      | none => none
  | _+1, some a, _, [] => some (a,[])
  | fuel+1, some a, n, t :: rest =>
    match L.op t with
    | none => some (a,t :: rest)
    | some o =>
      if n ≤ L.prec o then
        match climb fuel none (L.prec o + 1) rest with
        | some (b,rest) => climb fuel (some (L.node o a b)) n rest
        | none => none
      else some (a,t :: rest)

def Operators.expression (n : ℕ) (ts : List τ) : Option (α × List τ) := L.climb p (ts.length + 1) none n ts

def Operators.Stops (n : ℕ) (rest : List τ) : Prop := ∀ t o, rest.head? = some t → L.op t = some o → L.prec o < n

variable {L D p} {n fuel : ℕ} {ts rest : List τ} {a b : α} {left : Option α} {F : List τ → Prop}

namespace Operators

/-- The equations of `climb`. -/
theorem climb_opening : L.climb p (fuel+1) none n (L.opening :: ts) =
    (match L.climb p fuel none 0 ts with
      | some (a,t :: rest) => if t = L.closing then L.climb p fuel (some a) n rest else none
      | _ => none) := by
  rw [climb, List.head?_cons, if_pos rfl, List.tail_cons]

theorem climb_atom (h : ts.head? ≠ some L.opening) (hp : p ts = some (a,rest)) :
    L.climb p (fuel+1) none n ts = L.climb p fuel (some a) n rest := by
  rw [climb, if_neg h, hp]

theorem climb_stops (h : L.Stops n ts) : L.climb p (fuel+1) (some a) n ts = some (a,ts) := by
  cases ts with
  | nil => rfl
  | cons t ts =>
    rw [climb]
    cases ho : L.op t with
    | none => rfl
    | some o =>
      have hlt := h t o rfl ho
      exact if_neg (Nat.not_le.mpr hlt)

theorem climb_op {t : τ} {o : ω} (ho : L.op t = some o) (hn : n ≤ L.prec o) : L.climb p (fuel+1) (some a) n (t :: ts) =
    (match L.climb p fuel none (L.prec o + 1) ts with
      | some (b,rest) => L.climb p fuel (some (L.node o a b)) n rest
      | none => none) := by
  rw [climb, ho]
  exact if_pos hn

/-- What `climb` takes, with the expression that it continues. -/
theorem climb_sound (h : Recognizes p D F) (hclimb : L.climb p fuel left n ts = some (b,rest)) : L.Stops n rest ∧
    (left = none → ∃ used, ts = used ++ rest ∧ L.Derives D n used b) ∧
    ∀ a before, left = some a → L.Derives D n before a →
      (∀ t o, ts.head? = some t → L.op t = some o → L.Derives D (L.prec o) before a) →
      ∃ used, ts = used ++ rest ∧ L.Derives D n (before ++ used) b := by
  induction fuel generalizing left n ts b rest with
  | zero => cases hclimb
  | succ fuel ih =>
    cases left with
    | none =>
      -- an atom and an expression in parentheses are of every level
      have hfirst {a : α} {before rest' : List τ} (hts : ts = before ++ rest') (hbefore : ∀ k, L.Derives D k before a)
          (hrec : L.climb p fuel (some a) n rest' = some (b,rest)) : L.Stops n rest ∧ ∃ used, ts = used ++ rest ∧ L.Derives D n used b := by
        obtain ⟨hstops,-,hcont⟩ := ih hrec
        obtain ⟨used,rfl,hD⟩ := hcont a before rfl (hbefore n) fun t o _ _ => hbefore _
        exact ⟨hstops,before ++ used,by rw [hts, List.append_assoc],hD⟩
      suffices hall : L.Stops n rest ∧ ∃ used, ts = used ++ rest ∧ L.Derives D n used b from
        ⟨hall.1,fun _ => hall.2,by simp⟩
      rw [climb] at hclimb
      split at hclimb
      · rename_i hopening
        obtain ⟨us,rfl⟩ : ∃ us, ts = L.opening :: us := by
          cases ts with
          | nil => cases hopening
          | cons t us => exact ⟨us,by rw [Option.some.inj hopening]⟩
        split at hclimb
        · rename_i a t rest' hinner
          split at hclimb
          · rename_i hclosing
            obtain ⟨-,hinner,-⟩ := ih hinner
            obtain ⟨used,hus,hD⟩ := hinner rfl
            rw [List.tail_cons] at hus
            refine @hfirst a (L.opening :: (used ++ [L.closing])) rest' ?_ (fun k => .paren hD) hclimb
            rw [hus, hclosing, List.cons_append, List.append_assoc, List.singleton_append]
          · cases hclimb
        · cases hclimb
      · split at hclimb
        · rename_i a rest' hread
          obtain ⟨used,hts,hD⟩ := h.sound _ _ _ hread
          exact hfirst hts (fun k => .atom hD) hclimb
        · cases hclimb
    | some a =>
      suffices hall : L.Stops n rest ∧ ∀ before, L.Derives D n before a →
          (∀ t o, ts.head? = some t → L.op t = some o → L.Derives D (L.prec o) before a) →
          ∃ used, ts = used ++ rest ∧ L.Derives D n (before ++ used) b by
        refine ⟨hall.1,by simp,fun a' before hleft => ?_⟩
        obtain rfl := Option.some.inj hleft
        exact hall.2 before
      have hstop (hstops : L.Stops n ts) (heq : some (a,ts) = some (b,rest)) : L.Stops n rest ∧ ∀ before, L.Derives D n before a →
          (∀ t o, ts.head? = some t → L.op t = some o → L.Derives D (L.prec o) before a) →
          ∃ used, ts = used ++ rest ∧ L.Derives D n (before ++ used) b := by
        cases heq
        refine ⟨hstops,fun before hD _ => ⟨[],rfl,?_⟩⟩
        rwa [List.append_nil]
      cases ts with
      | nil => exact hstop (fun t o ht => nomatch ht) hclimb
      | cons t us =>
        rw [climb] at hclimb
        cases ho : L.op t with
        | none =>
          rw [ho] at hclimb
          refine hstop (fun t' o ht ho' => ?_) hclimb
          obtain rfl := Option.some.inj ht
          rw [ho] at ho'
          cases ho'
        | some o =>
          rw [ho] at hclimb
          dsimp only at hclimb
          split at hclimb
          · rename_i hn
            split at hclimb
            · rename_i b' rest' hright
              obtain ⟨hstops',hright,-⟩ := ih hright
              obtain ⟨used,rfl,hD'⟩ := hright rfl
              obtain ⟨hstops,-,hcont⟩ := ih hclimb
              refine ⟨hstops,fun before hD hahead => ?_⟩
              have hbefore := hahead t o rfl ho
              -- the next operator binds no more tightly than this one
              have hnext (t' : τ) (o' : ω) (ht' : rest'.head? = some t') (ho' : L.op t' = some o') :
                  L.Derives D (L.prec o') (before ++ t :: used) (L.node o a b') :=
                .binary ho (Nat.lt_succ_iff.mp (hstops' t' o' ht' ho')) hbefore hD'
              obtain ⟨used',rfl,hD''⟩ := hcont _ (before ++ t :: used) rfl (.binary ho hn hbefore hD') hnext
              refine ⟨t :: (used ++ used'),by rw [List.cons_append, List.append_assoc],?_⟩
              rwa [List.append_assoc, List.cons_append] at hD''
            · cases hclimb
          · rename_i hn
            refine hstop (fun t' o' ht' ho' => ?_) hclimb
            obtain rfl := Option.some.inj ht'
            rw [ho] at ho'
            obtain rfl := Option.some.inj ho'
            exact Nat.lt_of_not_le hn

theorem climb_succ {x : α × List τ} (h : L.climb p fuel left n ts = some x) : L.climb p (fuel+1) left n ts = some x := by
  induction fuel generalizing left n ts x with
  | zero => cases h
  | succ fuel ih =>
    cases left with
    | none =>
      rw [climb] at h ⊢
      split
      · rename_i hopening
        rw [if_pos hopening] at h
        split at h
        · rename_i a t rest hinner
          rw [ih hinner]
          dsimp only
          split at h
          · rename_i hclosing
            rw [if_pos hclosing]
            exact ih h
          · cases h
        · cases h
      · rename_i hopening
        rw [if_neg hopening] at h
        split at h
        · rename_i a rest hread
          exact ih h
        · cases h
    | some a =>
      cases ts with
      | nil => exact h
      | cons t ts =>
        rw [climb] at h ⊢
        cases ho : L.op t with
        | none =>
          rw [ho] at h
          exact h
        | some o =>
          rw [ho] at h
          dsimp only at h ⊢
          split
          · rename_i hn
            rw [if_pos hn] at h
            split at h
            · rename_i b rest hright
              rw [ih hright]
              exact ih h
            · cases h
          · rename_i hn
            rw [if_neg hn] at h
            exact h

theorem climb_mono {fuel' : ℕ} {x : α × List τ} (h : L.climb p fuel left n ts = some x) (hle : fuel ≤ fuel') :
    L.climb p fuel' left n ts = some x := by
  induction hle with
  | refl => exact h
  | step _ ih => exact climb_succ ih

/-- What of the atoms is to be known: they do not begin as expressions in parentheses do, and operators
and parentheses may follow them. -/
structure Lawful (L : Operators τ α ω) (D : List τ → α → Prop) (F : List τ → Prop) : Prop where
  consuming : Consuming D
  atom : ∀ ts a, D ts a → ts.head? ≠ some L.opening
  op : ∀ t o rest, L.op t = some o → F (t :: rest)
  closing : ∀ rest, F (L.closing :: rest)
  closing_op : L.op L.closing = none

omit [DecidableEq τ] in
theorem Stops.mono {m : ℕ} (h : L.Stops n rest) (hle : n ≤ m) : L.Stops m rest :=
  fun t o ht ho => Nat.lt_of_lt_of_le (h t o ht ho) hle

/-- What continues behind an expression continues with it when it has been taken. -/
theorem climb_complete (h : Recognizes p D F) (hL : L.Lawful D F) {m k : ℕ} {x : α × List τ} (hD : L.Derives D m ts a) (hnm : n ≤ m)
    (hF : F rest) (hstops : L.Stops (m + 1) rest) (hx : L.climb p k (some a) n rest = some x) :
    L.climb p (k + ts.length) none n (ts ++ rest) = some x := by
  induction hD generalizing n k x rest with
  | @atom m ts a hatom =>
    have hlen : 0 < ts.length := List.length_pos_iff.mpr fun hnil => hL.consuming a (hnil ▸ hatom)
    have hhead : (ts ++ rest).head? ≠ some L.opening := by
      cases ts with
      | nil => exact absurd hlen (Nat.lt_irrefl 0)
      | cons t ts => exact hL.atom (t :: ts) a hatom
    have hone : L.climb p (k + 1) none n (ts ++ rest) = some x := by
      rw [climb_atom hhead (h.complete ts a rest hatom hF)]
      exact hx
    exact climb_mono hone (Nat.add_le_add_left hlen k)
  | @paren m ts a _ ih =>
    have hclosing (j : ℕ) : L.Stops j (L.closing :: rest) := by
      intro t o ht ho
      obtain rfl := Option.some.inj ht
      rw [hL.closing_op] at ho
      cases ho
    have hinner : L.climb p (1 + ts.length) none 0 (ts ++ L.closing :: rest) = some (a,L.closing :: rest) :=
      ih (Nat.le_refl 0) (hL.closing rest) (hclosing 1) (climb_stops (hclosing 0))
    have hk : 0 < k := by
      cases k with
      | zero => cases hx
      | succ k => exact Nat.succ_pos k
    have htokens : L.opening :: (ts ++ [L.closing]) ++ rest = L.opening :: (ts ++ L.closing :: rest) := by simp
    have hfuel : k + (L.opening :: (ts ++ [L.closing])).length = (k + (ts.length + 1)) + 1 := by
      rw [List.length_cons, List.length_append, List.length_singleton]
      omega
    rw [htokens, hfuel, climb_opening, climb_mono hinner (by omega)]
    dsimp only
    rw [if_pos rfl]
    exact climb_mono hx (Nat.le_add_right _ _)
  | @binary m ts us t o a b ho hm _ _ ihl ihr =>
    have hk : 0 < k := by
      cases k with
      | zero => cases hx
      | succ k => exact Nat.succ_pos k
    have hright : L.climb p (1 + us.length) none (L.prec o + 1) (us ++ rest) = some (b,rest) :=
      ihr (Nat.le_refl _) hF (hstops.mono (by omega)) (climb_stops (hstops.mono (by omega)))
    have hrest : L.climb p (k + us.length + 1) (some a) n (t :: (us ++ rest)) = some x := by
      rw [climb_op ho (Nat.le_trans hnm hm), climb_mono hright (by omega)]
      exact climb_mono hx (Nat.le_add_right _ _)
    have hop : L.Stops (L.prec o + 1) (t :: (us ++ rest)) := by
      intro t' o' ht ho'
      obtain rfl := Option.some.inj ht
      rw [ho] at ho'
      obtain rfl := Option.some.inj ho'
      exact Nat.lt_succ_self _
    have hall := ihl (Nat.le_trans hnm hm) (hL.op t o _ ho) hop hrest
    have hfuel : k + (ts ++ t :: us).length = k + us.length + 1 + ts.length := by
      rw [List.length_append, List.length_cons]
      omega
    rw [hfuel, List.append_assoc, List.cons_append]
    exact hall

/-- An expression is taken when no operator follows that it would go on with. -/
theorem recognizes (h : Recognizes p D F) (hL : L.Lawful D F) :
    Recognizes (L.expression p n) (L.Derives D n) fun rest => F rest ∧ L.Stops n rest := by
  constructor
  · intro ts a rest hp
    exact (climb_sound h hp).2.1 rfl
  · rintro used a rest hD ⟨hF,hstops⟩
    have hend : L.climb p 1 (some a) n rest = some (a,rest) := climb_stops hstops
    have hall := climb_complete h hL hD (Nat.le_refl n) hF (hstops.mono (Nat.le_succ n)) hend
    apply climb_mono hall
    rw [List.length_append]
    omega

omit [DecidableEq τ] in
/-- What holds of the atoms and is kept by operators holds of all expressions. -/
theorem Derives.forall_nodes {P : α → Prop} (h : L.Derives D n ts a) (hatom : ∀ ts a, D ts a → P a)
    (hnode : ∀ o a b, P a → P b → P (L.node o a b)) : P a := by
  induction h with
  | atom hD => exact hatom _ _ hD
  | paren _ ih => exact ih
  | binary _ _ _ _ ihl ihr => exact hnode _ _ _ ihl ihr

end Operators
end AqsiosCoordinator.Foundation
