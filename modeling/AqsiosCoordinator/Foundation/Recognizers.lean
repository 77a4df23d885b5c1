import Mathlib.Data.List.Basic
import Mathlib.Tactic.Basic

/-! # Recognizers

A grammar relates the words of tokens to what they stand for. A recognizer takes from the
front of a list of tokens what a nonterminal derives, provided that what comes behind may
follow it.
-/
namespace AqsiosCoordinator.Foundation
variable {τ α : Type} {p : List τ → Option (α × List τ)} {D : List τ → α → Prop} {F G : List τ → Prop}

/-- The function takes from the front exactly what is derived, when the rest may follow. -/
structure Recognizes (p : List τ → Option (α × List τ)) (D : List τ → α → Prop) (F : List τ → Prop) : Prop where
  sound : ∀ ts a rest, p ts = some (a,rest) → ∃ used, ts = used ++ rest ∧ D used a
  complete : ∀ used a rest, D used a → F rest → p (used ++ rest) = some (a,rest)

def NotNext (stops rest : List τ) : Prop := ∀ t ∈ stops, rest.head? ≠ some t

theorem NotNext.mono {stops stops' rest : List τ} (h : NotNext stops rest) (hsub : stops' ⊆ stops) : NotNext stops' rest :=
  fun t ht => h t (hsub ht)

theorem notNext_cons {stops rest : List τ} {t : τ} : NotNext stops (t :: rest) ↔ t ∉ stops := by
  constructor
  · exact fun h ht => h t ht rfl
  · intro ht t' ht' heq
    obtain rfl := Option.some.inj heq
    exact ht ht'

/-- What is derived is never empty. -/
def Consuming (D : List τ → α → Prop) : Prop := ∀ a, ¬ D [] a

theorem Recognizes.mono (h : Recognizes p D F) (hFG : ∀ rest, G rest → F rest) : Recognizes p D G :=
  ⟨h.sound,fun used a rest hD hG => h.complete used a rest hD (hFG rest hG)⟩

inductive Separated (sep : τ) (D : List τ → α → Prop) : List τ → List α → Prop where
  | single {ts : List τ} {a : α} : D ts a → Separated sep D ts [a]
  | prepend {ts us : List τ} {a : α} {l : List α} : D ts a → Separated sep D us l → Separated sep D (ts ++ sep :: us) (a :: l)

/-- Takes things with separators between them; there are not more of them than `n`. -/
def takeSeparated [DecidableEq τ] (sep : τ) (p : List τ → Option (α × List τ)) : ℕ → List τ → Option (List α × List τ)
  | 0, _ => none
  | n+1, ts => match p ts with
    | none => none
    | some (a,[]) => some ([a],[])
    | some (a,t :: rest) =>
      if t = sep then (takeSeparated sep p n rest).map fun r => (a :: r.1,r.2) else some ([a],t :: rest)

def separated [DecidableEq τ] (sep : τ) (p : List τ → Option (α × List τ)) (ts : List τ) : Option (List α × List τ) :=
  takeSeparated sep p (ts.length + 1) ts

theorem Separated.length_le {sep : τ} {used : List τ} {l : List α} (h : Separated sep D used l) : l.length ≤ used.length + 1 := by
  induction h with
  | single _ => simp
  | prepend _ _ ih =>
    rw [List.length_append, List.length_cons, List.length_cons]
    omega

theorem Separated.ne_nil {sep : τ} {used : List τ} {l : List α} (h : Separated sep D used l) : l ≠ [] := by
  cases h <;> simp

theorem Separated.forall_mem {sep : τ} {used : List τ} {l : List α} {P : α → Prop} (h : Separated sep D used l)
    (hP : ∀ ts a, D ts a → P a) : ∀ a ∈ l, P a := by
  induction h with
  | single ha => exact List.forall_mem_singleton.mpr (hP _ _ ha)
  | prepend ha _ ih => exact List.forall_mem_cons.mpr ⟨hP _ _ ha,ih⟩

def separate (sep : τ) (f : α → List τ) : List α → List τ
  | [] => []
  | [a] => f a
  | a :: b :: l => f a ++ sep :: separate sep f (b :: l)

theorem Separated.of_forall {sep : τ} {f : α → List τ} {l : List α} (hne : l ≠ []) (h : ∀ a ∈ l, D (f a) a) :
    Separated sep D (separate sep f l) l := by
  induction l with
  | nil => exact absurd rfl hne
  | cons a l ih =>
    obtain ⟨ha,hl⟩ := List.forall_mem_cons.mp h
    cases l with
    | nil => exact .single ha
    | cons b l => exact .prepend ha (ih (by simp) hl)

/-- Behind the list comes no separator, and both the separator and what comes may follow its things. -/
theorem Recognizes.separated [DecidableEq τ] {sep : τ} (h : Recognizes p D F) (hsep : ∀ rest, F (sep :: rest)) :
    Recognizes (separated sep p) (Separated sep D) fun rest => F rest ∧ rest.head? ≠ some sep := by
  constructor
  · intro ts l rest hp
    have hsound (n : ℕ) : ∀ ts l, takeSeparated sep p n ts = some (l,rest) → ∃ used, ts = used ++ rest ∧ Separated sep D used l := by
      induction n with
      | zero => exact fun ts l hp => nomatch hp
      | succ n ih =>
        intro ts l hp
        rw [takeSeparated] at hp
        split at hp
        · cases hp
        · rename_i a hread
          cases hp
          obtain ⟨used,hts,hD⟩ := h.sound ts a [] hread
          exact ⟨used,hts,.single hD⟩
        · rename_i a t us hread
          obtain ⟨used,rfl,hD⟩ := h.sound ts a (t :: us) hread
          split at hp
          · rename_i ht
            obtain ⟨⟨l',rest'⟩,hrec,heq⟩ := Option.map_eq_some_iff.mp hp
            cases heq
            obtain ⟨used',rfl,hD'⟩ := ih us l' hrec
            refine ⟨used ++ sep :: used',?_,.prepend hD hD'⟩
            rw [ht, List.append_assoc, List.cons_append]
          · cases hp
            exact ⟨used,rfl,.single hD⟩
    exact hsound _ ts l hp
  · rintro used l rest hD ⟨hF,hhead⟩
    have hcomplete (n : ℕ) (hn : l.length ≤ n) : takeSeparated sep p n (used ++ rest) = some (l,rest) := by
      induction hD generalizing n with
      | @single ts a ha =>
        obtain ⟨n,rfl⟩ := Nat.exists_eq_add_of_lt (show 0 < n from hn)
        rw [Nat.zero_add, takeSeparated, h.complete ts a rest ha hF]
        cases rest with
        | nil => rfl
        | cons t rest =>
          have hne : t ≠ sep := fun ht => hhead (congrArg some ht)
          exact if_neg hne
      | @prepend ts us a l ha _ ih =>
        obtain ⟨n,rfl⟩ := Nat.exists_eq_add_of_lt (Nat.lt_of_lt_of_le (Nat.zero_lt_succ _) hn)
        have htail : takeSeparated sep p n (us ++ rest) = some (l,rest) := ih n (by simpa using hn)
        rw [Nat.zero_add, takeSeparated, List.append_assoc, List.cons_append, h.complete ts a _ ha (hsep _)]
        simp only [if_true, htail, Option.map_some]
    apply hcomplete
    have hle := hD.length_le
    rw [List.length_append]
    omega

theorem Recognizes.separated_notNext [DecidableEq τ] {sep : τ} {stops : List τ} (h : Recognizes p D (NotNext stops)) (hsep : sep ∉ stops) :
    Recognizes (Foundation.separated sep p) (Separated sep D) (NotNext (sep :: stops)) := by
  refine (h.separated fun _ => notNext_cons.mpr hsep).mono fun rest hrest => ?_
  exact ⟨hrest.mono (List.subset_cons_self sep stops),hrest sep List.mem_cons_self⟩

end AqsiosCoordinator.Foundation
