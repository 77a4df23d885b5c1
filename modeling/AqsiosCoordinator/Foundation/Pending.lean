import Mathlib.Data.List.Induction
import Mathlib.Data.Nat.Find

/-! # What is pending in a sequence of openings and closings

An opening replaces what is pending, a closing ends it.
-/
namespace AqsiosCoordinator.Foundation
variable {α β : Type*} (opens : α → Option β) (closes : α → Bool)

def pendingStep (p : Option β) (x : α) : Option β :=
  match opens x with
  | some b => some b
  | none => if closes x then none else p

def pending (xs : List α) : Option β := xs.foldl (pendingStep opens closes) none

variable {opens closes} {xs : List α} {x : α} {b : β}

theorem pending_concat (xs : List α) (x : α) :
    pending opens closes (xs ++ [x]) = pendingStep opens closes (pending opens closes xs) x := by
  simp [pending]

/-- The opening at `i` is the last of the sequence and nothing closes it. -/
def LastOpen (opens : α → Option β) (closes : α → Bool) (xs : List α) (i : ℕ) (b : β) : Prop :=
  (∃ x, xs[i]? = some x ∧ opens x = some b) ∧
    ∀ k y, i < k → xs[k]? = some y → opens y = none ∧ closes y = false

theorem lastOpen_concat {i : ℕ} :
    LastOpen opens closes (xs ++ [x]) i b ↔
      (i = xs.length ∧ opens x = some b) ∨ (LastOpen opens closes xs i b ∧ opens x = none ∧ closes x = false) := by
  have hlast : (xs ++ [x])[xs.length]? = some x := by simp
  constructor
  · rintro ⟨⟨y,hy,hb⟩,hlater⟩
    have hi : i < xs.length + 1 := by simpa using (List.getElem?_eq_some_iff.mp hy).1
    obtain h | h : i = xs.length ∨ i < xs.length := by omega
    · subst h
      rw [hlast, Option.some.injEq] at hy
      exact .inl ⟨rfl,hy ▸ hb⟩
    · rw [List.getElem?_append_left h] at hy
      refine .inr ⟨⟨⟨y,hy,hb⟩,fun k z hk hz => ?_⟩,hlater xs.length x h hlast⟩
      apply hlater k z hk
      rw [List.getElem?_append_left (List.getElem?_eq_some_iff.mp hz).1]
      exact hz
  · rintro (⟨rfl,hb⟩ | ⟨⟨⟨y,hy,hb⟩,hlater⟩,ho,hc⟩)
    · refine ⟨⟨x,hlast,hb⟩,fun k y hk hy => ?_⟩
      have h := (List.getElem?_eq_some_iff.mp hy).1
      simp only [List.length_append, List.length_singleton] at h
      omega
    · have hi := (List.getElem?_eq_some_iff.mp hy).1
      refine ⟨⟨y,by rw [List.getElem?_append_left hi]; exact hy,hb⟩,fun k z hk hz => ?_⟩
      have hk' := (List.getElem?_eq_some_iff.mp hz).1
      simp only [List.length_append, List.length_singleton] at hk'
      obtain h | h : k = xs.length ∨ k < xs.length := by omega
      · subst h
        rw [hlast, Option.some.injEq] at hz
        exact hz ▸ ⟨ho,hc⟩
      · rw [List.getElem?_append_left h] at hz
        exact hlater k z hk hz

theorem pending_eq_some_iff : pending opens closes xs = some b ↔ ∃ i, LastOpen opens closes xs i b := by
  induction xs using List.reverseRecOn generalizing b with
  | nil => simp [pending,LastOpen]
  | append_singleton xs x ih =>
    rw [pending_concat]
    simp only [lastOpen_concat]
    cases ho : opens x with
    | some c =>
      simp [pendingStep,ho]
    | none =>
      cases hc : closes x with
      | true => simp [pendingStep,ho,hc]
      | false => simp [pendingStep,ho,hc,ih]

/-- With nothing pending every opening has been closed. -/
theorem exists_closing (h : pending opens closes xs = none) {i : ℕ} (hi : xs[i]? = some x)
    (hb : opens x = some b) : ∃ j y, i < j ∧ xs[j]? = some y ∧ closes y = true := by
  induction xs using List.reverseRecOn generalizing i with
  | nil => simp at hi
  | append_singleton xs z ih =>
    rw [pending_concat] at h
    have hz : opens z = none := by
      cases ho : opens z with
      | none => rfl
      | some c => simp [pendingStep,ho] at h
    have hlt : i < xs.length := by
      have h1 := (List.getElem?_eq_some_iff.mp hi).1
      simp only [List.length_append, List.length_singleton] at h1
      by_contra hge
      have hlen : i = xs.length := by omega
      subst hlen
      simp only [List.getElem?_concat_length, Option.some.injEq] at hi
      rw [hi, hb] at hz
      cases hz
    rw [List.getElem?_append_left hlt] at hi
    cases hc : closes z with
    | true => exact ⟨xs.length,z,hlt,by simp,hc⟩
    | false =>
      simp only [pendingStep, hz, hc, Bool.false_eq_true, if_false] at h
      obtain ⟨j,y,hij,hy,hclose⟩ := ih h hi
      refine ⟨j,y,hij,?_,hclose⟩
      rw [List.getElem?_append_left (List.getElem?_eq_some_iff.mp hy).1]
      exact hy

/-- Nothing strictly between the two positions satisfies `p`. -/
def NoneBetween (p : α → Prop) (xs : List α) (i j : ℕ) : Prop :=
  ∀ k x, i < k → k < j → xs[k]? = some x → ¬ p x

theorem LastOpen.noneBetween {i j : ℕ} (h : LastOpen opens closes (xs.take j) i b) :
    i < j ∧ (∃ x, xs[i]? = some x ∧ opens x = some b) ∧ NoneBetween (fun x => opens x ≠ none) xs i j ∧
      NoneBetween (fun x => closes x = true) xs i j := by
  obtain ⟨⟨x,hx,hb⟩,hlater⟩ := h
  have hlt : i < j := by
    have h1 := (List.getElem?_eq_some_iff.mp hx).1
    simp only [List.length_take] at h1
    omega
  rw [List.getElem?_take_of_lt hlt] at hx
  refine ⟨hlt,⟨x,hx,hb⟩,?_,?_⟩
  · intro k y hik hkj hy
    exact not_not.mpr (hlater k y hik (by rw [List.getElem?_take_of_lt hkj]; exact hy)).1
  · intro k y hik hkj hy
    simp [(hlater k y hik (by rw [List.getElem?_take_of_lt hkj]; exact hy)).2]

/-- What is pending before `j` is the opening with no other between it and `j`. -/
theorem LastOpen.eq_of_noneBetween {i i' j : ℕ} (h : LastOpen opens closes (xs.take j) i' b) (hij : i < j)
    (hx : xs[i]? = some x) (ho : opens x ≠ none) (hnone : NoneBetween (fun x => opens x ≠ none) xs i j) : i' = i := by
  obtain ⟨hlt,⟨y,hy,hb⟩,hno,-⟩ := h.noneBetween
  obtain hlt' | heq | hgt := Nat.lt_trichotomy i' i
  · exact absurd ho (hno i x hlt' hij hx)
  · exact heq
  · exact absurd (by simp [hb]) (hnone i' y hgt hlt hy)

/-- After an opening that is closed at all there is a first closing. -/
theorem exists_first_closing (h : pending opens closes xs = none) {i : ℕ} (hi : xs[i]? = some x)
    (hb : opens x = some b) :
    ∃ j y, i < j ∧ xs[j]? = some y ∧ closes y = true ∧ NoneBetween (fun x => closes x = true) xs i j := by
  classical
  have hex : ∃ j, i < j ∧ ∃ y, xs[j]? = some y ∧ closes y = true := by
    obtain ⟨j,y,h1,h2,h3⟩ := exists_closing h hi hb
    exact ⟨j,h1,y,h2,h3⟩
  obtain ⟨hij,y,hy,hc⟩ := Nat.find_spec hex
  refine ⟨Nat.find hex,y,hij,hy,hc,fun k z hik hkj hz hcz => ?_⟩
  exact Nat.find_min hex hkj ⟨hik,z,hz,hcz⟩

end AqsiosCoordinator.Foundation
