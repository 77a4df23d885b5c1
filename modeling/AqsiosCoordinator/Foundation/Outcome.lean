import Mathlib.Tactic.Basic
import Mathlib.Logic.Basic

/-! # Computations over a state that is kept on failure

Rules for programs in `EStateM`: what a sequence that returns has done, and what
holds of the state a program leaves, whether it returns or fails.
-/
namespace AqsiosCoordinator.Foundation
variable {ε σ α β γ : Type}

def finalState : EStateM.Result ε σ α → σ
  | .ok _ s => s
  | .error _ s => s

@[simp] theorem finalState_ok (a : α) (s : σ) : finalState (.ok a s : EStateM.Result ε σ α) = s := rfl
@[simp] theorem finalState_error (e : ε) (s : σ) : finalState (.error e s : EStateM.Result ε σ α) = s := rfl

def failIf (c : Prop) [Decidable c] (e : ε) : EStateM ε σ PUnit := if c then throw e else pure ⟨⟩

def returns : EStateM.Result ε σ α → Bool
  | .ok _ _ => true
  | .error _ _ => false

namespace Outcome

theorem exists_of_returns {r : EStateM.Result ε σ α} (h : returns r = true) : ∃ a t, r = .ok a t := by
  cases r with
  | ok a t => exact ⟨a,t,rfl⟩
  | error e t => simp [returns] at h

theorem eq_ok_of_returns {r : EStateM.Result ε σ PUnit} (h : returns r = true) : r = .ok ⟨⟩ (finalState r) := by
  obtain ⟨a,t,rfl⟩ := exists_of_returns h
  rfl

def failsWith [DecidableEq ε] (e : ε) : EStateM.Result ε σ α → Bool
  | .ok _ _ => false
  | .error e' _ => e' = e

theorem exists_of_failsWith [DecidableEq ε] {e : ε} {r : EStateM.Result ε σ α} (h : failsWith e r = true) :
    ∃ t, r = .error e t := by
  cases r with
  | ok a t => cases h
  | error e' t =>
    obtain rfl : e' = e := by simpa [failsWith] using h
    exact ⟨t,rfl⟩

theorem failsWith_of_ne [DecidableEq ε] {e : ε} {r : EStateM.Result ε σ α} (h : ∀ t, r ≠ .error e t) : failsWith e r = false := by
  cases r with
  | ok a t => rfl
  | error e' t =>
    apply decide_eq_false
    rintro rfl
    exact h t rfl

theorem ne_error_of_returns {r : EStateM.Result ε σ α} (h : returns r = true) (e : ε) (t : σ) : r ≠ .error e t := by
  rintro rfl
  simp [returns] at h

theorem throw_apply (e : ε) (s : σ) : (throw e : EStateM ε σ α) s = .error e s := rfl
theorem get_apply (s : σ) : (get : EStateM ε σ σ) s = .ok s s := rfl
theorem set_apply (s t : σ) : (set t : EStateM ε σ PUnit) s = .ok ⟨⟩ t := rfl
theorem modify_apply (f : σ → σ) (s : σ) : (modify f : EStateM ε σ PUnit) s = .ok ⟨⟩ (f s) := rfl

theorem bind_of_ok {m : EStateM ε σ α} {f : α → EStateM ε σ β} {s t : σ} {a : α} (h : m s = .ok a t) :
    (m >>= f) s = f a t := by
  simp only [bind, EStateM.bind, h]

theorem bind_of_error {m : EStateM ε σ α} {f : α → EStateM ε σ β} {s t : σ} {e : ε} (h : m s = .error e t) :
    (m >>= f) s = .error e t := by
  simp only [bind, EStateM.bind, h]

/-- Two sequences that do the same from `s`. -/
theorem bind_congr {m m' : EStateM ε σ α} {f f' : α → EStateM ε σ β} {s : σ} (hm : m s = m' s)
    (hf : ∀ a t, m s = .ok a t → f a t = f' a t) : (m >>= f) s = (m' >>= f') s := by
  cases h : m s with
  | ok a t => rw [bind_of_ok h, bind_of_ok (hm ▸ h), hf a t h]
  | error e t => rw [bind_of_error h, bind_of_error (hm ▸ h)]

theorem bind_eq_ok {m : EStateM ε σ α} {f : α → EStateM ε σ β} {s u : σ} {b : β} :
    (m >>= f) s = .ok b u ↔ ∃ a t, m s = .ok a t ∧ f a t = .ok b u := by
  cases h : m s with
  | ok a t =>
    rw [bind_of_ok h]
    refine ⟨fun hf => ⟨a,t,rfl,hf⟩,?_⟩
    rintro ⟨a',t',he,hf⟩
    cases he
    exact hf
  | error e t => simp [bind_of_error h]

theorem map_eq_ok {m : EStateM ε σ α} {f : α → β} {s u : σ} {b : β} :
    (f <$> m) s = .ok b u ↔ ∃ a, m s = .ok a u ∧ f a = b := by
  simp only [Functor.map, EStateM.map]
  cases h : m s with
  | ok a t =>
    constructor
    · intro he
      cases he
      exact ⟨a,rfl,rfl⟩
    · rintro ⟨a',he,rfl⟩
      cases he
      rfl
  | error e t => simp

@[simp] theorem pure_eq_ok {s t : σ} {a b : α} : (pure a : EStateM ε σ α) s = .ok b t ↔ a = b ∧ s = t := by
  simp [pure, EStateM.pure]

@[simp] theorem throw_eq_ok {e : ε} {s t : σ} {a : α} : ¬ (throw e : EStateM ε σ α) s = .ok a t := by
  simp [throw_apply]

@[simp] theorem get_eq_ok {s t u : σ} : (get : EStateM ε σ σ) s = .ok t u ↔ s = t ∧ s = u := by
  simp [get_apply]

@[simp] theorem set_eq_ok {s t u : σ} {a : PUnit} : (set t : EStateM ε σ PUnit) s = .ok a u ↔ t = u := by
  simp [set_apply]

@[simp] theorem modify_eq_ok {f : σ → σ} {s u : σ} {a : PUnit} :
    (modify f : EStateM ε σ PUnit) s = .ok a u ↔ f s = u := by
  simp [modify_apply]

@[simp] theorem failIf_eq_ok {c : Prop} [Decidable c] {e : ε} {s t : σ} {a : PUnit} :
    failIf c e s = .ok a t ↔ ¬ c ∧ s = t := by
  by_cases hc : c <;> simp [failIf,hc]

theorem failIf_pos {c : Prop} [Decidable c] {e : ε} {s : σ} (h : c) : failIf c e s = .error e s := by
  rw [failIf, if_pos h, throw_apply]

theorem failIf_neg {c : Prop} [Decidable c] {e : ε} {s : σ} (h : ¬ c) : failIf c e s = .ok ⟨⟩ s :=
  failIf_eq_ok.mpr ⟨h,rfl⟩

/-- From a state with `I` and `P`, `m` leaves a state with `I` that `R` relates to the
first one, whether it returns or fails, and what it returns satisfies `Q`. -/
def Framed (I : σ → Prop) (R : σ → σ → Prop) (P : σ → Prop) (m : EStateM ε σ α) (Q : α → σ → Prop) : Prop :=
  ∀ s, I s → P s → I (finalState (m s)) ∧ R s (finalState (m s)) ∧ ∀ a t, m s = .ok a t → Q a t

def Stable (I : σ → Prop) (R : σ → σ → Prop) (A : σ → Prop) : Prop := ∀ s t, I s → I t → R s t → A s → A t

section Framed
variable {I : σ → Prop} {R : σ → σ → Prop} {P P' : σ → Prop}

theorem Framed.of_final {m : EStateM ε σ α} {Q : α → σ → Prop}
    (hok : ∀ s, I s → P s → ∀ a t, m s = .ok a t → I t ∧ R s t ∧ Q a t)
    (herr : ∀ s, I s → P s → ∀ e t, m s = .error e t → I t ∧ R s t) : Framed I R P m Q := by
  intro s hI hP
  cases h : m s with
  | ok a t =>
    obtain ⟨h1,h2,h3⟩ := hok s hI hP a t h
    refine ⟨h1,h2,fun a' t' he => ?_⟩
    cases he
    exact h3
  | error e t =>
    obtain ⟨h1,h2⟩ := herr s hI hP e t h
    exact ⟨h1,h2,fun a' t' he => by simp at he⟩

theorem Framed.weaken {m : EStateM ε σ α} {Q Q' : α → σ → Prop} (h : Framed I R P m Q)
    (hP : ∀ s, I s → P' s → P s) (hQ : ∀ a s, I s → Q a s → Q' a s) : Framed I R P' m Q' := by
  intro s hI hP'
  obtain ⟨h1,h2,h3⟩ := h s hI (hP s hI hP')
  refine ⟨h1,h2,fun a t he => hQ a t ?_ (h3 a t he)⟩
  rw [he] at h1
  exact h1

theorem framed_pure (hR : ∀ s, R s s) {a : α} {Q : α → σ → Prop} (h : ∀ s, I s → P s → Q a s) :
    Framed I R P (pure a : EStateM ε σ α) Q := by
  intro s hI hP
  refine ⟨hI,hR s,fun a' t he => ?_⟩
  obtain ⟨rfl,rfl⟩ := pure_eq_ok.mp he
  exact h s hI hP

theorem framed_throw (hR : ∀ s, R s s) {e : ε} {Q : α → σ → Prop} : Framed I R P (throw e : EStateM ε σ α) Q :=
  fun s hI _ => ⟨hI,hR s,fun _ _ he => absurd he throw_eq_ok⟩

theorem framed_failIf (hR : ∀ s, R s s) {c : Prop} [Decidable c] {e : ε} :
    Framed I R P (failIf c e : EStateM ε σ PUnit) (fun _ s => P s ∧ ¬ c) := by
  by_cases hc : c
  · simp only [failIf, hc, if_true]
    exact framed_throw hR
  · simp only [failIf, hc, if_false]
    exact framed_pure hR fun s _ hP => ⟨hP,not_false⟩

theorem framed_get (hR : ∀ s, R s s) {f : σ → α} : Framed I R P (do return f (← get) : EStateM ε σ α)
    (fun a s => P s ∧ a = f s) := by
  intro s hI hP
  refine ⟨hI,hR s,fun a t he => ?_⟩
  cases he
  exact ⟨hP,rfl⟩

theorem framed_modify {f : σ → σ} (h : ∀ s, I s → P s → I (f s) ∧ R s (f s)) :
    Framed I R P (modify f : EStateM ε σ PUnit) (fun _ _ => True) :=
  fun s hI hP => ⟨(h s hI hP).1,(h s hI hP).2,fun _ _ _ => trivial⟩

theorem Framed.bind (hR : ∀ s t u, R s t → R t u → R s u) {m : EStateM ε σ α} {f : α → EStateM ε σ β}
    {Q : α → σ → Prop} {Q' : β → σ → Prop} (hm : Framed I R P m Q) (hf : ∀ a, Framed I R (Q a) (f a) Q') :
    Framed I R P (m >>= f) Q' := by
  intro s hI hP
  obtain ⟨h1,h2,h3⟩ := hm s hI hP
  cases h : m s with
  | ok a t =>
    rw [h] at h1 h2
    obtain ⟨h4,h5,h6⟩ := hf a t h1 (h3 a t h)
    rw [bind_of_ok h]
    exact ⟨h4,hR _ _ _ h2 h5,h6⟩
  | error e t =>
    rw [h] at h1 h2
    rw [bind_of_error h]
    exact ⟨h1,h2,fun _ _ he => by simp at he⟩

/-- What holds before and is kept along `R` holds afterwards. -/
theorem Framed.keep {m : EStateM ε σ α} {Q : α → σ → Prop} (h : Framed I R P m Q) (hP : Stable I R P) :
    Framed I R P m (fun a s => P s ∧ Q a s) := by
  intro s hI hPs
  obtain ⟨h1,h2,h3⟩ := h s hI hPs
  refine ⟨h1,h2,fun a t he => ⟨?_,h3 a t he⟩⟩
  rw [he] at h1 h2
  exact hP s t hI h1 h2 hPs

end Framed

/-- From a state with `P`, `m` returns with `Q` or fails with `E`. -/
def Triple (P : σ → Prop) (m : EStateM ε σ α) (Q : α → σ → Prop) (E : ε → σ → Prop) : Prop :=
  ∀ s, P s → match m s with
    | .ok a t => Q a t
    | .error e t => E e t

section Triple
variable {P P' : σ → Prop} {E : ε → σ → Prop}

theorem Triple.of_ok {m : EStateM ε σ α} {Q : α → σ → Prop} {s t : σ} {a : α} (h : Triple P m Q E) (hP : P s)
    (hm : m s = .ok a t) : Q a t := by
  have hs := h s hP
  rw [hm] at hs
  exact hs

theorem Triple.of_error {m : EStateM ε σ α} {Q : α → σ → Prop} {s t : σ} {e : ε} (h : Triple P m Q E) (hP : P s)
    (hm : m s = .error e t) : E e t := by
  have hs := h s hP
  rw [hm] at hs
  exact hs

theorem triple_pure {a : α} {Q : α → σ → Prop} (h : ∀ s, P s → Q a s) : Triple P (pure a : EStateM ε σ α) Q E := h

theorem triple_throw {e : ε} {Q : α → σ → Prop} (h : ∀ s, P s → E e s) : Triple P (throw e : EStateM ε σ α) Q E := h

theorem triple_failIf {c : Prop} [Decidable c] {e : ε} (h : ∀ s, c → P s → E e s) :
    Triple P (failIf c e : EStateM ε σ PUnit) (fun _ s => P s ∧ ¬ c) E := by
  by_cases hc : c
  · simp only [failIf, hc, if_true]
    exact triple_throw fun s => h s hc
  · simp only [failIf, hc, if_false]
    exact triple_pure fun s hs => ⟨hs,not_false⟩

theorem triple_get : Triple P (get : EStateM ε σ σ) (fun a s => P s ∧ a = s) E := fun _ hs => ⟨hs,rfl⟩

theorem triple_modify {f : σ → σ} {Q : PUnit → σ → Prop} (h : ∀ s, P s → Q ⟨⟩ (f s)) :
    Triple P (modify f : EStateM ε σ PUnit) Q E := h

theorem Triple.bind {m : EStateM ε σ α} {f : α → EStateM ε σ β} {Q : α → σ → Prop} {Q' : β → σ → Prop}
    (hm : Triple P m Q E) (hf : ∀ a, Triple (Q a) (f a) Q' E) : Triple P (m >>= f) Q' E := by
  intro s hs
  cases h : m s with
  | ok a t =>
    rw [bind_of_ok h]
    exact hf a t (hm.of_ok hs h)
  | error e t =>
    rw [bind_of_error h]
    exact hm.of_error hs h

theorem Triple.weaken {m : EStateM ε σ α} {Q Q' : α → σ → Prop} (h : Triple P m Q E) (hP : ∀ s, P' s → P s)
    (hQ : ∀ a s, Q a s → Q' a s) : Triple P' m Q' E := by
  intro s hs
  have hm := h s (hP s hs)
  cases hr : m s with
  | ok a t =>
    rw [hr] at hm
    exact hQ a t hm
  | error e t =>
    rw [hr] at hm
    exact hm

end Triple

/-- What `m` returns satisfies `Q`, from whatever state it starts. -/
def Ensures (m : EStateM ε σ α) (Q : α → Prop) : Prop := ∀ s a t, m s = .ok a t → Q a

section Ensures
variable {Q : α → Prop}

theorem ensures_any {m : EStateM ε σ α} : Ensures m (fun _ => True) := fun _ _ _ _ => trivial

theorem ensures_pure {a : α} (h : Q a) : Ensures (pure a : EStateM ε σ α) Q := by
  intro s b t hb
  rw [← (pure_eq_ok.mp hb).1]
  exact h

theorem ensures_throw {e : ε} : Ensures (throw e : EStateM ε σ α) Q := fun _ _ _ h => absurd h throw_eq_ok

theorem Ensures.bind {m : EStateM ε σ α} {f : α → EStateM ε σ β} {Q' : β → Prop} (hm : Ensures m Q)
    (hf : ∀ a, Q a → Ensures (f a) Q') : Ensures (m >>= f) Q' := by
  intro s b u hb
  obtain ⟨a,t,ha,hb⟩ := bind_eq_ok.mp hb
  exact hf a (hm s a t ha) t b u hb

theorem Ensures.weaken {m : EStateM ε σ α} {Q' : α → Prop} (hm : Ensures m Q) (h : ∀ a, Q a → Q' a) : Ensures m Q' :=
  fun s a t ha => h a (hm s a t ha)

/-- An invariant of a loop holds of what it returns. -/
theorem ensures_foldlM {I : β → Prop} {f : β → α → EStateM ε σ β} {l : List α} (hf : ∀ b, ∀ a ∈ l, I b → Ensures (f b a) I)
    {b : β} (hb : I b) : Ensures (l.foldlM f b) I := by
  induction l generalizing b with
  | nil => exact ensures_pure hb
  | cons a l ih =>
    rw [List.foldlM_cons]
    refine Ensures.bind (hf b a List.mem_cons_self hb) fun c hc => ?_
    exact ih (fun b a ha => hf b a (List.mem_cons_of_mem _ ha)) hc

end Ensures

end Outcome
end AqsiosCoordinator.Foundation
