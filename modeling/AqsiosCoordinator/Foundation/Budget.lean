import AqsiosCoordinator.Foundation.Outcome
import Mathlib.Algebra.Order.Monoid.Prod

/-! # Computations that take from a pool

A computation that takes at most `k` from a pool of bounded size is judged only when the
pool has room for `k`: what it returns, how it fails, and how much is in use afterwards.
-/
namespace AqsiosCoordinator.Foundation

/-- A pool that is part of a state: how much of it is in use, and how much there is. -/
structure Stock (σ C : Type) where
  used : σ → C
  size : C

variable {ε σ α β C : Type} [AddCommMonoid C] [PartialOrder C]

/-- With room for `k`, `m` takes at most `k`, what it returns satisfies `Q`, and how it fails satisfies `F`. -/
def Within (P : Stock σ C) (k : C) (m : EStateM ε σ α) (Q : α → Prop) (F : ε → Prop) : Prop :=
  ∀ s, P.used s + k ≤ P.size → match m s with
    | .ok a t => Q a ∧ P.used t ≤ P.used s + k
    | .error e _ => F e

namespace Within
open Outcome
variable {P : Stock σ C} {k l : C} {m : EStateM ε σ α} {f : α → EStateM ε σ β} {Q : α → Prop} {Q' : β → Prop} {F : ε → Prop}

theorem of_ok {s t : σ} {a : α} (h : Within P k m Q F) (hs : P.used s + k ≤ P.size) (hm : m s = .ok a t) :
    Q a ∧ P.used t ≤ P.used s + k := by
  have hr := h s hs
  rwa [hm] at hr

theorem of_error {s t : σ} {e : ε} (h : Within P k m Q F) (hs : P.used s + k ≤ P.size) (hm : m s = .error e t) : F e := by
  have hr := h s hs
  rwa [hm] at hr

theorem weaken {R : α → Prop} {G : ε → Prop} (h : Within P k m Q F) (hQ : ∀ a, Q a → R a) (hF : ∀ e, F e → G e) :
    Within P k m R G := by
  intro s hs
  cases hm : m s with
  | ok a t => exact ⟨hQ a (h.of_ok hs hm).1,(h.of_ok hs hm).2⟩
  | error e t => exact hF e (h.of_error hs hm)

/-- What is returned in any case is returned here. -/
theorem and_ensures {R : α → Prop} (h : Within P k m Q F) (hR : Ensures m R) : Within P k m (fun a => Q a ∧ R a) F := by
  intro s hs
  cases hm : m s with
  | ok a t => exact ⟨⟨(h.of_ok hs hm).1,hR s a t hm⟩,(h.of_ok hs hm).2⟩
  | error e t => exact h.of_error hs hm

theorem pure {a : α} (h : Q a) : Within P 0 (pure a) Q F := fun s _ => ⟨h,(add_zero (P.used s)).ge⟩

theorem throw {e : ε} (h : F e) : Within P 0 (throw e) Q F := fun _ _ => h

theorem failIf {c : Prop} [Decidable c] {e : ε} (h : c → F e) : Within P 0 (failIf c e) (fun _ => ¬ c) F := by
  unfold Foundation.failIf
  split
  · rename_i hc
    exact Within.throw (h hc)
  · rename_i hc
    exact Within.pure hc

variable [IsOrderedAddMonoid C]

theorem mono (hm : Within P k m Q F) (hkl : k ≤ l) : Within P l m Q F := by
  intro s hs
  have hsum : P.used s + k ≤ P.used s + l := add_le_add le_rfl hkl
  cases h : m s with
  | error e t => exact hm.of_error (hsum.trans hs) h
  | ok a t =>
    obtain ⟨hQ,hle⟩ := hm.of_ok (hsum.trans hs) h
    exact ⟨hQ,hle.trans hsum⟩

variable [CanonicallyOrderedAdd C]

theorem bind (hm : Within P k m Q F) (hf : ∀ a, Q a → Within P l (f a) Q' F) : Within P (k + l) (m >>= f) Q' F := by
  intro s hs
  have hroom : P.used s + k ≤ P.size := le_trans (add_le_add le_rfl le_self_add) hs
  cases h : m s with
  | error e t =>
    rw [bind_of_error h]
    exact hm.of_error hroom h
  | ok a t =>
    obtain ⟨hQ,hle⟩ := hm.of_ok hroom h
    have hsum : P.used t + l ≤ P.used s + (k + l) := by
      rw [← add_assoc]
      exact add_le_add hle le_rfl
    rw [bind_of_ok h]
    cases h' : f a t with
    | error e u => exact (hf a hQ).of_error (hsum.trans hs) h'
    | ok b u =>
      obtain ⟨hQ',hle'⟩ := (hf a hQ).of_ok (hsum.trans hs) h'
      exact ⟨hQ',hle'.trans hsum⟩

/-- A part that takes nothing. -/
theorem bind₀ (hm : Within P 0 m Q F) (hf : ∀ a, Q a → Within P l (f a) Q' F) : Within P l (m >>= f) Q' F := by
  have h := hm.bind hf
  rwa [zero_add] at h

end Within
end AqsiosCoordinator.Foundation
