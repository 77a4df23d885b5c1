import Mathlib.Data.List.Basic
import Mathlib.Tactic.Basic

/-! # Readers over a bounded buffer

A reader takes values off the front of a buffer. Reading past the end of the
buffer has no result, so a reader that succeeds has stayed inside it. The one
property developed here is locality: what a reader does on a buffer it does on
every longer buffer with the same front.
-/
namespace AqsiosCoordinator.Foundation

/-- A reader over a buffer of `α`; `none` stands for a read past the end. -/
abbrev Reader (α : Type) := StateT (List α) Option

namespace Reader
variable {α β γ : Type}

def undefined : Reader α β := fun _ => none

def peek : Reader α α
  | [] => none
  | a :: rest => some (a, a :: rest)

def skip : Reader α Unit
  | [] => none
  | _ :: rest => some ((), rest)

/-- The longest front whose values satisfy `p`; the value that ends it is looked at. -/
def spanList (p : α → Bool) : List α → Option (List α × List α)
  | [] => none
  | a :: rest => if p a then (spanList p rest).map (fun r => (a :: r.1, r.2)) else some ([], a :: rest)

def span (p : α → Bool) : Reader α (List α) := fun buffer => spanList p buffer

def attempt (m : Reader α (Option β)) : Reader α (Option β) := fun buffer =>
  (m buffer).map (fun r => if r.1.isSome then r else (none, buffer))

/-- Compares the buffer with `word` up to the first difference; the cursor stays. -/
def matchesList [DecidableEq α] : List α → List α → Option Bool
  | [], _ => some true
  | _ :: _, [] => none
  | w :: word, a :: rest => if a = w then matchesList word rest else some false

def startsWith [DecidableEq α] (word : List α) : Reader α Bool := fun buffer =>
  (matchesList word buffer).map (fun b => (b, buffer))

def remaining : Reader α ℕ := fun buffer => some (buffer.length, buffer)

/-- A reader is local when a longer buffer changes neither its value nor what it consumes. -/
def Local (m : Reader α β) : Prop :=
  ∀ buffer b rest tail, m buffer = some (b, rest) → m (buffer ++ tail) = some (b, rest ++ tail)

theorem local_undefined : Local (undefined : Reader α β) := by
  intro buffer b rest tail h
  simp [undefined] at h

theorem pure_apply (b : β) (buffer : List α) : (pure b : Reader α β) buffer = some (b, buffer) := rfl

theorem local_pure (b : β) : Local (pure b : Reader α β) := by
  intro buffer b' rest tail h
  simp only [pure_apply, Option.some.injEq, Prod.mk.injEq] at h ⊢
  obtain ⟨rfl,rfl⟩ := h
  exact ⟨rfl,rfl⟩

theorem bind_eq_some {m : Reader α β} {f : β → Reader α γ} {buffer rest : List α} {c : γ}
    (h : (m >>= f) buffer = some (c, rest)) :
    ∃ b mid, m buffer = some (b, mid) ∧ f b mid = some (c, rest) := by
  simp only [bind, StateT.bind, Option.bind_eq_some_iff, Prod.exists] at h
  exact h

theorem bind_of_eq {m : Reader α β} {f : β → Reader α γ} {buffer mid : List α} {b : β}
    (h : m buffer = some (b, mid)) : (m >>= f) buffer = f b mid := by
  simp only [bind, StateT.bind, h, Option.bind_some]

theorem Local.bind {m : Reader α β} {f : β → Reader α γ} (hm : Local m) (hf : ∀ b, Local (f b)) :
    Local (m >>= f) := by
  intro buffer c rest tail h
  obtain ⟨b,mid,h1,h2⟩ := bind_eq_some h
  rw [bind_of_eq (hm _ _ _ tail h1)]
  exact hf b _ _ _ tail h2

theorem local_peek : Local (peek : Reader α α) := by
  intro buffer a rest tail h
  cases buffer with
  | nil => simp [peek] at h
  | cons x xs =>
    simp only [peek, Option.some.injEq, Prod.mk.injEq] at h
    obtain ⟨rfl,rfl⟩ := h
    rfl

theorem local_skip : Local (skip : Reader α Unit) := by
  intro buffer a rest tail h
  cases buffer with
  | nil => simp [skip] at h
  | cons x xs =>
    simp only [skip, Option.some.injEq, Prod.mk.injEq] at h
    obtain ⟨-,rfl⟩ := h
    rfl

theorem local_span (p : α → Bool) : Local (span p : Reader α (List α)) := by
  intro buffer
  induction buffer with
  | nil => intro b rest tail h; simp [span, spanList] at h
  | cons x xs ih =>
    intro b rest tail h
    simp only [span, spanList, List.cons_append] at h ih ⊢
    by_cases hp : p x = true
    · simp only [hp, if_true, Option.map_eq_some_iff] at h ⊢
      obtain ⟨r,hr,he⟩ := h
      simp only [Prod.mk.injEq] at he
      obtain ⟨rfl,rfl⟩ := he
      exact ⟨(r.1,r.2 ++ tail),ih _ _ tail hr,rfl⟩
    · have hp' : p x = false := by simpa using hp
      simp only [hp', Bool.false_eq_true, if_false, Option.some.injEq, Prod.mk.injEq] at h ⊢
      obtain ⟨rfl,rfl⟩ := h
      exact ⟨rfl,rfl⟩

theorem Local.attempt {m : Reader α (Option β)} (hm : Local m) : Local (attempt m) := by
  intro buffer b rest tail h
  simp only [Reader.attempt, Option.map_eq_some_iff] at h ⊢
  obtain ⟨⟨b',mid⟩,hr,he⟩ := h
  refine ⟨(b',mid ++ tail),hm _ _ _ tail hr,?_⟩
  cases b' with
  | none => simp only [Option.isSome_none, Bool.false_eq_true, if_false, Prod.mk.injEq] at he ⊢; simp [← he.1, ← he.2]
  | some v => simp only [Option.isSome_some, if_true, Prod.mk.injEq] at he ⊢; simp [← he.1, ← he.2]

theorem matchesList_append [DecidableEq α] {word buffer : List α} {b : Bool} (tail : List α)
    (h : matchesList word buffer = some b) : matchesList word (buffer ++ tail) = some b := by
  induction word generalizing buffer with
  | nil => simpa [matchesList] using h
  | cons w word ih =>
    cases buffer with
    | nil => simp [matchesList] at h
    | cons x xs =>
      simp only [matchesList, List.cons_append] at h ⊢
      by_cases hx : x = w
      · simp only [hx, if_true] at h ⊢; exact ih h
      · simpa only [hx, if_false] using h

theorem local_startsWith [DecidableEq α] (word : List α) : Local (startsWith word) := by
  intro buffer b rest tail h
  simp only [startsWith, Option.map_eq_some_iff, Prod.mk.injEq] at h ⊢
  obtain ⟨b',hb,rfl,rfl⟩ := h
  exact ⟨b',matchesList_append tail hb,rfl,rfl⟩

theorem Local.ite {c : Prop} [Decidable c] {m n : Reader α β} (hm : Local m) (hn : Local n) :
    Local (if c then m else n) := by
  by_cases h : c
  · simpa only [h, if_true] using hm
  · simpa only [h, if_false] using hn

def Yields (m : Reader α β) (P : β → Prop) : Prop := ∀ buffer b rest, m buffer = some (b, rest) → P b

theorem yields_pure {b : β} {P : β → Prop} (h : P b) : Yields (pure b : Reader α β) P := by
  intro buffer b' rest hb
  simp only [pure_apply, Option.some.injEq, Prod.mk.injEq] at hb
  exact hb.1 ▸ h

theorem yields_undefined (P : β → Prop) : Yields (undefined : Reader α β) P := by
  intro buffer b rest h
  simp [undefined] at h

theorem Yields.bind {m : Reader α β} {f : β → Reader α γ} {P : β → Prop} {Q : γ → Prop}
    (hm : Yields m P) (hf : ∀ b, P b → Yields (f b) Q) : Yields (m >>= f) Q := by
  intro buffer c rest h
  obtain ⟨b,mid,h1,h2⟩ := bind_eq_some h
  exact hf b (hm _ _ _ h1) _ _ _ h2

theorem yields_bind {m : Reader α β} {f : β → Reader α γ} {Q : γ → Prop}
    (hf : ∀ b, Yields (f b) Q) : Yields (m >>= f) Q :=
  fun _ _ _ h => match bind_eq_some h with | ⟨b,_,_,h2⟩ => hf b _ _ _ h2

theorem Yields.ite {c : Prop} [Decidable c] {m n : Reader α β} {P : β → Prop}
    (hm : Yields m P) (hn : Yields n P) : Yields (if c then m else n) P := by
  by_cases h : c
  · simpa only [h, if_true] using hm
  · simpa only [h, if_false] using hn

end Reader
end AqsiosCoordinator.Foundation
