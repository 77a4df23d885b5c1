import Mathlib.Data.List.Basic
import Mathlib.Order.Lattice

/-! # Scanning a list for its first extremal entry

The comparison is that of machine numbers: a strict order up to entries that
compare with nothing.
-/
namespace AqsiosCoordinator.Foundation
variable {α : Type*}

structure ScanOrder (r : α → α → Bool) : Prop where
  irrefl : ∀ x, r x x = false
  trans : ∀ x y z, r x y = true → r y z = true → r x z = true
  connected : ∀ x y z, r x z = true →
    r x y = true ∨ r y z = true ∨ ∀ w, r y w = false ∧ r w y = false

theorem ScanOrder.flip {r : α → α → Bool} (h : ScanOrder r) : ScanOrder (fun x y => r y x) where
  irrefl := h.irrefl
  trans := fun x y z h1 h2 => h.trans z y x h2 h1
  connected := fun x y z hx => by
    obtain h1 | h1 | h1 := h.connected z y x hx
    · exact .inr (.inl h1)
    · exact .inl h1
    · exact .inr (.inr fun w => (h1 w).symm)

theorem ScanOrder.comap {β : Type*} {r : α → α → Bool} (h : ScanOrder r) (f : β → α) :
    ScanOrder (fun x y => r (f x) (f y)) where
  irrefl := fun x => h.irrefl (f x)
  trans := fun x y z => h.trans (f x) (f y) (f z)
  connected := fun x y z hx => (h.connected (f x) (f y) (f z) hx).imp_right
    (fun h1 => h1.imp_right fun h2 w => h2 (f w))

/-- Keeps the entry `cur` and its position until a later entry comes before it. -/
def scan (r : α → α → Bool) : ℕ → ℕ × α → List α → ℕ × α
  | _, cur, [] => cur
  | i, cur, x :: xs => scan r (i+1) (if r x cur.2 then (i,x) else cur) xs

/-- No entry comes before `x`, and none in front of it does as well, among those that
the scan looks at: the ones that come before the head. -/
structure First (r : α → α → Bool) (xs : List α) (i : ℕ) (x : α) : Prop where
  at_position : xs[i]? = some x
  extremal : ∀ y ∈ xs, r y x = false
  before_head : ∀ y, xs.head? = some y → i = 0 ∨ r x y = true
  first : ∀ j < i, ∀ y z, xs[j]? = some y → xs.head? = some z → r y z = true → r x y = true

theorem First.unique {r : α → α → Bool} {xs : List α} {i j : ℕ} {x y : α}
    (hi : First r xs i x) (hj : First r xs j y) : i = j ∧ x = y := by
  have hlt : ∀ {i j x y}, First r xs i x → First r xs j y → ¬ i < j := by
    intro i j x y hi hj h
    have hxm := List.mem_of_getElem? hi.at_position
    have hym := List.mem_of_getElem? hj.at_position
    obtain ⟨z,hz⟩ : ∃ z, xs.head? = some z := by
      cases xs with
      | nil => simp at hxm
      | cons z _ => exact ⟨z,rfl⟩
    have hyz : r y z = true := (hj.before_head z hz).resolve_left (by omega)
    have hxy : r y x = false := hi.extremal y hym
    obtain h0 | hxz := hi.before_head z hz
    · have hxz : x = z := by
        have h1 := hi.at_position
        rw [h0, ← List.head?_eq_getElem?, hz] at h1
        exact (Option.some.inj h1).symm
      rw [hxz, hyz] at hxy
      exact absurd hxy (by decide)
    · have h1 := hj.first i h x z hi.at_position hz hxz
      rw [h1] at hxy
      exact absurd hxy (by decide)
  have heq : i = j := by
    have h1 := hlt hi hj
    have h2 := hlt hj hi
    omega
  have h1 := hi.at_position
  rw [heq, hj.at_position] at h1
  exact ⟨heq,(Option.some.inj h1).symm⟩

theorem First.head {r : α → α → Bool} (h : ScanOrder r) (x : α) : First r [x] 0 x where
  at_position := rfl
  extremal := fun y hy => by
    rw [List.mem_singleton.mp hy]
    exact h.irrefl x
  before_head := fun _ _ => .inl rfl
  first := fun j hj => absurd hj (Nat.not_lt_zero j)

/-- One turn of the scan, over the entries seen so far and the next one. -/
theorem First.concat {r : α → α → Bool} (h : ScanOrder r) {xs : List α} {cur : ℕ × α}
    (hf : First r xs cur.1 cur.2) (x : α) :
    First r (xs ++ [x]) (if r x cur.2 then (xs.length,x) else cur).1
      (if r x cur.2 then (xs.length,x) else cur).2 := by
  have hlt : cur.1 < xs.length := (List.getElem?_eq_some_iff.mp hf.at_position).1
  have hne : xs ≠ [] := List.ne_nil_of_length_pos (by omega)
  have hhead : (xs ++ [x]).head? = xs.head? := List.head?_append_of_ne_nil xs hne
  by_cases hx : r x cur.2 = true
  · simp only [hx, if_true]
    have hmin : ∀ y ∈ xs, r y x = false := by
      intro y hy
      by_contra hyx
      have h1 := h.trans y x cur.2 (by simpa using hyx) hx
      rw [hf.extremal y hy] at h1
      exact absurd h1 (by decide)
    constructor
    · simp
    · intro y hy
      rcases List.mem_append.mp hy with hy | hy
      · exact hmin y hy
      · rw [List.mem_singleton.mp hy]
        exact h.irrefl x
    · intro z hz
      rw [hhead] at hz
      right
      obtain h0 | h1 := hf.before_head z hz
      · have hcur := hf.at_position
        rw [h0, ← List.head?_eq_getElem?, hz] at hcur
        rw [Option.some.inj hcur]
        exact hx
      · exact h.trans x cur.2 z hx h1
    · intro j hj y z hy hz hyz
      rw [List.getElem?_append_left hj] at hy
      obtain h1 | h1 | h1 := h.connected x y cur.2 hx
      · exact h1
      · rw [hf.extremal y (List.mem_of_getElem? hy)] at h1
        exact absurd h1 (by decide)
      · rw [(h1 z).1] at hyz
        exact absurd hyz (by decide)
  · simp only [hx, Bool.false_eq_true, if_false]
    constructor
    · rw [List.getElem?_append_left hlt]
      exact hf.at_position
    · intro y hy
      rcases List.mem_append.mp hy with hy | hy
      · exact hf.extremal y hy
      · rw [List.mem_singleton.mp hy]
        simpa using hx
    · intro z hz
      exact hf.before_head z (hhead ▸ hz)
    · intro j hj y z hy hz
      rw [List.getElem?_append_left (by omega)] at hy
      exact hf.first j hj y z hy (hhead ▸ hz)

theorem First.scan {r : α → α → Bool} (h : ScanOrder r) {xs : List α} {cur : ℕ × α} {ys : List α}
    (hf : First r xs cur.1 cur.2) :
    First r (xs ++ ys) (scan r xs.length cur ys).1 (scan r xs.length cur ys).2 := by
  induction ys generalizing xs cur with
  | nil => simpa [Foundation.scan] using hf
  | cons y ys ih =>
    have hnext := ih (hf.concat h y)
    simpa [Foundation.scan] using hnext

/-- The scan ends at the first extremal entry. -/
theorem scan_eq_iff {r : α → α → Bool} (h : ScanOrder r) {x y : α} {xs : List α} {i : ℕ} :
    scan r 1 (0,x) xs = (i,y) ↔ First r (x :: xs) i y := by
  have hf : First r ([x] ++ xs) (scan r 1 (0,x) xs).1 (scan r 1 (0,x) xs).2 := First.scan h (First.head h x)
  rw [List.singleton_append] at hf
  constructor
  · intro he
    rw [he] at hf
    exact hf
  · intro hi
    obtain ⟨h1,h2⟩ := hf.unique hi
    exact Prod.ext h1 h2

/-- The least and the greatest entry stand at different positions exactly when
something comes behind the least. -/
theorem scan_ne_iff {r : α → α → Bool} (h : ScanOrder r) {x : α} {xs : List α} :
    (scan (fun a b => r b a) 1 (0,x) xs).1 ≠ (scan r 1 (0,x) xs).1 ↔
      ∃ y ∈ x :: xs, r (scan r 1 (0,x) xs).2 y = true := by
  have hmin : First r (x :: xs) (scan r 1 (0,x) xs).1 (scan r 1 (0,x) xs).2 := (scan_eq_iff h).mp rfl
  have hmax : First (fun a b => r b a) (x :: xs) (scan (fun a b => r b a) 1 (0,x) xs).1
      (scan (fun a b => r b a) 1 (0,x) xs).2 := (scan_eq_iff h.flip).mp rfl
  constructor
  · intro hne
    obtain h0 | h0 := hmin.before_head x rfl
    · have h1 := (hmax.before_head x rfl).resolve_left (by omega)
      have hx : x = (scan r 1 (0,x) xs).2 := by
        have h2 := hmin.at_position
        rw [h0, List.getElem?_cons_zero] at h2
        exact Option.some.inj h2
      exact ⟨_,List.mem_of_getElem? hmax.at_position,hx ▸ h1⟩
    · exact ⟨x,List.mem_cons_self,h0⟩
  · rintro ⟨y,hy,hlt⟩ heq
    have h1 := hmax.at_position
    rw [heq, hmin.at_position, Option.some.injEq] at h1
    have h2 := hmax.extremal y hy
    rw [← h1, hlt] at h2
    exact absurd h2 (by decide)

/-- Among keys that all compare, the first extremal entry is the first with the least key. -/
theorem first_iff_least {β : Type*} [LinearOrder β] {key : α → β} {xs : List α} {i : ℕ} {x : α} :
    First (fun a b => decide (key a < key b)) xs i x ↔
      xs[i]? = some x ∧ (∀ y ∈ xs, key x ≤ key y) ∧ ∀ j < i, ∀ y, xs[j]? = some y → key x < key y := by
  have hhead : ∀ z, xs.head? = some z ↔ xs[0]? = some z := by
    intro z
    rw [List.head?_eq_getElem?]
  constructor
  · intro h
    refine ⟨h.at_position,?_,?_⟩
    · intro y hy
      have hyx := h.extremal y hy
      rw [decide_eq_false_iff_not] at hyx
      exact not_lt.mp hyx
    · intro j hj y hy
      have hlen : 0 < xs.length := by
        have := (List.getElem?_eq_some_iff.mp hy).1
        omega
      have hz : xs.head? = some xs[0] := (hhead _).mpr (List.getElem?_eq_getElem hlen)
      have hxz := (h.before_head _ hz).resolve_left (by omega)
      rw [decide_eq_true_eq] at hxz
      by_cases hyz : key y < key xs[0]
      · have hxy := h.first j hj y _ hy hz (by rwa [decide_eq_true_eq])
        rwa [decide_eq_true_eq] at hxy
      · exact lt_of_lt_of_le hxz (not_lt.mp hyz)
  · rintro ⟨hx,hleast,hfirst⟩
    constructor
    · exact hx
    · intro y hy
      rw [decide_eq_false_iff_not]
      exact not_lt.mpr (hleast y hy)
    · intro z hz
      obtain h0 | hpos := Nat.eq_zero_or_pos i
      · exact .inl h0
      · right
        rw [decide_eq_true_eq]
        exact hfirst 0 hpos z ((hhead z).mp hz)
    · intro j hj y z hy hz hyz
      rw [decide_eq_true_eq]
      exact hfirst j hj y hy

end AqsiosCoordinator.Foundation
