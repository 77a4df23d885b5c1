import Mathlib.Logic.Function.Basic
import Mathlib.Data.List.Nodup

/-! # Intrusive doubly linked lists

Cells carry a next and a previous link; a list is given by the link to its first
cell. `IsList` relates the links to the logical list of cells. The operations are
the usual pointer assignments, and each keeps lists of other cells as they are.
-/
namespace AqsiosCoordinator.Foundation
variable {ι : Type} [DecidableEq ι]

structure Links (ι : Type) where
  next : ι → Option ι
  prev : ι → Option ι

namespace Links

def setNext (L : Links ι) (a : ι) (v : Option ι) : Links ι := { L with next := Function.update L.next a v }
def setPrev (L : Links ι) (a : ι) (v : Option ι) : Links ι := { L with prev := Function.update L.prev a v }

/-- Assignments through a link that may be null; a null link is left alone. -/
def setNextAt (L : Links ι) (p v : Option ι) : Links ι := match p with | some a => L.setNext a v | none => L
def setPrevAt (L : Links ι) (p v : Option ι) : Links ι := match p with | some a => L.setPrev a v | none => L

def walk (L : Links ι) : ℕ → Option ι → List ι
  | 0, _ => []
  | _+1, none => []
  | fuel+1, some a => a :: L.walk fuel (L.next a)

omit [DecidableEq ι]

/-- The cells of `l` are linked in this order from `head`, behind the cell `p`. -/
def IsList (L : Links ι) : Option ι → Option ι → List ι → Prop
  | _, head, [] => head = none
  | p, head, a :: l => head = some a ∧ L.prev a = p ∧ L.IsList (some a) (L.next a) l

variable {L L' : Links ι} {p head : Option ι} {a b c : ι} {l : List ι}

theorem IsList.congr (h : L.IsList p head l) (hn : ∀ x ∈ l, L'.next x = L.next x)
    (hp : ∀ x ∈ l, L'.prev x = L.prev x) : L'.IsList p head l := by
  induction l generalizing p head with
  | nil => exact h
  | cons x l ih =>
    obtain ⟨h1,h2,h3⟩ := h
    refine ⟨h1,(hp x List.mem_cons_self).trans h2,?_⟩
    rw [hn x List.mem_cons_self]
    exact ih h3 (fun y hy => hn y (List.mem_cons_of_mem _ hy)) fun y hy => hp y (List.mem_cons_of_mem _ hy)

theorem IsList.head_eq (h : L.IsList p head l) : head = l.head? := by
  cases l with
  | nil => exact h
  | cons x l => exact h.1

/-- A list is determined by its first link. -/
theorem IsList.unique {p' : Option ι} {l' : List ι} (h : L.IsList p head l) (h' : L.IsList p' head l') : l = l' := by
  induction l generalizing p p' head l' with
  | nil =>
    cases l' with
    | nil => rfl
    | cons y l' => rw [h] at h'; simp [IsList] at h'
  | cons x l ih =>
    obtain ⟨rfl,-,h3⟩ := h
    cases l' with
    | nil => simp [IsList] at h'
    | cons y l' =>
      obtain ⟨he,-,h3'⟩ := h'
      cases he
      rw [ih h3 h3']

theorem IsList.suffix {p : Option ι} {l₁ l₂ : List ι} (h : L.IsList p head (l₁ ++ l₂)) :
    ∃ p' head', L.IsList p' head' l₂ := by
  induction l₁ generalizing p head with
  | nil => exact ⟨p,head,h⟩
  | cons x l₁ ih => exact ih h.2.2

/-- A null-terminated list never comes back to a cell. -/
theorem IsList.nodup (h : L.IsList p head l) : l.Nodup := by
  induction l generalizing p head with
  | nil => exact List.nodup_nil
  | cons x l ih =>
    obtain ⟨-,-,h3⟩ := h
    refine List.nodup_cons.mpr ⟨fun hx => ?_,ih h3⟩
    obtain ⟨l₁,l₂,rfl⟩ := List.append_of_mem hx
    obtain ⟨p',head',h4⟩ := h3.suffix
    have heq := h3.unique h4.2.2
    have hlen := congrArg List.length heq
    simp only [List.length_append, List.length_cons] at hlen
    omega

theorem IsList.walk_eq (h : L.IsList p head l) {fuel : ℕ} (hf : l.length ≤ fuel) : L.walk fuel head = l := by
  induction l generalizing p head fuel with
  | nil =>
    rw [h]
    cases fuel <;> rfl
  | cons x l ih =>
    obtain ⟨rfl,-,h3⟩ := h
    cases fuel with
    | zero => simp at hf
    | succ fuel => simp only [walk, ih h3 (by simpa using hf)]

theorem IsList.next_eq {l₁ l₂ : List ι} (h : L.IsList p head (l₁ ++ a :: l₂)) : L.next a = l₂.head? := by
  induction l₁ generalizing p head with
  | nil => exact h.2.2.head_eq
  | cons x l₁ ih => exact ih h.2.2

theorem IsList.prev_mem {l₁ l₂ : List ι} (h : L.IsList p head (l₁ ++ a :: l₂)) (hl : l₁ ≠ []) :
    ∃ y ∈ l₁, L.prev a = some y := by
  induction l₁ generalizing p head with
  | nil => exact absurd rfl hl
  | cons x l₁ ih =>
    cases l₁ with
    | nil => exact ⟨x,List.mem_cons_self,h.2.2.2.1⟩
    | cons y l₁ =>
      obtain ⟨z,hz,he⟩ := ih h.2.2 (by simp)
      exact ⟨z,List.mem_cons_of_mem _ hz,he⟩

theorem IsList.prev_eq_none_iff {l₁ l₂ : List ι} (h : L.IsList none head (l₁ ++ a :: l₂)) :
    L.prev a = none ↔ l₁ = [] := by
  constructor
  · intro hp
    by_contra hl
    obtain ⟨y,-,hy⟩ := h.prev_mem hl
    rw [hp] at hy
    simp at hy
  · rintro rfl
    exact h.2.1

end Links

namespace Links
variable {L : Links ι} {p head : Option ι} {a b : ι} {l : List ι}

@[simp] theorem setNext_prev (v : Option ι) : (L.setNext a v).prev = L.prev := rfl
@[simp] theorem setPrev_next (v : Option ι) : (L.setPrev a v).next = L.next := rfl
@[simp] theorem setNextAt_prev (v : Option ι) : (L.setNextAt p v).prev = L.prev := by cases p <;> rfl
@[simp] theorem setPrevAt_next (v : Option ι) : (L.setPrevAt p v).next = L.next := by cases p <;> rfl
@[simp] theorem setNext_next_self (v : Option ι) : (L.setNext a v).next a = v := Function.update_self ..
@[simp] theorem setPrev_prev_self (v : Option ι) : (L.setPrev a v).prev a = v := Function.update_self ..
theorem setNext_next_of_ne (v : Option ι) (h : b ≠ a) : (L.setNext a v).next b = L.next b :=
  Function.update_of_ne h ..
theorem setPrev_prev_of_ne (v : Option ι) (h : b ≠ a) : (L.setPrev a v).prev b = L.prev b :=
  Function.update_of_ne h ..

theorem setNextAt_next_of_ne (v : Option ι) (h : p ≠ some b) : (L.setNextAt p v).next b = L.next b := by
  cases p with
  | none => rfl
  | some x => exact setNext_next_of_ne v fun he => h (he ▸ rfl)

theorem setPrevAt_prev_of_ne (v : Option ι) (h : p ≠ some b) : (L.setPrevAt p v).prev b = L.prev b := by
  cases p with
  | none => rfl
  | some x => exact setPrev_prev_of_ne v fun he => h (he ▸ rfl)

theorem IsList.setNext (h : L.IsList p head l) (ha : a ∉ l) (v : Option ι) : (L.setNext a v).IsList p head l :=
  h.congr (fun _ hx => setNext_next_of_ne v (ne_of_mem_of_not_mem hx ha)) fun _ _ => rfl

theorem IsList.setPrev (h : L.IsList p head l) (ha : a ∉ l) (v : Option ι) : (L.setPrev a v).IsList p head l :=
  h.congr (fun _ _ => rfl) fun _ hx => setPrev_prev_of_ne v (ne_of_mem_of_not_mem hx ha)

theorem IsList.setNextAt {q : Option ι} (h : L.IsList p head l) (hq : ∀ x ∈ l, q ≠ some x) (v : Option ι) :
    (L.setNextAt q v).IsList p head l :=
  h.congr (fun x hx => setNextAt_next_of_ne v (hq x hx)) fun x _ => by rw [setNextAt_prev]

theorem IsList.setPrevAt {q : Option ι} (h : L.IsList p head l) (hq : ∀ x ∈ l, q ≠ some x) (v : Option ι) :
    (L.setPrevAt q v).IsList p head l :=
  h.congr (fun x _ => by rw [setPrevAt_next]) fun x hx => setPrevAt_prev_of_ne v (hq x hx)

/-- Giving the first cell another predecessor. -/
theorem IsList.setPrev_head {q : Option ι} (h : L.IsList p head l) : (L.setPrevAt head q).IsList q head l := by
  have hnd := h.nodup
  cases l with
  | nil => exact h
  | cons x l =>
    obtain ⟨rfl,-,h3⟩ := h
    refine ⟨rfl,setPrev_prev_self q,?_⟩
    exact h3.setPrev (List.nodup_cons.mp hnd).1 q

/-- Taking the first cell off. -/
theorem IsList.pop (h : L.IsList p (some a) (a :: l)) : (L.setPrevAt (L.next a) none).IsList none (L.next a) l :=
  h.2.2.setPrev_head

/-- Putting a new cell in front. -/
theorem IsList.push (h : L.IsList none head l) (ha : a ∉ l) (hp : L.prev a = none) :
    ((L.setNext a head).setPrevAt head (some a)).IsList none (some a) (a :: l) := by
  have hl := (h.setNext ha head).setPrev_head (q := some a)
  have hne : head ≠ some a := by
    intro he
    rw [h.head_eq] at he
    exact ha (List.mem_of_mem_head? he)
  refine ⟨rfl,?_,?_⟩
  · rw [setPrevAt_prev_of_ne _ hne]
    exact hp
  · rwa [setPrevAt_next, setNext_next_self]

def bypass (L : Links ι) (a : ι) : Links ι := (L.setNextAt (L.prev a) (L.next a)).setPrevAt (L.next a) (L.prev a)

theorem IsList.bypass {l₁ l₂ : List ι} (h : L.IsList p head (l₁ ++ a :: l₂)) (hp : ∀ x ∈ l₁ ++ a :: l₂, p ≠ some x) :
    (L.bypass a).IsList p (if l₁ = [] then L.next a else head) (l₁ ++ l₂) := by
  induction l₁ generalizing p head with
  | nil =>
    have hnd := (List.nodup_cons.mp h.nodup).1
    have hprev : L.prev a = p := h.2.1
    have hnext : (L.setNextAt p (L.next a)).IsList (some a) (L.next a) l₂ :=
      h.2.2.setNextAt (fun x hx => hp x (List.mem_cons_of_mem _ hx)) _
    simp only [Links.bypass, hprev, if_true, List.nil_append]
    exact hnext.setPrev_head
  | cons x l₁ ih =>
    have hnd := h.nodup
    obtain ⟨rfl,hx,h3⟩ := h
    simp only [List.cons_append, List.nodup_cons] at hnd
    have hself : ∀ y ∈ l₁ ++ a :: l₂, some x ≠ some y := by
      intro y hy he
      exact hnd.1 (Option.some.inj he ▸ hy)
    have hrest := ih h3 hself
    have hnext : L.next a = l₂.head? := h3.next_eq
    have hne : L.next a ≠ some x := by
      rw [hnext]
      intro he
      have hmem := List.mem_of_mem_head? he
      exact hnd.1 (by simp [hmem])
    simp only [List.cons_append, reduceCtorEq, if_false]
    refine ⟨rfl,?_,?_⟩
    · rw [Links.bypass, setPrevAt_prev_of_ne _ hne, setNextAt_prev]
      exact hx
    · rw [Links.bypass, setPrevAt_next]
      by_cases hl : l₁ = []
      · subst hl
        have hprev : L.prev a = some x := h3.2.1
        simp only [Links.bypass, if_true] at hrest
        rw [hprev]
        rw [hprev] at hrest
        simpa only [Links.setNextAt, setNext_next_self] using hrest
      · obtain ⟨y,hy,hprev⟩ := h3.prev_mem hl
        have hyx : L.prev a ≠ some x := by
          rw [hprev]
          intro he
          exact hnd.1 (Option.some.inj he ▸ List.mem_append_left _ hy)
        rw [setNextAt_next_of_ne _ hyx]
        rw [if_neg hl] at hrest
        exact hrest

/-- Joining the neighbours of a cell changes no list the cell is not on. -/
theorem IsList.bypass_of_disjoint {l₁ l₂ : List ι} {p' head' : Option ι} (h : L.IsList p head l)
    (ha : L.IsList p' head' (l₁ ++ a :: l₂)) (hp : ∀ x ∈ l, p' ≠ some x)
    (hd : ∀ x ∈ l, x ∉ l₁ ++ a :: l₂) : (L.bypass a).IsList p head l := by
  have hnext (x : ι) (hx : x ∈ l) : L.next a ≠ some x := by
    rw [ha.next_eq]
    intro he
    have hmem := List.mem_of_mem_head? he
    exact hd x hx (by simp [hmem])
  have hprev (x : ι) (hx : x ∈ l) : L.prev a ≠ some x := by
    by_cases hl : l₁ = []
    · subst hl
      have hpa : L.prev a = p' := ha.2.1
      rw [hpa]
      exact hp x hx
    · obtain ⟨y,hy,hpa⟩ := ha.prev_mem hl
      rw [hpa]
      intro he
      exact hd x hx (Option.some.inj he ▸ List.mem_append_left _ hy)
  exact (h.setNextAt hprev _).setPrevAt hnext _

/-- Moving the first cell of a list to the front of another one, when the first list goes on at `rest`. -/
theorem IsList.moveFirst {headU : Option ι} {rest : ι} {U F : List ι} (hf : L.IsList none (some a) (a :: F))
    (hu : L.IsList none headU U) (hd : ∀ x ∈ U, x ∉ a :: F) (hnext : L.next a = some rest) :
    (((L.setPrev rest none).setNext a headU).setPrevAt headU (some a)).IsList none (some a) (a :: U) ∧
      (((L.setPrev rest none).setNext a headU).setPrevAt headU (some a)).IsList none (some rest) F := by
  have haU : a ∉ U := fun h => hd a h List.mem_cons_self
  have haF : a ∉ F := (List.nodup_cons.mp hf.nodup).1
  have hrestF : rest ∈ F := by
    have hhead := hf.2.2.head_eq
    rw [hnext] at hhead
    exact List.mem_of_mem_head? hhead.symm
  have hrestU : rest ∉ U := fun h => hd rest h (List.mem_cons_of_mem _ hrestF)
  have hne : a ≠ rest := fun he => haF (he ▸ hrestF)
  have hpop : (L.setPrev rest none).IsList none (some rest) F := by
    have hp := hf.pop
    rwa [hnext] at hp
  have hused : (L.setPrev rest none).IsList none headU U := hu.setPrev hrestU none
  have hprev : (L.setPrev rest none).prev a = none := by
    rw [setPrev_prev_of_ne _ hne]
    exact hf.2.1
  refine ⟨hused.push haU hprev,?_⟩
  apply (hpop.setNext haF _).setPrevAt
  intro x hx he
  rw [hu.head_eq] at he
  exact hd x (List.mem_of_mem_head? he) (List.mem_cons_of_mem _ hx)

/-- Moving a cell of a list to the front of another one. -/
theorem IsList.moveCell {headU headF : Option ι} {U₁ U₂ F : List ι} (hu : L.IsList none headU (U₁ ++ a :: U₂))
    (hf : L.IsList none headF F) (hd : ∀ x ∈ U₁ ++ a :: U₂, x ∉ F) :
    ((((L.bypass a).setNext a headF).setPrev a none).setPrevAt headF (some a)).IsList none
        (if L.prev a = none then L.next a else headU) (U₁ ++ U₂) ∧
      ((((L.bypass a).setNext a headF).setPrev a none).setPrevAt headF (some a)).IsList none (some a) (a :: F) := by
  have haU : a ∉ U₁ ++ U₂ := by
    have hnd := hu.nodup
    rw [List.nodup_middle, List.nodup_cons] at hnd
    exact hnd.1
  have haF : a ∉ F := hd a (by simp)
  have hby := hu.bypass (fun x _ => by simp)
  have hbyF : (L.bypass a).IsList none headF F :=
    hf.bypass_of_disjoint hu (fun x _ => by simp) fun x hx hxu => hd x hxu hx
  have hheadU : ∀ x ∈ U₁ ++ U₂, headF ≠ some x := by
    intro x hx he
    rw [hf.head_eq] at he
    apply hd x _ (List.mem_of_mem_head? he)
    rcases List.mem_append.mp hx with h1 | h1 <;> simp [h1]
  have hused := ((hby.setNext haU headF).setPrev haU none).setPrevAt hheadU (some a)
  have hfreed := (hbyF.setPrev haF none).push haF (setPrev_prev_self none)
  have hhead : (if U₁ = [] then L.next a else headU) = if L.prev a = none then L.next a else headU := by
    simp only [hu.prev_eq_none_iff]
  rw [hhead] at hused
  exact ⟨hused,hfreed⟩

end Links
end AqsiosCoordinator.Foundation
