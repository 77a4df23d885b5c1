import Mathlib.Data.List.Basic

/-! # Words ended by a sentinel

A stream of words that do not hold the sentinel is cut into these words in one
way only.
-/
namespace AqsiosCoordinator.Foundation.Framing
variable {α : Type} {sentinel : α}

def frame (sentinel : α) (words : List (List α)) : List α := words.flatMap (fun w => w ++ [sentinel])

theorem word_inj {w w' r r' : List α} (hw : sentinel ∉ w) (hw' : sentinel ∉ w')
    (h : w ++ sentinel :: r = w' ++ sentinel :: r') : w = w' ∧ r = r' := by
  induction w generalizing w' with
  | nil =>
    cases w' with
    | nil => simpa using h
    | cons b w' =>
      simp only [List.nil_append, List.cons_append, List.cons.injEq] at h
      exact absurd (h.1 ▸ List.mem_cons_self) hw'
  | cons a w ih =>
    cases w' with
    | nil =>
      simp only [List.nil_append, List.cons_append, List.cons.injEq] at h
      exact absurd (h.1 ▸ List.mem_cons_self) hw
    | cons b w' =>
      simp only [List.cons_append, List.cons.injEq] at h
      have ht := ih (fun hm => hw (List.mem_cons_of_mem _ hm)) (fun hm => hw' (List.mem_cons_of_mem _ hm)) h.2
      exact ⟨by rw [h.1,ht.1],ht.2⟩

theorem frame_inj {words words' : List (List α)} (hw : ∀ w ∈ words, sentinel ∉ w)
    (hw' : ∀ w ∈ words', sentinel ∉ w) (h : frame sentinel words = frame sentinel words') : words = words' := by
  induction words generalizing words' with
  | nil =>
    cases words' with
    | nil => rfl
    | cons b words' => simp [frame] at h
  | cons a words ih =>
    cases words' with
    | nil => simp [frame] at h
    | cons b words' =>
      simp only [frame, List.flatMap_cons, List.append_assoc, List.singleton_append] at h
      obtain ⟨rfl,ht⟩ := word_inj (hw a List.mem_cons_self) (hw' b List.mem_cons_self) h
      rw [ih (fun w hm => hw w (List.mem_cons_of_mem _ hm)) (fun w hm => hw' w (List.mem_cons_of_mem _ hm)) ht]

end AqsiosCoordinator.Foundation.Framing
