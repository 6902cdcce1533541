import Mathlib

/-!
# Lines of a text

What the calls of `getline` return, one after the other: each line with its end
of line, which only the last may lack.
-/

namespace Csapp

section

variable {α : Type} {nl : α}

/-- A line ends at its only end of line, or at the end of the text. -/
def IsLine (nl : α) (l : List α) : Prop :=
  ∃ body, nl ∉ body ∧ (l = body ++ [nl] ∨ l = body ∧ body ≠ [])

theorem IsLine.ne_nil {l : List α} (h : IsLine nl l) : l ≠ [] := by
  obtain ⟨body, -, rfl | ⟨rfl, hne⟩⟩ := h
  · exact List.append_ne_nil_of_right_ne_nil _ (List.cons_ne_nil _ _)
  · exact hne

theorem IsLine.cons {c : α} {l : List α} (hc : c ≠ nl) (h : IsLine nl l) : IsLine nl (c :: l) := by
  obtain ⟨body, hb, hl⟩ := h
  have hb' : nl ∉ c :: body := fun hm => (List.mem_cons.mp hm).elim (fun he => hc he.symm) hb
  rcases hl with rfl | ⟨rfl, -⟩
  · exact ⟨c :: body, hb', .inl rfl⟩
  · exact ⟨c :: l, hb', .inr ⟨rfl, List.cons_ne_nil _ _⟩⟩

end

section

variable {α : Type} [DecidableEq α] {nl : α}

/-- The lines of a file, each with the newline that ends it. -/
def getlines (nl : α) : List α → List (List α)
  | [] => []
  | c :: cs =>
    if c = nl then [c] :: getlines nl cs
    else
      match getlines nl cs with
      | [] => [[c]]
      | l :: ls => (c :: l) :: ls

theorem isLine_of_mem {s l : List α} (h : l ∈ getlines nl s) : IsLine nl l := by
  fun_induction getlines nl s generalizing l with
  | case1 => cases h
  | case2 cs ih =>
    cases h with
    | head => exact ⟨[], by simp, .inl rfl⟩
    | tail _ h => exact ih h
  | case3 c cs hc hn ih =>
    cases h with
    | head => exact ⟨[c], by simpa using Ne.symm hc, .inr ⟨rfl, List.cons_ne_nil _ _⟩⟩
    | tail _ h => cases h
  | case4 c cs hc l' ls hl ih =>
    rw [hl] at ih
    cases h with
    | head => exact (ih List.mem_cons_self).cons hc
    | tail _ h => exact ih (List.mem_cons_of_mem _ h)

/-- A whole line in front comes first. -/
theorem getlines_cons {body rest : List α} (h : nl ∉ body) :
    getlines nl (body ++ nl :: rest) = (body ++ [nl]) :: getlines nl rest := by
  induction body with
  | nil => rw [List.nil_append, getlines, if_pos rfl]; rfl
  | cons c body ih =>
    have hc : c ≠ nl := fun he => h (he ▸ List.mem_cons_self)
    rw [List.cons_append, getlines, if_neg hc, ih fun hm => h (List.mem_cons_of_mem _ hm)]
    rfl

/-- A text without an end of line is its only line. -/
theorem getlines_last {body : List α} (h : nl ∉ body) (hne : body ≠ []) :
    getlines nl body = [body] := by
  induction body with
  | nil => exact absurd rfl hne
  | cons c body ih =>
    have hc : c ≠ nl := fun he => h (he ▸ List.mem_cons_self)
    rw [getlines, if_neg hc]
    by_cases hb : body = []
    · rw [hb]
      rfl
    · rw [ih (fun hm => h (List.mem_cons_of_mem _ hm)) hb]

end

end Csapp
