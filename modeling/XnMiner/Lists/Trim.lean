import Mathlib.Data.List.DropRight

/-! # Trimming a list at both ends -/
namespace ListTrim

variable {α : Type*} {p : α → Bool} {l xs ys : List α}

def trimBy (p : α → Bool) (l : List α) : List α := (l.dropWhile p).rdropWhile p

def Bare (p : α → Bool) (l : List α) : Prop :=
  (∀ c ∈ l.head?, p c = false) ∧ ∀ c ∈ l.getLast?, p c = false

theorem Bare.dropWhile (h : Bare p l) : l.dropWhile p = l := by
  cases l with
  | nil => rfl
  | cons c cs => exact List.dropWhile_cons_of_neg (by simp [h.1 c rfl])

theorem trimBy_of_bare (h : Bare p l) : trimBy p l = l := by
  rw [trimBy, h.dropWhile, List.rdropWhile_eq_self_iff]
  intro hne
  rw [h.2 _ (List.getLast_mem_getLast? hne)]
  exact Bool.false_ne_true

theorem bare_trimBy (p : α → Bool) (l : List α) : Bare p (trimBy p l) := by
  constructor
  · intro c hc
    obtain ⟨rest, hrest⟩ := List.rdropWhile_prefix p (l := l.dropWhile p)
    have hhead : (l.dropWhile p).head? = some c := by
      rw [← hrest]
      exact List.mem_head?_append_of_mem_head? hc
    have hnot := List.head?_dropWhile_not p l
    rw [hhead] at hnot
    exact hnot
  · intro c hc
    have hne : trimBy p l ≠ [] := by
      rintro h
      rw [h] at hc
      cases hc
    have hlast : (trimBy p l).getLast hne = c := by
      rw [List.getLast?_eq_some_getLast hne] at hc
      exact Option.some.inj hc
    have hnot := List.rdropWhile_last_not p (l.dropWhile p) hne
    change ¬ p ((trimBy p l).getLast hne) = true at hnot
    rwa [hlast, Bool.not_eq_true] at hnot

/-- What passes the test is trimmed at the front. -/
theorem trimBy_append_left (xs : List α) (h : ∀ c ∈ xs, p c = true) (ys : List α) :
    trimBy p (xs ++ ys) = trimBy p ys := by
  rw [trimBy, List.dropWhile_append_of_pos h, trimBy]

theorem trimBy_concat {c : α} (h : p c = true) (xs : List α) : trimBy p (xs ++ [c]) = trimBy p xs := by
  rw [trimBy, List.dropWhile_append, trimBy]
  split_ifs with hnil
  · rw [List.isEmpty_iff.mp hnil, List.dropWhile_cons_of_pos h]
    rfl
  · exact List.rdropWhile_concat_pos p _ c h

/-- The first element is kept where it does not pass the test. -/
theorem trimBy_cons {c : α} (h : p c = false) (cs : List α) : ∃ rest, trimBy p (c :: cs) = c :: rest := by
  have hkeep : (c :: cs).dropWhile p = c :: cs := List.dropWhile_cons_of_neg (by simp [h])
  have hstart := List.rdropWhile_prefix p (l := c :: cs)
  rw [trimBy, hkeep]
  cases hr : (c :: cs).rdropWhile p with
  | nil =>
    rw [List.rdropWhile_eq_nil_iff] at hr
    have hc := hr c List.mem_cons_self
    rw [h] at hc
    exact absurd hc Bool.false_ne_true
  | cons d rest =>
    rw [hr, List.cons_prefix_cons] at hstart
    exact ⟨rest, by rw [hstart.1]⟩

/-- Where nothing passes the test there is nothing to trim. -/
theorem trimBy_of_none (h : ∀ c ∈ l, p c = false) : trimBy p l = l :=
  trimBy_of_bare ⟨fun c hc => h c (List.mem_of_mem_head? hc),
    fun c hc => h c (List.mem_of_mem_getLast? hc)⟩

end ListTrim
