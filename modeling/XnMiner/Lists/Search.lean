import Mathlib.Data.List.Infix

/-! # Searching a list for a match

A match is a test of the suffixes. A test that never looks past a separator finds in a
separated text what it finds in the parts.
-/
namespace ListSearch

variable {α : Type*} {here : List α → Bool} {sep : α} {xs ys : List α}

def search (here : List α → Bool) (s : List α) : Bool :=
  match s with
  | [] => here []
  | c :: cs => here (c :: cs) || search here cs

/-- A match ends before the separator. -/
def StopsAt (here : List α → Bool) (sep : α) : Prop :=
  ∀ xs ys, here (xs ++ sep :: ys) = here xs

theorem search_separated (hstops : StopsAt here sep) (hnil : here [] = false) (xs ys : List α) :
    search here (xs ++ sep :: ys) = (search here xs || search here ys) := by
  induction xs with
  | nil =>
    have hsep : here (sep :: ys) = false := (hstops [] ys).trans hnil
    simp only [List.nil_append, search, hsep, hnil, Bool.false_or]
  | cons c cs ih =>
    rw [List.cons_append, search, search, ih, ← List.cons_append, hstops, Bool.or_assoc]

/-- Nothing is found where no element can start a match. -/
theorem search_eq_false (hnil : here [] = false)
    (hstart : ∀ c ∈ xs, ∀ cs, here (c :: cs) = false) : search here xs = false := by
  induction xs with
  | nil => exact hnil
  | cons c cs ih =>
    rw [List.forall_mem_cons] at hstart
    rw [search, hstart.1, ih hstart.2]
    rfl

/-- A word without the separator is no match across it. -/
theorem stopsAt_isPrefixOf [BEq α] [LawfulBEq α] {word : List α} (hword : sep ∉ word) :
    StopsAt word.isPrefixOf sep := by
  intro xs ys
  induction xs generalizing word with
  | nil =>
    cases word with
    | nil => rfl
    | cons w word =>
      have hne : (w == sep) = false := by
        rw [beq_eq_false_iff_ne]
        exact fun h => hword (h ▸ List.mem_cons_self)
      simp [List.isPrefixOf, hne]
  | cons x xs ih =>
    cases word with
    | nil => rfl
    | cons w word =>
      rw [List.cons_append, List.isPrefixOf, List.isPrefixOf,
        ih fun h => hword (List.mem_cons_of_mem w h)]

end ListSearch
