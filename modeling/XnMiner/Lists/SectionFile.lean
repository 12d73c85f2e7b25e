import Mathlib.Data.List.Basic

/-! # Files of sections

A file is read item by item: a header opens a section, an entry gives a key of the open section
its value, and the last entry of a key counts. An editor that passes over the file once may
replace the entries of one key, or add one where a section ends, and moves no other value.
-/
namespace SectionFile

inductive Item (σ κ ν : Type*) where
  | header (name : σ)
  | entry (key : κ) (val : ν)
  | other

structure Loaded (σ κ ν : Type*) where
  cur : σ
  vals : σ → κ → Option ν

variable {σ κ ν : Type*} [DecidableEq σ] [DecidableEq κ]

def Loaded.take (st : Loaded σ κ ν) (item : Item σ κ ν) : Loaded σ κ ν :=
  match item with
  | .header name => { st with cur := name }
  | .entry key val =>
    { st with vals := fun s k => if s = st.cur ∧ k = key then some val else st.vals s k }
  | .other => st

def load (init : Loaded σ κ ν) (items : List (Item σ κ ν)) : Loaded σ κ ν :=
  items.foldl Loaded.take init

theorem load_append (init : Loaded σ κ ν) (xs ys : List (Item σ κ ν)) :
    load init (xs ++ ys) = load (load init xs) ys := List.foldl_append

/-- How far an editor has come with key `k` of section `s`: whether it is inside that section,
has written the entry, and has seen the section at all. -/
structure Progress where
  inside : Bool := false
  wrote : Bool := false
  found : Bool := false

/-- The edited file up to here reads as the file up to here, but for the edited key; once the
entry is written the key has its value, and a section that is left has it written. -/
structure Edits (s : σ) (k : κ) (v : ν) (file edited : Loaded σ κ ν) (p : Progress) : Prop where
  cur : edited.cur = file.cur
  frame : ∀ s' k', ¬ (s' = s ∧ k' = k) → edited.vals s' k' = file.vals s' k'
  inside : p.inside = true → file.cur = s ∧ p.found = true
  wrote : p.wrote = true → p.found = true ∧ edited.vals s k = some v
  found : p.found = true → p.inside = true ∨ p.wrote = true
  outside : file.cur = s → p.inside = true ∨ p.found = false

variable {s : σ} {k : κ} {v : ν} {file edited : Loaded σ κ ν} {p : Progress}

omit [DecidableEq σ] [DecidableEq κ] in
theorem edits_start (s : σ) (k : κ) (v : ν) (init : Loaded σ κ ν) : Edits s k v init init {} :=
  ⟨rfl, fun _ _ _ => rfl, nofun, nofun, nofun, fun _ => .inr rfl⟩

theorem Edits.other (h : Edits s k v file edited p) :
    Edits s k v (file.take .other) (edited.take .other) p := h

/-- Inside its section the file's own entry of the key is left out. -/
theorem Edits.leaveOut (h : Edits s k v file edited p) (hin : p.inside = true) (old : ν) :
    Edits s k v (file.take (.entry k old)) edited p := by
  refine ⟨h.cur, ?_, h.inside, h.wrote, h.found, h.outside⟩
  intro s' k' hne
  have hcur : file.cur = s := (h.inside hin).1
  exact (h.frame s' k' hne).trans (if_neg (by rwa [hcur])).symm

theorem Edits.write (h : Edits s k v file edited p) (hin : p.inside = true) :
    Edits s k v file (edited.take (.entry k v)) { p with wrote := true } := by
  obtain ⟨hcur, hfound⟩ := h.inside hin
  have hecur : edited.cur = s := h.cur.trans hcur
  refine ⟨h.cur, ?_, h.inside, fun _ => ⟨hfound, if_pos ⟨hecur.symm, rfl⟩⟩, fun _ => .inr rfl,
    h.outside⟩
  intro s' k' hne
  exact (if_neg (by rwa [hecur])).trans (h.frame s' k' hne)

/-- An entry that is not the edited one is kept. -/
theorem Edits.keep (h : Edits s k v file edited p) {key : κ} (val : ν)
    (hkey : p.inside = true → key ≠ k) :
    Edits s k v (file.take (.entry key val)) (edited.take (.entry key val)) p := by
  refine ⟨h.cur, ?_, h.inside, ?_, h.found, h.outside⟩
  · intro s' k' hne
    simp only [Loaded.take, h.cur, h.frame s' k' hne]
  · intro hw
    obtain ⟨hfound, hval⟩ := h.wrote hw
    refine ⟨hfound, ?_⟩
    -- the open section is another one, or the editor is inside and the key another one
    have hne : ¬ (s = edited.cur ∧ k = key) := by
      rintro ⟨hs, rfl⟩
      rcases h.outside (h.cur ▸ hs.symm) with hin | hout
      · exact hkey hin rfl
      · rw [hfound] at hout
        exact Bool.noConfusion hout
    exact (if_neg hne).trans hval

/-- A header is kept; a section of the edited name is left with the entry written. -/
theorem Edits.header (h : Edits s k v file edited p) (hleft : p.inside = true → p.wrote = true)
    (name : σ) :
    Edits s k v (file.take (.header name)) (edited.take (.header name))
      { p with inside := decide (name = s), found := p.found || decide (name = s) } := by
  refine ⟨rfl, h.frame, ?_, ?_, ?_, ?_⟩
  · intro hin
    exact ⟨of_decide_eq_true hin, Bool.or_eq_true_iff.mpr (.inr hin)⟩
  · intro hw
    obtain ⟨hfound, hval⟩ := h.wrote hw
    exact ⟨Bool.or_eq_true_iff.mpr (.inl hfound), hval⟩
  · intro hfound
    rcases Bool.or_eq_true_iff.mp hfound with hfound | hname
    · exact .inr ((h.found hfound).elim hleft id)
    · exact .inl hname
  · intro hname
    exact .inl (decide_eq_true hname)

end SectionFile
