import Mathlib.Data.List.Sort
import Mathlib.Data.List.Count

/-! # Summaries of a list in one pass

A running maximum keeps the first of the greatest elements; a tally counts each element,
sorted. The tally does not depend on the order of the list, the maximum on ties only.
-/
namespace ListSummary

section Maximum
variable {α ι : Type*} [LinearOrder ι] (key : α → ι)

/-- The new element replaces the old one only if it is greater. -/
def keepMax (a x : α) : α := if key a < key x then x else a

/-- The pass ends with the first of the greatest elements, if one exceeds the start. -/
theorem foldl_keepMax (a : α) (l : List α) :
    (l.foldl (keepMax key) a = a ∧ ∀ x ∈ l, key x ≤ key a) ∨
      ∃ l₁ l₂, l = l₁ ++ l.foldl (keepMax key) a :: l₂ ∧
        key a < key (l.foldl (keepMax key) a) ∧
        (∀ x ∈ l₁, key x < key (l.foldl (keepMax key) a)) ∧
        ∀ x ∈ l₂, key x ≤ key (l.foldl (keepMax key) a) := by
  induction l generalizing a with
  | nil => exact .inl ⟨rfl, fun _ hx => absurd hx List.not_mem_nil⟩
  | cons x l ih =>
    rw [List.foldl_cons]
    by_cases hlt : key a < key x
    · rw [keepMax, if_pos hlt]
      rcases ih x with ⟨heq, hle⟩ | ⟨l₁, l₂, hl, hgt, hfirst, hlast⟩
      · rw [heq]
        exact .inr ⟨[], l, rfl, hlt, fun _ hy => absurd hy List.not_mem_nil, hle⟩
      · refine .inr ⟨x :: l₁, l₂, congrArg (x :: ·) hl, hlt.trans hgt, ?_, hlast⟩
        exact List.forall_mem_cons.mpr ⟨hgt, hfirst⟩
    · rw [keepMax, if_neg hlt]
      rcases ih a with ⟨heq, hle⟩ | ⟨l₁, l₂, hl, hgt, hfirst, hlast⟩
      · exact .inl ⟨heq, List.forall_mem_cons.mpr ⟨not_lt.mp hlt, hle⟩⟩
      · refine .inr ⟨x :: l₁, l₂, congrArg (x :: ·) hl, hgt, ?_, hlast⟩
        exact List.forall_mem_cons.mpr ⟨(not_lt.mp hlt).trans_lt hgt, hfirst⟩

variable {key} {a : α} {l l' : List α}

theorem foldl_keepMax_mem (key : α → ι) (a : α) (l : List α) :
    l.foldl (keepMax key) a = a ∨ l.foldl (keepMax key) a ∈ l := by
  rcases foldl_keepMax key a l with ⟨heq, -⟩ | ⟨l₁, l₂, hl, -⟩
  · exact .inl heq
  · refine .inr ?_
    generalize l.foldl (keepMax key) a = r at hl
    rw [hl]
    exact List.mem_append_right _ List.mem_cons_self

theorem foldl_keepMax_of_le (h : ∀ x ∈ l, key x ≤ key a) : l.foldl (keepMax key) a = a := by
  induction l with
  | nil => rfl
  | cons x l ih =>
    rw [List.forall_mem_cons] at h
    rw [List.foldl_cons, keepMax, if_neg (not_lt.mpr h.1)]
    exact ih h.2

theorem le_foldl_keepMax (key : α → ι) (a : α) (l : List α) :
    key a ≤ key (l.foldl (keepMax key) a) ∧
      ∀ x ∈ l, key x ≤ key (l.foldl (keepMax key) a) := by
  rcases foldl_keepMax key a l with ⟨heq, hle⟩ | ⟨l₁, l₂, hl, hgt, hfirst, hlast⟩
  · rw [heq]
    exact ⟨le_refl _, hle⟩
  · refine ⟨hgt.le, ?_⟩
    generalize l.foldl (keepMax key) a = r at hl hfirst hlast
    intro x hx
    rw [hl, List.mem_append, List.mem_cons] at hx
    rcases hx with hx | rfl | hx
    · exact (hfirst x hx).le
    · exact le_refl _
    · exact hlast x hx

end Maximum

section Tally
variable {κ : Type*} [LinearOrder κ]

/-- One more of `m`, in a list of keys in ascending order with their counts. -/
def bump (t : List (κ × ℕ)) (m : κ) : List (κ × ℕ) :=
  match t with
  | [] => [(m, 1)]
  | (k, n) :: t =>
    if m < k then (m, 1) :: (k, n) :: t
    else if m = k then (k, n + 1) :: t
    else (k, n) :: bump t m

def tally (l : List κ) : List (κ × ℕ) := l.foldl bump []

def countIn (t : List (κ × ℕ)) (x : κ) : ℕ :=
  match t with
  | [] => 0
  | (k, n) :: t => (if k = x then n else 0) + countIn t x

structure Sorted (t : List (κ × ℕ)) : Prop where
  keys : t.Pairwise fun p q => p.1 < q.1
  pos : ∀ p ∈ t, 0 < p.2

variable {t : List (κ × ℕ)} {m x : κ} {n : ℕ} {l l' : List κ}

theorem Sorted.tail {p : κ × ℕ} (h : Sorted (p :: t)) : Sorted t :=
  ⟨(List.pairwise_cons.mp h.keys).2, fun q hq => h.pos q (List.mem_cons_of_mem _ hq)⟩

theorem countIn_bump (t : List (κ × ℕ)) (m x : κ) :
    countIn (bump t m) x = countIn t x + if m = x then 1 else 0 := by
  induction t with
  | nil => simp [bump, countIn]
  | cons p t ih =>
    obtain ⟨k, n⟩ := p
    unfold bump
    split_ifs with hlt heq <;> simp only [countIn, ih] <;> grind

theorem key_of_mem_bump {p : κ × ℕ} (hp : p ∈ bump t m) : p.1 = m ∨ ∃ q ∈ t, q.1 = p.1 := by
  induction t with
  | nil =>
    rw [List.mem_singleton.mp hp]
    exact .inl rfl
  | cons q t ih =>
    obtain ⟨k, n⟩ := q
    unfold bump at hp
    split_ifs at hp with hlt heq
    · rcases List.mem_cons.mp hp with rfl | hp
      · exact .inl rfl
      · exact .inr ⟨p, hp, rfl⟩
    · rcases List.mem_cons.mp hp with rfl | hp
      · exact .inl heq.symm
      · exact .inr ⟨p, List.mem_cons_of_mem _ hp, rfl⟩
    · rcases List.mem_cons.mp hp with rfl | hp
      · exact .inr ⟨_, List.mem_cons_self, rfl⟩
      · exact (ih hp).imp_right fun ⟨q, hq, hkey⟩ => ⟨q, List.mem_cons_of_mem _ hq, hkey⟩

theorem Sorted.bump (h : Sorted t) (m : κ) : Sorted (bump t m) := by
  induction t with
  | nil => exact ⟨List.pairwise_singleton .., by simp [ListSummary.bump]⟩
  | cons p t ih =>
    obtain ⟨k, n⟩ := p
    obtain ⟨hhead, -⟩ := List.pairwise_cons.mp h.keys
    unfold ListSummary.bump
    split_ifs with hlt heq
    · refine ⟨List.pairwise_cons.mpr ⟨?_, h.keys⟩, List.forall_mem_cons.mpr ⟨Nat.one_pos, h.pos⟩⟩
      exact List.forall_mem_cons.mpr ⟨hlt, fun q hq => hlt.trans (hhead q hq)⟩
    · exact ⟨List.pairwise_cons.mpr ⟨hhead, h.tail.keys⟩,
        List.forall_mem_cons.mpr ⟨Nat.succ_pos n, h.tail.pos⟩⟩
    · have htail := ih h.tail
      refine ⟨List.pairwise_cons.mpr ⟨?_, htail.keys⟩,
        List.forall_mem_cons.mpr ⟨h.pos _ List.mem_cons_self, htail.pos⟩⟩
      intro q hq
      rcases key_of_mem_bump hq with hkey | ⟨r, hr, hkey⟩
      · exact lt_of_le_of_ne (hkey ▸ not_lt.mp hlt) fun hk => heq (hkey.symm.trans hk.symm)
      · exact hkey ▸ hhead r hr

theorem countIn_eq_zero (h : ∀ p ∈ t, p.1 ≠ x) : countIn t x = 0 := by
  induction t with
  | nil => rfl
  | cons p t ih =>
    obtain ⟨hp, ht⟩ := List.forall_mem_cons.mp h
    rw [countIn, if_neg hp, ih ht]

/-- Where the keys are sorted, a key stands at one place, with its count. -/
theorem Sorted.mem_iff (h : Sorted t) : (x, n) ∈ t ↔ 0 < n ∧ countIn t x = n := by
  induction t with
  | nil =>
    simp only [List.not_mem_nil, countIn, false_iff, not_and]
    omega
  | cons p t ih =>
    obtain ⟨k, c⟩ := p
    have hc : 0 < c := h.pos _ List.mem_cons_self
    obtain ⟨hhead, -⟩ := List.pairwise_cons.mp h.keys
    rw [List.mem_cons, ih h.tail, countIn, Prod.mk.injEq]
    by_cases hk : k = x
    · subst hk
      rw [countIn_eq_zero fun q hq => (hhead q hq).ne']
      simp only [if_true, true_and]
      omega
    · simp only [Ne.symm hk, hk, if_false, false_and, false_or, Nat.zero_add]

theorem sorted_tally (l : List κ) : Sorted (tally l) := by
  have hrun : ∀ t, Sorted t → Sorted (l.foldl ListSummary.bump t) := by
    induction l with
    | nil => exact fun _ h => h
    | cons m l ih => exact fun t h => ih _ (h.bump m)
  exact hrun [] ⟨List.Pairwise.nil, fun _ h => absurd h List.not_mem_nil⟩

theorem countIn_tally (l : List κ) (x : κ) : countIn (tally l) x = l.count x := by
  have hrun : ∀ t, countIn (l.foldl ListSummary.bump t) x = countIn t x + l.count x := by
    induction l with
    | nil => exact fun _ => rfl
    | cons m l ih =>
      intro t
      rw [List.foldl_cons, ih, countIn_bump, List.count_cons, Nat.add_assoc, Nat.add_comm (List.count x l)]
      simp only [beq_iff_eq]
  exact (hrun []).trans (Nat.zero_add _)

theorem mem_tally : (x, n) ∈ tally l ↔ 0 < n ∧ l.count x = n := by
  rw [(sorted_tally l).mem_iff, countIn_tally]

theorem tally_perm (hp : l.Perm l') : tally l = tally l' := by
  have hnodup : ∀ k : List κ, (tally k).Nodup := fun k =>
    (sorted_tally k).keys.imp fun h heq => h.ne (congrArg Prod.fst heq)
  refine List.Perm.eq_of_pairwise (fun _ _ _ _ hxy hyx => absurd hxy hyx.asymm)
    (sorted_tally l).keys (sorted_tally l').keys ?_
  refine (List.perm_ext_iff_of_nodup (hnodup l) (hnodup l')).mpr ?_
  rintro ⟨x, n⟩
  rw [mem_tally, mem_tally, hp.count_eq]

/-- Two elements differ exactly if there are two keys. -/
theorem one_lt_length_tally : 1 < (tally l).length ↔ ∃ x ∈ l, ∃ y ∈ l, x ≠ y := by
  have hkey : ∀ x, x ∈ l ↔ (x, l.count x) ∈ tally l := by
    intro x
    rw [mem_tally, List.count_pos_iff]
    exact (and_iff_left rfl).symm
  have hsorted := sorted_tally l
  constructor
  · intro hlen
    obtain ⟨⟨x, m⟩, ⟨y, n⟩, t, ht⟩ : ∃ p q t, tally l = p :: q :: t := by
      match tally l, hlen with
      | p :: q :: t, _ => exact ⟨p, q, t, rfl⟩
    have hx : (x, m) ∈ tally l := by simp [ht]
    have hy : (y, n) ∈ tally l := by simp [ht]
    have hlt : x < y := by
      have hkeys := hsorted.keys
      rw [ht] at hkeys
      exact (List.pairwise_cons.mp hkeys).1 _ List.mem_cons_self
    rw [mem_tally] at hx hy
    exact ⟨x, List.count_pos_iff.mp (by omega), y, List.count_pos_iff.mp (by omega), hlt.ne⟩
  · rintro ⟨x, hx, y, hy, hne⟩
    rw [hkey] at hx hy
    by_contra hlen
    match ht : tally l, hlen with
    | [], _ => simp [ht] at hx
    | [p], _ =>
      rw [ht, List.mem_singleton] at hx hy
      exact hne (congrArg Prod.fst (hx.trans hy.symm))
    | _ :: _ :: _, hlen => simp at hlen

/-- The first key with the greatest count is the least of the most frequent elements. -/
theorem mode_tally (z : κ) (hne : l ≠ []) :
    ∃ mode, ((tally l).foldl (keepMax Prod.snd) (z, 0)).1 = mode ∧ mode ∈ l ∧
      (∀ x, l.count x ≤ l.count mode) ∧ ∀ x, l.count x = l.count mode → mode ≤ x := by
  have hkey : ∀ x ∈ l, (x, l.count x) ∈ tally l := fun x hx =>
    mem_tally.mpr ⟨List.count_pos_iff.mpr hx, rfl⟩
  rcases foldl_keepMax Prod.snd (z, 0) (tally l) with ⟨-, hle⟩ | ⟨t₁, t₂, ht, hpos, hfirst, hlast⟩
  · obtain ⟨x, hx⟩ := List.exists_mem_of_ne_nil l hne
    exact absurd (hle _ (hkey x hx)) (Nat.not_le.mpr (List.count_pos_iff.mpr hx))
  · generalize (tally l).foldl (keepMax Prod.snd) (z, 0) = r at ht hpos hfirst hlast
    obtain ⟨mode, n⟩ := r
    have hmode : l.count mode = n := (mem_tally.mp (ht ▸ by simp)).2
    have hcases : ∀ x ∈ l, (x, l.count x) ∈ t₁ ∨ x = mode ∨ (x, l.count x) ∈ t₂ := by
      intro x hx
      have hmem := hkey x hx
      rw [ht, List.mem_append, List.mem_cons, Prod.mk.injEq] at hmem
      exact hmem.imp_right (Or.imp_left And.left)
    refine ⟨mode, rfl, List.count_pos_iff.mp (hmode ▸ hpos), ?_, ?_⟩
    · intro x
      by_cases hx : x ∈ l
      · rcases hcases x hx with h | rfl | h
        · exact hmode ▸ (hfirst _ h).le
        · exact le_refl _
        · exact hmode ▸ hlast _ h
      · rw [List.count_eq_zero_of_not_mem hx]
        exact Nat.zero_le _
    · intro x hcount
      have hx : x ∈ l := List.count_pos_iff.mp (by rw [hcount, hmode]; exact hpos)
      rcases hcases x hx with h | rfl | h
      · exact absurd (hfirst _ h) (by simp [hcount, hmode])
      · exact le_refl _
      · have hkeys := (sorted_tally l).keys
        rw [ht] at hkeys
        exact ((List.pairwise_cons.mp (List.pairwise_append.mp hkeys).2.1).1 _ h).le

end Tally

end ListSummary
