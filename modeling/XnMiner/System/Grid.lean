import XnMiner.System.Regions
import Mathlib.Logic.Equiv.Fin.Basic

/-! # Grids of numbered processes

A grid has blocks of processes. The processes are numbered block after block, and each one works
on the item of its number; those behind the last item have nothing to do.
-/
namespace Regions

variable {σ V O : Type*} {blocks size : ℕ}

def number (w : Fin blocks × Fin size) : ℕ := w.1.val * size + w.2.val

theorem number_eq (w : Fin blocks × Fin size) : number w = (finProdFinEquiv w).val := by
  rw [number, finProdFinEquiv_apply_val, Nat.add_comm, Nat.mul_comm]

theorem number_lt (w : Fin blocks × Fin size) : number w < blocks * size :=
  number_eq w ▸ (finProdFinEquiv w).isLt

theorem number_injective {v w : Fin blocks × Fin size} (h : number v = number w) : v = w := by
  rw [number_eq, number_eq] at h
  exact finProdFinEquiv.injective (Fin.ext h)

theorem exists_number {item : ℕ} (h : item < blocks * size) :
    ∃ w : Fin blocks × Fin size, number w = item :=
  ⟨finProdFinEquiv.symm ⟨item, h⟩, by rw [number_eq, Equiv.apply_symm_apply]⟩

/-- As many blocks as it takes, and less than one too many. -/
theorem le_ceil_mul (items : ℕ) (hsize : 0 < size) : items ≤ (items + size - 1) / size * size := by
  have hrest := Nat.mod_lt (items + size - 1) hsize
  have hsum := Nat.div_add_mod' (items + size - 1) size
  omega

def slice (width item : ℕ) : Set ℕ := {a | item * width ≤ a ∧ a < item * width + width}

theorem mem_slice {width item j : ℕ} (hj : j < width) : item * width + j ∈ slice width item :=
  ⟨Nat.le_add_right _ _, Nat.add_lt_add_left hj _⟩

theorem disjoint_slice {width i j : ℕ} (hne : i ≠ j) : Disjoint (slice width i) (slice width j) := by
  rw [Set.disjoint_left]
  rintro a ⟨hi, hi'⟩ ⟨hj, hj'⟩
  -- the slice of the smaller number ends before the other one begins
  rcases Nat.lt_or_gt_of_ne hne with hlt | hlt
  · have hle := Nat.mul_le_mul_right width hlt
    rw [Nat.succ_mul] at hle
    omega
  · have hle := Nat.mul_le_mul_right width hlt
    rw [Nat.succ_mul] at hle
    omega

theorem lt_of_mem_slice {width item items a : ℕ} (hitem : item < items) (ha : a ∈ slice width item) :
    a < items * width := by
  have hle := Nat.mul_le_mul_right width (Nat.succ_le_of_lt hitem)
  rw [Nat.succ_mul] at hle
  exact lt_of_lt_of_le ha.2 hle

def grid (blocks size items : ℕ) (exec : O → σ → (ℕ → V) → σ × (ℕ → V)) (program : ℕ → List O)
    (start : ℕ → σ) : Programs (Fin blocks × Fin size) σ ℕ V O where
  exec := exec
  program w := if items ≤ number w then [] else program (number w)
  start w := start (number w)

section Grid
variable {items width : ℕ} {exec : O → σ → (ℕ → V) → σ × (ℕ → V)} {program : ℕ → List O}
  {start : ℕ → σ} {memory memory' : ℕ → V}

/-- Each process keeps to the slice of its item. -/
def KeepsToSlices (width items : ℕ) (exec : O → σ → (ℕ → V) → σ × (ℕ → V))
    (program : ℕ → List O) (start : ℕ → σ) (memory : ℕ → V) : Prop :=
  ∀ item < items, ∀ ops op rest, program item = ops ++ op :: rest →
    let s := ops.foldl (fun s op => exec op s.1 s.2) (start item, memory)
    KeepsTo exec (slice width item) op s.1 s.2

/-- Where the grid covers the items, each slice ends as its item's program leaves it, and the
memory behind the slices has not changed. -/
theorem grid_ends (hcovers : items ≤ blocks * size)
    (hkeeps : KeepsToSlices width items exec program start memory)
    (hend : (grid blocks size items exec program start).Ends memory memory') :
    (∀ item < items, ∀ a ∈ slice width item,
      memory' a = ((program item).foldl (fun s op => exec op s.1 s.2) (start item, memory)).2 a) ∧
    ∀ a, items * width ≤ a → memory' a = memory a := by
  obtain ⟨region, hregion⟩ : ∃ region : Fin blocks × Fin size → Set ℕ,
      ∀ w, region w = if items ≤ number w then ∅ else slice width (number w) := ⟨_, fun _ => rfl⟩
  have hdisjoint : ∀ v w, v ≠ w → Disjoint (region v) (region w) := by
    intro v w hne
    rw [hregion v, hregion w]
    split
    next => exact Set.empty_disjoint _
    next =>
      split
      next => exact Set.disjoint_empty _
      next => exact disjoint_slice fun heq => hne (number_injective heq)
  have hconfined : Confined (grid blocks size items exec program start) memory region := by
    intro w ops op rest hprogram
    simp only [grid] at hprogram
    rw [hregion w]
    split at hprogram
    next => exact absurd hprogram (by simp)
    next hin =>
      rw [if_neg hin]
      exact hkeeps _ (Nat.lt_of_not_le hin) ops op rest hprogram
  constructor
  · intro item hitem a ha
    obtain ⟨w, hw⟩ := exists_number (lt_of_lt_of_le hitem hcovers)
    have hin : ¬items ≤ number w := by omega
    have hmem : a ∈ region w := by
      rw [hregion w, if_neg hin, hw]
      exact ha
    rw [ends_eq_alone hdisjoint hconfined hend w a hmem]
    simp only [Programs.alone, grid, hw, if_neg (Nat.not_le.mpr hitem)]
  · intro a ha
    obtain ⟨s, hreach, -, rfl⟩ := hend
    refine (asAlone_of_reachable hdisjoint hconfined hreach).2 a fun w hmem => ?_
    rw [hregion w] at hmem
    split at hmem
    next => exact hmem
    next hin => exact absurd (lt_of_mem_slice (Nat.lt_of_not_le hin) hmem) (Nat.not_lt.mpr ha)

end Grid

end Regions
