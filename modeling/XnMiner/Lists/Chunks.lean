import Mathlib.Data.List.Range
import Mathlib.Data.Nat.Notation
import Mathlib.Order.Basic

/-! # Numbers cut into chunks

Workers share the numbers below `n`: each has a chunk of the same size, but for the last chunks,
which are shorter or empty.
-/
namespace Chunks

def chunkSize (n workers : ℕ) : ℕ := (n + workers - 1) / workers

def chunkEnd (n workers start : ℕ) : ℕ := min n (start + chunkSize n workers)

def chunk (n workers t : ℕ) : List ℕ :=
  let start := t * chunkSize n workers
  List.range' start (chunkEnd n workers start - start)

variable {n workers : ℕ}

theorem le_mul_chunkSize (hpos : 0 < workers) : n ≤ workers * chunkSize n workers := by
  have hrest := Nat.mod_lt (n + workers - 1) hpos
  have hsum := Nat.div_add_mod (n + workers - 1) workers
  simp only [chunkSize]
  omega

theorem flatMap_chunk (t : ℕ) :
    (List.range t).flatMap (chunk n workers) = List.range (min n (t * chunkSize n workers)) := by
  induction t with
  | zero => simp
  | succ t ih =>
    rw [List.range_succ, List.flatMap_append, ih, List.flatMap_singleton, chunk, chunkEnd,
      Nat.succ_mul]
    rcases Nat.le_total n (t * chunkSize n workers) with hle | hle
    · rw [Nat.min_eq_left hle, Nat.min_eq_left (by omega), Nat.sub_eq_zero_of_le hle,
        List.range'_zero, List.append_nil]
    · rw [Nat.min_eq_right hle, List.range_eq_range', List.range_eq_range']
      have hjoin := @List.range'_append_1 0 (t * chunkSize n workers)
        (min n (t * chunkSize n workers + chunkSize n workers) - t * chunkSize n workers)
      rw [Nat.zero_add] at hjoin
      rw [hjoin]
      congr 1
      omega

/-- All chunks together are the numbers below `n`, each once and in order. -/
theorem flatMap_chunks (hpos : 0 < workers) :
    (List.range workers).flatMap (chunk n workers) = List.range n := by
  rw [flatMap_chunk, Nat.min_eq_left (le_mul_chunkSize hpos)]

theorem exists_chunk (hpos : 0 < workers) {i : ℕ} (hi : i < n) :
    ∃ t < workers, i ∈ chunk n workers t := by
  have hmem : i ∈ (List.range workers).flatMap (chunk n workers) := by
    rw [flatMap_chunks hpos]
    exact List.mem_range.mpr hi
  obtain ⟨t, ht, hchunk⟩ := List.mem_flatMap.mp hmem
  exact ⟨t, List.mem_range.mp ht, hchunk⟩

end Chunks
