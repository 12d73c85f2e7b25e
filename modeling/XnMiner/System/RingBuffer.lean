import Mathlib.Data.List.Range
import Mathlib.Logic.Function.Basic

/-! # Bounded rings with two counters

One party writes the slot of its counter and then counts, the other reads the slot of its
own counter and then counts. Counters are unbounded; a slot is a counter modulo the
capacity. Only what lies between the counters is meaningful.
-/
namespace RingBuffers

structure RingBuffer (α : Type*) where
  slots : ℕ → α
  produced : ℕ := 0
  consumed : ℕ := 0

variable {α : Type*} {n : ℕ} {r : RingBuffer α}

def RingBuffer.write (n : ℕ) (r : RingBuffer α) (a : α) : RingBuffer α :=
  { r with slots := Function.update r.slots (r.produced % n) a }

def RingBuffer.publish (r : RingBuffer α) : RingBuffer α := { r with produced := r.produced + 1 }

def RingBuffer.front (n : ℕ) (r : RingBuffer α) : α := r.slots (r.consumed % n)

def RingBuffer.advance (r : RingBuffer α) : RingBuffer α := { r with consumed := r.consumed + 1 }

def RingBuffer.contents (n : ℕ) (r : RingBuffer α) : List α :=
  (List.range' r.consumed (r.produced - r.consumed)).map fun k => r.slots (k % n)

/-- The reader is not ahead of the writer, and the writer at most one round ahead. -/
structure RingBuffer.Fits (n : ℕ) (r : RingBuffer α) : Prop where
  le : r.consumed ≤ r.produced
  bounded : r.produced ≤ r.consumed + n

@[simp] theorem length_contents : (r.contents n).length = r.produced - r.consumed := by
  simp [RingBuffer.contents]

/-- A writer with room does not meet a slot that is still to be read. -/
theorem slot_ne (hroom : r.produced < r.consumed + n) {k : ℕ} (hk : r.consumed ≤ k)
    (hlt : k < r.produced) : k % n ≠ r.produced % n := by
  intro heq
  have hdvd : (r.produced - k) % n = 0 := Nat.sub_mod_eq_zero_of_mod_eq heq.symm
  rw [Nat.mod_eq_of_lt (by omega)] at hdvd
  omega

theorem contents_write (hroom : r.produced < r.consumed + n) (a : α) :
    (r.write n a).contents n = r.contents n := by
  refine List.map_congr_left fun k hk => ?_
  obtain ⟨hle, hlt⟩ := List.mem_range'_1.mp hk
  simp only [RingBuffer.write] at hle hlt
  exact Function.update_of_ne (slot_ne hroom hle (by omega)) _ _

theorem contents_publish (hle : r.consumed ≤ r.produced) :
    r.publish.contents n = r.contents n ++ [r.slots (r.produced % n)] := by
  have hcount : r.produced + 1 - r.consumed = (r.produced - r.consumed) + 1 := by omega
  have hlast : r.consumed + (r.produced - r.consumed) = r.produced := by omega
  simp only [RingBuffer.contents, RingBuffer.publish, hcount, List.range'_concat, Nat.one_mul, hlast,
    List.map_append, List.map_cons, List.map_nil]

theorem contents_eq_cons (hlt : r.consumed < r.produced) :
    r.contents n = r.front n :: r.advance.contents n := by
  have hcount : r.produced - r.consumed = (r.produced - (r.consumed + 1)) + 1 := by omega
  simp only [RingBuffer.contents, RingBuffer.advance, RingBuffer.front, hcount, List.range'_succ,
    List.map_cons]

theorem RingBuffer.Fits.write (h : r.Fits n) (a : α) : (r.write n a).Fits n := ⟨h.le, h.bounded⟩

theorem RingBuffer.Fits.publish (h : r.Fits n) (hroom : r.produced < r.consumed + n) :
    r.publish.Fits n :=
  ⟨h.le.trans (Nat.le_succ _), hroom⟩

theorem RingBuffer.Fits.advance (h : r.Fits n) (hlt : r.consumed < r.produced) : r.advance.Fits n where
  le := hlt
  bounded := by
    have := h.bounded
    simp only [RingBuffer.advance]
    omega

end RingBuffers
