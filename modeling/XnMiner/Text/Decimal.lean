import Mathlib.Data.Int.Notation
import Mathlib.Data.List.Basic
import Mathlib.Tactic.IntervalCases

/-! # Decimal numerals as byte strings

Byte strings are character lists, one character for each byte. Numerals are the
core library's `Nat.toDigits` in base ten, read back by `Nat.ofDigitChars`.
-/
namespace TextCodec

abbrev Str := List Char

def natText (n : ℕ) : Str := Nat.toDigits 10 n

def readNat (s : Str) : ℕ := Nat.ofDigitChars 10 s 0

def intText (i : ℤ) : Str :=
  match i with
  | .ofNat n => natText n
  | .negSucc n => '-' :: natText (n + 1)

@[simp] theorem natText_ne_nil (n : ℕ) : natText n ≠ [] := Nat.toDigits_ne_nil

theorem isDigit_of_mem_natText {n : ℕ} {c : Char} (h : c ∈ natText n) : c.isDigit = true :=
  Nat.isDigit_of_mem_toDigits (by decide) (by decide) h

@[simp] theorem readNat_natText (n : ℕ) : readNat (natText n) = n := Nat.ofDigitChars_ten_toDigits

theorem natText_head {n : ℕ} (hn : n ≠ 0) {c : Char} {rest : Str} (h : natText n = c :: rest) :
    c ≠ '0' := by
  induction n using Nat.strong_induction_on generalizing rest with
  | _ n ih =>
    by_cases hlt : n < 10
    · rw [natText, Nat.toDigits_of_lt_base hlt] at h
      obtain ⟨rfl, -⟩ := List.cons.inj h
      interval_cases n <;> simp_all [Nat.digitChar]
    · have hsplit : natText n = natText (n / 10) ++ [(n % 10).digitChar] :=
        Nat.toDigits_of_base_le (by decide) (by omega)
      cases hq : natText (n / 10) with
      | nil => exact absurd hq (natText_ne_nil _)
      | cons d ds =>
        rw [hsplit, hq] at h
        obtain ⟨rfl, -⟩ := List.cons.inj h
        exact ih (n / 10) (by omega) (by omega) hq

/-- A maximal digit run is cut off exactly where the digits end. -/
theorem takeWhile_append_stop {p : Char → Bool} {ds r : Str} (hd : ∀ c ∈ ds, p c = true)
    (hr : ∀ c ∈ r.head?, p c = false) : (ds ++ r).takeWhile p = ds := by
  rw [List.takeWhile_append_of_pos hd]
  cases r with
  | nil => simp
  | cons c r => simp [hr c rfl]

theorem dropWhile_append_stop {p : Char → Bool} {ds r : Str} (hd : ∀ c ∈ ds, p c = true)
    (hr : ∀ c ∈ r.head?, p c = false) : (ds ++ r).dropWhile p = r := by
  rw [List.dropWhile_append_of_pos hd]
  cases r with
  | nil => rfl
  | cons c r => simp [hr c rfl]

end TextCodec
