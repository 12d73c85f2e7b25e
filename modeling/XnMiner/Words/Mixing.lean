import Mathlib.Data.BitVec
import Mathlib.Logic.Function.Basic
import Mathlib.Data.Nat.Notation

/-! # Mixing functions that lose nothing

To xor a word with itself shifted to the right, and to multiply it by an odd number, are one to
one. So is a generator that counts in odd steps and mixes the counter.
-/
namespace Mixing
open Function

variable {w : ℕ}

/-- The high bits come out as they are, and each lower bit with a bit above it. -/
theorem xor_ushiftRight_injective {k : ℕ} (hk : 0 < k) :
    Injective fun x : BitVec w => x ^^^ x >>> k := by
  intro x y hxy
  have hbit : ∀ i, (x.getLsbD i ^^ x.getLsbD (k + i)) = (y.getLsbD i ^^ y.getLsbD (k + i)) := by
    intro i
    have h := congrArg (BitVec.getLsbD · i) hxy
    simpa only [BitVec.getLsbD_xor, BitVec.getLsbD_ushiftRight] using h
  -- from the highest bit downwards
  have hdown : ∀ n i, w - i ≤ n → x.getLsbD i = y.getLsbD i := by
    intro n
    induction n with
    | zero =>
      intro i hi
      rw [BitVec.getLsbD_of_ge x i (by omega), BitVec.getLsbD_of_ge y i (by omega)]
    | succ n ih =>
      intro i hi
      have hhigh : x.getLsbD (k + i) = y.getLsbD (k + i) := by
        rcases Nat.lt_or_ge i w with hlt | hge
        · exact ih _ (by omega)
        · rw [BitVec.getLsbD_of_ge x _ (by omega), BitVec.getLsbD_of_ge y _ (by omega)]
      have h := hbit i
      rw [hhigh] at h
      exact Bool.xor_left_inj.mp h
  exact BitVec.eq_of_getLsbD_eq fun i _ => hdown w i (Nat.sub_le w i)

theorem mul_injective {a b : BitVec w} (h : a * b = 1#w) : Injective fun x : BitVec w => x * a := by
  intro x y hxy
  calc x = x * a * b := by rw [BitVec.mul_assoc, h, BitVec.mul_one]
    _ = y * a * b := by rw [show x * a = y * a from hxy]
    _ = y := by rw [BitVec.mul_assoc, h, BitVec.mul_one]

def counter (start step : BitVec w) (n : ℕ) : BitVec w := start + BitVec.ofNat w n * step

theorem counter_injective {start step inverse : BitVec w} (h : step * inverse = 1#w) {m n : ℕ}
    (hm : m < 2 ^ w) (hn : n < 2 ^ w) (hmn : counter start step m = counter start step n) :
    m = n := by
  have hmul := mul_injective h (BitVec.add_right_inj _ |>.mp hmn)
  have hnat := congrArg BitVec.toNat hmul
  rwa [BitVec.toNat_ofNat, BitVec.toNat_ofNat, Nat.mod_eq_of_lt hm, Nat.mod_eq_of_lt hn] at hnat

theorem counter_add (start step : BitVec w) (m n : ℕ) :
    counter (counter start step m) step n = counter start step (m + n) := by
  rw [counter, counter, counter, BitVec.ofNat_add, BitVec.add_assoc]
  congr 1
  rw [BitVec.mul_comm (_ + _), BitVec.mul_add, BitVec.mul_comm step, BitVec.mul_comm step]

end Mixing
