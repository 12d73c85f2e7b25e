import Mathlib.Algebra.Order.Ring.Nat
import Mathlib.Data.List.Induction
import Mathlib.Tactic.Ring

/-! # Bit strings

Numbers, and words of a fixed width, as strings of bits, the most significant bit first. A
string of words is read again in wider or narrower words.
-/
namespace BitString

def ofNat : ℕ → ℕ → List Bool
  | 0, _ => []
  | w + 1, n => ofNat w (n / 2) ++ [n.testBit 0]

def value (bs : List Bool) : ℕ := bs.foldl (fun n b => 2 * n + b.toNat) 0

@[simp] theorem length_ofNat (w n : ℕ) : (ofNat w n).length = w := by
  induction w generalizing n with
  | zero => rfl
  | succ w ih => simp [ofNat, ih]

theorem ofNat_zero_right (w : ℕ) : ofNat w 0 = List.replicate w false := by
  induction w with
  | zero => rfl
  | succ w ih => simp [ofNat, ih, List.replicate_succ']

theorem ofNat_add (v w n : ℕ) : ofNat (v + w) n = ofNat v (n / 2 ^ w) ++ ofNat w n := by
  induction w generalizing n with
  | zero => simp [ofNat]
  | succ w ih =>
    rw [← Nat.add_assoc, ofNat, ofNat, ih, Nat.div_div_eq_div_mul, ← Nat.pow_succ',
      List.append_assoc]

theorem value_snoc (bs : List Bool) (b : Bool) : value (bs ++ [b]) = 2 * value bs + b.toNat := by
  simp [value]

theorem value_append (xs ys : List Bool) :
    value (xs ++ ys) = value xs * 2 ^ ys.length + value ys := by
  induction ys using List.reverseRecOn with
  | nil => simp [value]
  | append_singleton ys b ih =>
    rw [← List.append_assoc, value_snoc, value_snoc, ih, List.length_append,
      List.length_singleton, pow_succ]
    ring

theorem value_ofNat (w n : ℕ) : value (ofNat w n) = n % 2 ^ w := by
  induction w generalizing n with
  | zero => simp [ofNat, value, Nat.mod_one]
  | succ w ih =>
    have hbit : (n.testBit 0).toNat = n % 2 := by
      rcases Nat.mod_two_eq_zero_or_one n with h | h <;> simp [Nat.testBit_zero, h]
    rw [ofNat, value_snoc, ih, hbit, pow_succ', Nat.mod_mul]
    ring

theorem ofNat_mod (w n : ℕ) : ofNat w (n % 2 ^ w) = ofNat w n := by
  induction w generalizing n with
  | zero => rfl
  | succ w ih =>
    have hdiv : n % 2 ^ (w + 1) / 2 = n / 2 % 2 ^ w := by
      rw [pow_succ', Nat.mod_mul_right_div_self]
    have hbit : (n % 2 ^ (w + 1)).testBit 0 = n.testBit 0 := by
      simp
    rw [ofNat, ofNat, hdiv, hbit, ih]

variable {w : ℕ}

def bits (x : BitVec w) : List Bool := ofNat w x.toNat

def word (w : ℕ) (bs : List Bool) : BitVec w := BitVec.ofNat w (value bs)

@[simp] theorem length_bits (x : BitVec w) : (bits x).length = w := length_ofNat w _

theorem bits_ofNat (w n : ℕ) : bits (BitVec.ofNat w n) = ofNat w n := by
  rw [bits, BitVec.toNat_ofNat, ofNat_mod]

theorem word_bits (x : BitVec w) : word w (bits x) = x := by
  rw [word, bits, value_ofNat, Nat.mod_eq_of_lt x.isLt, BitVec.ofNat_toNat, BitVec.setWidth_eq]

def ofWords (xs : List (BitVec w)) : List Bool := xs.flatMap bits

@[simp] theorem ofWords_nil : ofWords ([] : List (BitVec w)) = [] := rfl

@[simp] theorem ofWords_cons (x : BitVec w) (xs : List (BitVec w)) :
    ofWords (x :: xs) = bits x ++ ofWords xs := rfl

@[simp] theorem ofWords_append (xs ys : List (BitVec w)) :
    ofWords (xs ++ ys) = ofWords xs ++ ofWords ys := List.flatMap_append

@[simp] theorem length_ofWords (xs : List (BitVec w)) : (ofWords xs).length = w * xs.length := by
  induction xs with
  | nil => rfl
  | cons x xs ih => rw [ofWords_cons, List.length_append, ih, length_bits, List.length_cons]; ring

theorem drop_ofWords (xs : List (BitVec w)) (i : ℕ) :
    (ofWords xs).drop (w * i) = ofWords (xs.drop i) := by
  induction xs generalizing i with
  | nil => simp
  | cons x xs ih =>
    cases i with
    | zero => rfl
    | succ i =>
      rw [Nat.mul_succ, Nat.add_comm, ← List.drop_drop, ofWords_cons,
        List.drop_left' (length_bits x), ih, List.drop_succ_cons]

theorem take_ofWords (xs : List (BitVec w)) (i : ℕ) :
    (ofWords xs).take (w * i) = ofWords (xs.take i) := by
  induction xs generalizing i with
  | nil => simp
  | cons x xs ih =>
    cases i with
    | zero => simp
    | succ i =>
      have htake : (bits x ++ ofWords xs).take ((bits x).length + w * i) =
          bits x ++ (ofWords xs).take (w * i) := List.take_length_add_append _
      rw [length_bits, ih] at htake
      rw [Nat.mul_succ, Nat.add_comm, ofWords_cons, htake, List.take_succ_cons, ofWords_cons]

/-- The number that a string of words writes: its digits are the words. -/
theorem value_ofWords (xs : List (BitVec w)) :
    value (ofWords xs) = xs.foldl (fun n x => n * 2 ^ w + x.toNat) 0 := by
  induction xs using List.reverseRecOn with
  | nil => rfl
  | append_singleton xs x ih =>
    have hlast : value (bits x) = x.toNat := by
      rw [bits, value_ofNat, Nat.mod_eq_of_lt x.isLt]
    rw [ofWords_append, value_append, ih, List.foldl_append, ofWords_cons, ofWords_nil,
      List.append_nil, hlast, length_bits, List.foldl_cons, List.foldl_nil]

def wordAt (w : ℕ) (bs : List Bool) (i : ℕ) : BitVec w := word w ((bs.drop (w * i)).take w)

/-- A bit string in words, less what does not fill one. -/
def toWords (w : ℕ) (bs : List Bool) : List (BitVec w) :=
  (List.range (bs.length / w)).map (wordAt w bs)

@[simp] theorem length_toWords (w : ℕ) (bs : List Bool) :
    (toWords w bs).length = bs.length / w := by
  simp [toWords]

theorem wordAt_ofWords (xs : List (BitVec w)) {i : ℕ} (hi : i < xs.length) :
    wordAt w (ofWords xs) i = xs[i] := by
  have hone : (ofWords (xs.drop i)).take (w * 1) = bits xs[i] := by
    rw [take_ofWords, List.drop_eq_getElem_cons hi, List.take_succ_cons, List.take_zero]
    simp
  rw [Nat.mul_one] at hone
  rw [wordAt, drop_ofWords, hone, word_bits]

/-- What stands behind a word does not matter to it. -/
theorem wordAt_append_left {xs : List Bool} (ys : List Bool) {i : ℕ}
    (hi : w * i + w ≤ xs.length) : wordAt w (xs ++ ys) i = wordAt w xs i := by
  have hdrop : (xs ++ ys).drop (w * i) = xs.drop (w * i) ++ ys :=
    List.drop_append_of_le_length (by omega)
  have hlen : w ≤ (xs.drop (w * i)).length := by
    rw [List.length_drop]
    omega
  rw [wordAt, wordAt, hdrop, List.take_append_of_le_length hlen]

theorem wordAt_add (w : ℕ) (bs : List Bool) (i j : ℕ) :
    wordAt w bs (i + j) = wordAt w (bs.drop (w * i)) j := by
  rw [wordAt, wordAt, List.drop_drop, Nat.mul_add]

theorem wordAt_ofWords_wide {v m : ℕ} (hw : w = v * m) (xs : List (BitVec v)) (i : ℕ) :
    wordAt w (ofWords xs) i =
      BitVec.ofNat w (((xs.drop (m * i)).take m).foldl (fun n x => n * 2 ^ v + x.toNat) 0) := by
  subst hw
  rw [wordAt, word, Nat.mul_assoc, drop_ofWords, take_ofWords, value_ofWords]

def wordsOfNat (v : ℕ) : ℕ → ℕ → List (BitVec v)
  | 0, _ => []
  | m + 1, n => wordsOfNat v m (n / 2 ^ v) ++ [BitVec.ofNat v n]

@[simp] theorem length_wordsOfNat (v m n : ℕ) : (wordsOfNat v m n).length = m := by
  induction m generalizing n with
  | zero => rfl
  | succ m ih => simp [wordsOfNat, ih]

theorem ofWords_wordsOfNat (v m n : ℕ) : ofWords (wordsOfNat v m n) = ofNat (v * m) n := by
  induction m generalizing n with
  | zero => rfl
  | succ m ih =>
    rw [wordsOfNat, ofWords_append, ih, Nat.mul_succ, ofNat_add, ofWords_cons, ofWords_nil,
      List.append_nil, bits_ofNat]

theorem getElem_wordsOfNat (v m n : ℕ) {k : ℕ} (hk : k < (wordsOfNat v m n).length) :
    (wordsOfNat v m n)[k] = BitVec.ofNat v (n / 2 ^ (v * (m - 1 - k))) := by
  induction m generalizing n with
  | zero => simp at hk
  | succ m ih =>
    have hkm : k < m + 1 := by simpa using hk
    by_cases hlast : k < m
    · have hexp : v + v * (m - 1 - k) = v * (m + 1 - 1 - k) := by
        have hsub : m + 1 - 1 - k = m - 1 - k + 1 := by omega
        rw [hsub, Nat.mul_succ, Nat.add_comm]
      simp only [wordsOfNat]
      rw [List.getElem_append_left (by simpa using hlast), ih, Nat.div_div_eq_div_mul, ← pow_add,
        hexp]
    · obtain rfl : k = m := by omega
      simp [wordsOfNat]

theorem wordAt_ofWords_narrow {v m : ℕ} (hw : w = v * m) (xs : List (BitVec w)) {i : ℕ}
    (hm : 0 < m) (hi : i / m < xs.length) :
    wordAt v (ofWords xs) i =
      BitVec.ofNat v (xs[i / m].toNat / 2 ^ (v * (m - 1 - i % m))) := by
  subst hw
  have hr : i % m < (wordsOfNat v m xs[i / m].toNat).length := by
    rw [length_wordsOfNat]
    exact Nat.mod_lt i hm
  have hbits : bits xs[i / m] = ofWords (wordsOfNat v m xs[i / m].toNat) :=
    (ofWords_wordsOfNat v m _).symm
  have hdrop : (ofWords xs).drop (v * (m * (i / m))) =
      ofWords (wordsOfNat v m xs[i / m].toNat) ++ ofWords (xs.drop (i / m + 1)) := by
    rw [← Nat.mul_assoc, drop_ofWords, List.drop_eq_getElem_cons hi, ofWords_cons, hbits]
  have hfit : v * (i % m) + v ≤ (ofWords (wordsOfNat v m xs[i / m].toNat)).length := by
    rw [length_ofWords, length_wordsOfNat, ← Nat.mul_succ]
    exact Nat.mul_le_mul_left v (Nat.mod_lt i hm)
  calc wordAt v (ofWords xs) i
      = wordAt v (ofWords xs) (m * (i / m) + i % m) := by rw [Nat.div_add_mod]
    _ = wordAt v (ofWords (wordsOfNat v m xs[i / m].toNat)) (i % m) := by
      rw [wordAt_add, hdrop, wordAt_append_left _ hfit]
    _ = (wordsOfNat v m xs[i / m].toNat)[i % m] := wordAt_ofWords _ hr
    _ = BitVec.ofNat v (xs[i / m].toNat / 2 ^ (v * (m - 1 - i % m))) := getElem_wordsOfNat v m _ hr

end BitString
