import Mathlib.Data.List.GetD
import Mathlib.Data.Nat.Digits.Lemmas
import Mathlib.Tactic.Ring

/-! # Little-endian words

Numbers as strings of bytes, the least significant byte first, and words put together from bytes
by shifts.
-/
namespace LittleEndian

def value (bs : List (BitVec 8)) : ℕ := Nat.ofDigits 256 (bs.map BitVec.toNat)

def bytes : ℕ → ℕ → List (BitVec 8)
  | 0, _ => []
  | m + 1, n => BitVec.ofNat 8 n :: bytes m (n / 256)

@[simp] theorem value_nil : value [] = 0 := rfl

@[simp] theorem value_cons (b : BitVec 8) (bs : List (BitVec 8)) :
    value (b :: bs) = b.toNat + 256 * value bs := by
  rw [value, List.map_cons, Nat.ofDigits_cons]
  rfl

@[simp] theorem length_bytes (m n : ℕ) : (bytes m n).length = m := by
  induction m generalizing n with
  | zero => rfl
  | succ m ih => simp [bytes, ih]

theorem value_lt (bs : List (BitVec 8)) : value bs < 256 ^ bs.length := by
  have hdigits : ∀ d ∈ bs.map BitVec.toNat, d < 256 := by
    intro d hd
    obtain ⟨b, _, rfl⟩ := List.mem_map.mp hd
    exact b.isLt
  have hlt := Nat.ofDigits_lt_base_pow_length (by decide : 1 < 256) hdigits
  rwa [List.length_map] at hlt

theorem value_bytes (m n : ℕ) : value (bytes m n) = n % 256 ^ m := by
  induction m generalizing n with
  | zero => simp [bytes, Nat.mod_one]
  | succ m ih =>
    have hlow : (BitVec.ofNat 8 n).toNat = n % 256 := BitVec.toNat_ofNat n 8
    rw [bytes, value_cons, ih, hlow, pow_succ', Nat.mod_mul]

theorem bytes_value (bs : List (BitVec 8)) : bytes bs.length (value bs) = bs := by
  induction bs with
  | nil => rfl
  | cons b bs ih =>
    have hb : b.toNat < 256 := b.isLt
    have hhead : BitVec.ofNat 8 (b.toNat + 256 * value bs) = b := by
      apply BitVec.eq_of_toNat_eq
      rw [BitVec.toNat_ofNat]
      omega
    have htail : (b.toNat + 256 * value bs) / 256 = value bs := by omega
    rw [List.length_cons, value_cons, bytes, hhead, htail, ih]

theorem bytes_mod (m n : ℕ) : bytes m (n % 256 ^ m) = bytes m n := by
  have h := bytes_value (bytes m n)
  rwa [length_bytes, value_bytes] at h

variable {w : ℕ}

def word (w : ℕ) (bs : List (BitVec 8)) : BitVec w := BitVec.ofNat w (value bs)

def ofWords (ws : List (BitVec w)) : List (BitVec 8) := ws.flatMap fun x => bytes (w / 8) x.toNat

@[simp] theorem ofWords_nil : ofWords ([] : List (BitVec w)) = [] := rfl

@[simp] theorem ofWords_cons (x : BitVec w) (ws : List (BitVec w)) :
    ofWords (x :: ws) = bytes (w / 8) x.toNat ++ ofWords ws := rfl

@[simp] theorem length_ofWords (ws : List (BitVec w)) :
    (ofWords ws).length = w / 8 * ws.length := by
  induction ws with
  | nil => rfl
  | cons x ws ih => rw [ofWords_cons, List.length_append, ih, length_bytes, List.length_cons]; ring

/-- The `j`-th word of a string of bytes with zeros behind it. -/
def wordAt (w : ℕ) (bs : List (BitVec 8)) (j : ℕ) : BitVec w :=
  word w ((List.range (w / 8)).map fun k => bs.getD (w / 8 * j + k) 0)

theorem wordAt_congr {bs cs : List (BitVec 8)} {j : ℕ}
    (h : ∀ k < w / 8, bs.getD (w / 8 * j + k) 0 = cs.getD (w / 8 * j + k) 0) :
    wordAt w bs j = wordAt w cs j := by
  unfold wordAt
  congr 1
  apply List.map_congr_left
  intro k hk
  exact h k (List.mem_range.mp hk)

theorem bytes_word {m : ℕ} (hw : w = 8 * m) {bs : List (BitVec 8)} (hlen : bs.length = m) :
    bytes m (word w bs).toNat = bs := by
  have hpow : 2 ^ w = 256 ^ m := by rw [hw, pow_mul, show 2 ^ 8 = 256 from rfl]
  rw [word, BitVec.toNat_ofNat, hpow, bytes_mod, ← hlen, bytes_value]

theorem wordAt_drop (bs : List (BitVec 8)) (j : ℕ) :
    wordAt w (bs.drop (w / 8)) j = wordAt w bs (j + 1) := by
  unfold wordAt
  congr 1
  apply List.map_congr_left
  intro k _
  have hindex : w / 8 + (w / 8 * j + k) = w / 8 * (j + 1) + k := by ring
  rw [List.getD_eq_getElem?_getD, List.getD_eq_getElem?_getD, List.getElem?_drop, hindex]

theorem wordAt_zero {bs : List (BitVec 8)} (h : w / 8 ≤ bs.length) :
    wordAt w bs 0 = word w (bs.take (w / 8)) := by
  have hlength : min (w / 8) bs.length = w / 8 := Nat.min_eq_left h
  rw [wordAt]
  congr 1
  apply List.ext_getElem (by simp [hlength])
  intro k hk hk'
  rw [List.getElem_map, List.getElem_range, List.getElem_take, Nat.mul_zero, Nat.zero_add]
  exact List.getD_eq_getElem _ _ _

theorem ofWords_wordAt (hw : 8 ∣ w) {n : ℕ} {bs : List (BitVec 8)}
    (h : bs.length = w / 8 * n) : ofWords ((List.range n).map (wordAt w bs)) = bs := by
  induction n generalizing bs with
  | zero =>
    rw [Nat.mul_zero] at h
    rw [List.eq_nil_of_length_eq_zero h]
    rfl
  | succ n ih =>
    have hsplit : w / 8 * (n + 1) = w / 8 + w / 8 * n := by ring
    have hfirst : (bs.take (w / 8)).length = w / 8 := by
      rw [List.length_take]
      omega
    have hrest : ofWords ((List.range n).map (wordAt w bs ∘ Nat.succ)) = bs.drop (w / 8) := by
      have hdrop : (bs.drop (w / 8)).length = w / 8 * n := by
        rw [List.length_drop]
        omega
      rw [← ih hdrop]
      congr 1
      apply List.map_congr_left
      intro j _
      exact (wordAt_drop bs j).symm
    rw [List.range_succ_eq_map, List.map_cons, List.map_map, ofWords_cons, hrest,
      wordAt_zero (by omega), bytes_word (Nat.mul_div_cancel' hw).symm hfirst,
      List.take_append_drop]

theorem setWidth_ushiftRight (x : BitVec w) (k : ℕ) :
    (x >>> k).setWidth 8 = BitVec.ofNat 8 (x.toNat / 2 ^ k) := by
  apply BitVec.eq_of_toNat_eq
  rw [BitVec.toNat_setWidth, BitVec.toNat_ushiftRight, BitVec.toNat_ofNat,
    Nat.shiftRight_eq_div_pow]

theorem or_shift {x k : ℕ} (hx : x < 2 ^ k) (b : ℕ) : x ||| b <<< k = x + 2 ^ k * b := by
  rw [Nat.or_comm, ← Nat.shiftLeft_add_eq_or_of_lt hx, Nat.shiftLeft_eq]
  ring

/-- No bit of a byte is shifted out of its word. -/
theorem toNat_shiftLeft_byte (x : BitVec 8) {k : ℕ} (hk : k + 8 ≤ w) :
    (x.setWidth w <<< k).toNat = x.toNat <<< k := by
  have hx : x.toNat < 2 ^ 8 := x.isLt
  have hmul : x.toNat * 2 ^ k < 2 ^ w :=
    calc x.toNat * 2 ^ k < 2 ^ 8 * 2 ^ k := Nat.mul_lt_mul_of_pos_right hx (Nat.two_pow_pos k)
      _ = 2 ^ (k + 8) := by rw [← pow_add, Nat.add_comm]
      _ ≤ 2 ^ w := Nat.pow_le_pow_right (by decide) hk
  have hword : x.toNat % 2 ^ w = x.toNat :=
    Nat.mod_eq_of_lt (hx.trans_le (Nat.pow_le_pow_right (by decide) (by omega)))
  rw [BitVec.toNat_shiftLeft, BitVec.toNat_setWidth, hword, Nat.shiftLeft_eq,
    Nat.mod_eq_of_lt hmul]

/-- Bytes in the place of zeros above a word of `k` bits. -/
theorem or_byte {x : BitVec w} {k : ℕ} (hx : x.toNat < 2 ^ k) (b : BitVec 8) (hk : k + 8 ≤ w) :
    (x ||| b.setWidth w <<< k).toNat = x.toNat + 2 ^ k * b.toNat := by
  rw [BitVec.toNat_or, toNat_shiftLeft_byte b hk, or_shift hx]

/-- A word with bytes put in one after the other, from bit `k` on. -/
def orBytes (x : BitVec w) (k : ℕ) : List (BitVec 8) → BitVec w
  | [] => x
  | b :: bs => orBytes (x ||| b.setWidth w <<< k) (k + 8) bs

theorem toNat_orBytes {x : BitVec w} {k : ℕ} (hx : x.toNat < 2 ^ k) (bs : List (BitVec 8))
    (hk : k + 8 * bs.length ≤ w) : (orBytes x k bs).toNat = x.toNat + 2 ^ k * value bs := by
  induction bs generalizing x k with
  | nil => rw [orBytes, value_nil, Nat.mul_zero, Nat.add_zero]
  | cons b bs ih =>
    rw [List.length_cons] at hk
    have hor := or_byte hx b (by omega)
    have hb : b.toNat < 2 ^ 8 := b.isLt
    have hnext : (x ||| b.setWidth w <<< k).toNat < 2 ^ (k + 8) := by
      have hle : 2 ^ k * b.toNat ≤ 2 ^ k * 255 := Nat.mul_le_mul_left _ (by omega)
      rw [hor, pow_add]
      omega
    rw [orBytes, ih hnext (by omega), hor, value_cons, pow_add]
    ring

theorem orBytes_eq_word (b : BitVec 8) (bs : List (BitVec 8)) (hw : 8 + 8 * bs.length ≤ w) :
    orBytes (b.setWidth w) 8 bs = word w (b :: bs) := by
  have hb : b.toNat < 2 ^ 8 := b.isLt
  have hfirst : (b.setWidth w).toNat = b.toNat := by
    rw [BitVec.toNat_setWidth]
    exact Nat.mod_eq_of_lt (hb.trans_le (Nat.pow_le_pow_right (by decide) (by omega)))
  have hlt : value (b :: bs) < 2 ^ w :=
    calc value (b :: bs) < 256 ^ (b :: bs).length := value_lt _
      _ = 2 ^ (8 * (bs.length + 1)) := by rw [List.length_cons, pow_mul]; rfl
      _ ≤ 2 ^ w := Nat.pow_le_pow_right (by decide) (by omega)
  apply BitVec.eq_of_toNat_eq
  rw [toNat_orBytes (by rwa [hfirst]) bs hw, hfirst, word, BitVec.toNat_ofNat,
    Nat.mod_eq_of_lt hlt, value_cons]
  rfl

end LittleEndian
