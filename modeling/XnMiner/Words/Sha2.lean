import Mathlib.Analysis.SpecialFunctions.Pow.NthRootLemmas
import Mathlib.Analysis.SpecialFunctions.Pow.Real
import Mathlib.Data.Nat.Nth
import XnMiner.Words.BitString

/-! # The SHA-2 family

The hash functions of FIPS 180-4 over words of `w` bits, on messages that are bit strings: the
constants, the message schedule, the rounds, the padding and the digest; how a message of bytes
is padded, what a counted loop keeps, and what it fills an array with.
-/
namespace Sha2
open BitString

/-- The first `w` bits of the fractional part of the `n`-th root of `p`. -/
noncomputable def rootFraction (w n p : ℕ) : BitVec w :=
  BitVec.ofNat w ⌊Int.fract ((p : ℝ) ^ (n : ℝ)⁻¹) * 2 ^ w⌋₊

theorem floor_root (w p : ℕ) {n : ℕ} (hn : n ≠ 0) :
    ⌊(p : ℝ) ^ (n : ℝ)⁻¹ * 2 ^ w⌋₊ = Nat.nthRoot n (p * 2 ^ (n * w)) := by
  let root := Nat.nthRoot n (p * 2 ^ (n * w))
  have hpow : ((p : ℝ) ^ (n : ℝ)⁻¹ * 2 ^ w) ^ n = ((p * 2 ^ (n * w) : ℕ) : ℝ) := by
    rw [mul_pow, Real.rpow_inv_natCast_pow p.cast_nonneg hn, ← pow_mul, Nat.mul_comm w n]
    push_cast
    rfl
  have hnonneg : 0 ≤ (p : ℝ) ^ (n : ℝ)⁻¹ * 2 ^ w := by positivity
  apply (Nat.floor_eq_iff hnonneg).mpr
  constructor
  · have hle : root ^ n ≤ p * 2 ^ (n * w) := Nat.pow_nthRoot_le (.inl hn)
    apply (pow_le_pow_iff_left₀ root.cast_nonneg hnonneg hn).mp
    rw [hpow]
    exact_mod_cast hle
  · have hlt : p * 2 ^ (n * w) < (root + 1) ^ n := Nat.lt_pow_nthRoot_add_one hn _
    apply (pow_lt_pow_iff_left₀ hnonneg (by positivity) hn).mp
    rw [hpow]
    exact_mod_cast hlt

theorem rootFraction_eq (w p : ℕ) {n : ℕ} (hn : n ≠ 0) :
    rootFraction w n p = BitVec.ofNat w (Nat.nthRoot n (p * 2 ^ (n * w))) := by
  let x := (p : ℝ) ^ (n : ℝ)⁻¹
  have hx : 0 ≤ x := by positivity
  have hsplit : x * 2 ^ w = Int.fract x * 2 ^ w + ((⌊x⌋₊ * 2 ^ w : ℕ) : ℝ) := by
    rw [Int.fract, ← natCast_floor_eq_intCast_floor hx]
    push_cast
    ring
  have hfloor : Nat.nthRoot n (p * 2 ^ (n * w)) = ⌊Int.fract x * 2 ^ w⌋₊ + ⌊x⌋₊ * 2 ^ w := by
    have hfract : 0 ≤ Int.fract x * 2 ^ w := mul_nonneg (Int.fract_nonneg x) (by positivity)
    rw [← floor_root w p hn, ← Nat.floor_add_natCast hfract, ← hsplit]
  apply BitVec.eq_of_toNat_eq
  rw [rootFraction, hfloor, BitVec.toNat_ofNat, BitVec.toNat_ofNat, Nat.add_mul_mod_self_right]

/-- The numbers below a bound that have a property, in order, are the first ones that do. -/
theorem getElem_filter_range (p : ℕ → Prop) [DecidablePred p] (n : ℕ) {t : ℕ}
    (ht : t < ((List.range n).filter p).length) : ((List.range n).filter p)[t] = Nat.nth p t := by
  induction n with
  | zero => simp at ht
  | succ n ih =>
    by_cases hlt : t < ((List.range n).filter p).length
    · simp only [List.range_succ, List.filter_append]
      rw [List.getElem_append_left hlt, ih]
    · by_cases hn : p n
      · have hlen : t = ((List.range n).filter p).length := by
          simp [List.range_succ, List.filter_append, hn] at ht
          omega
        have hcount : Nat.count p n = t := by
          rw [hlen, Nat.count_eq_card_filter_range, Finset.card_def]
          rfl
        have hnth : Nat.nth p t = n := by rw [← hcount, Nat.nth_count hn]
        simp only [List.range_succ, List.filter_append]
        rw [List.getElem_append_right (by omega), hnth]
        simp [hn]
      · simp [List.range_succ, List.filter_append, hn] at ht
        omega

def PassesTrial (s n : ℕ) : Prop := 2 ≤ n ∧ ∀ d < s, 2 ≤ d → d < n → ¬ d ∣ n

instance (s n : ℕ) : Decidable (PassesTrial s n) := inferInstanceAs (Decidable (_ ∧ _))

theorem passesTrial_iff {s n : ℕ} (hn : n < s * s) : PassesTrial s n ↔ n.Prime := by
  constructor
  · rintro ⟨hn2, htrial⟩
    by_contra hprime
    have hlt : n.minFac < n := (Nat.not_prime_iff_minFac_lt hn2).mp hprime
    have hsq : n.minFac ^ 2 ≤ n := Nat.minFac_sq_le_self (by omega) hprime
    have hs : n.minFac < s := by
      by_contra hge
      have := Nat.mul_le_mul (not_lt.mp hge) (not_lt.mp hge)
      rw [sq] at hsq
      omega
    have hfac : n.minFac.Prime := Nat.minFac_prime (by omega)
    exact htrial _ hs hfac.two_le hlt n.minFac_dvd
  · intro hprime
    refine ⟨hprime.two_le, fun d _ hd hlt hdvd => ?_⟩
    rcases (Nat.dvd_prime hprime).mp hdvd with rfl | rfl <;> omega

/-- The constants of the first primes, found by trial division. -/
def rootTable (w n s : ℕ) : List (BitVec w) :=
  ((List.range (s * s)).filter (PassesTrial s)).map fun p =>
    BitVec.ofNat w (Nat.nthRoot n (p * 2 ^ (n * w)))

theorem getElem_rootTable (w s : ℕ) {n : ℕ} (hn : n ≠ 0) {t : ℕ}
    (ht : t < (rootTable w n s).length) :
    (rootTable w n s)[t] = rootFraction w n (Nat.nth Nat.Prime t) := by
  have hprimes : (List.range (s * s)).filter (PassesTrial s) =
      (List.range (s * s)).filter Nat.Prime := by
    apply List.filter_congr
    intro p hp
    exact decide_eq_decide.mpr (passesTrial_iff (List.mem_range.mp hp))
  simp only [rootTable, hprimes, List.getElem_map, getElem_filter_range]
  exact (rootFraction_eq w _ hn).symm

/-- An array that holds the constants of the first primes. -/
theorem getElem_table {w n k s : ℕ} {table : Vector (BitVec w) n} (hk : k ≠ 0)
    (h : table.toList = (rootTable w k s).take n) {i : ℕ} (hi : i < n) :
    table[i] = rootFraction w k (Nat.nth Nat.Prime i) := by
  have hlen : i < table.toList.length := by simpa using hi
  have htake : i < ((rootTable w k s).take n).length := h ▸ hlen
  have hroot : i < (rootTable w k s).length := htake.trans_le (List.length_take_le' _ _)
  calc table[i] = table.toList[i] := (Vector.getElem_toList hlen).symm
    _ = ((rootTable w k s).take n)[i] := List.getElem_of_eq h hlen
    _ = (rootTable w k s)[i] := List.getElem_take
    _ = rootFraction w k (Nat.nth Nat.Prime i) := getElem_rootTable w s hk hroot

variable {w : ℕ}

def Ch (x y z : BitVec w) : BitVec w := (x &&& y) ^^^ (~~~x &&& z)

def Maj (x y z : BitVec w) : BitVec w := (x &&& y) ^^^ (x &&& z) ^^^ (y &&& z)

noncomputable def K (w t : ℕ) : BitVec w := rootFraction w 3 (Nat.nth Nat.Prime t)

/-- What the width of a word does not settle. -/
structure Variant (w : ℕ) where
  rounds : ℕ
  Sigma0 : BitVec w → BitVec w
  Sigma1 : BitVec w → BitVec w
  sigma0 : BitVec w → BitVec w
  sigma1 : BitVec w → BitVec w

structure Work (w : ℕ) where
  a : BitVec w
  b : BitVec w
  c : BitVec w
  d : BitVec w
  e : BitVec w
  f : BitVec w
  g : BitVec w
  h : BitVec w

def Work.words (v : Work w) : List (BitVec w) := [v.a, v.b, v.c, v.d, v.e, v.f, v.g, v.h]

theorem Work.length_words (v : Work w) : v.words.length = 8 := rfl

noncomputable def initial (w : ℕ) : Work w where
  a := rootFraction w 2 (Nat.nth Nat.Prime 0)
  b := rootFraction w 2 (Nat.nth Nat.Prime 1)
  c := rootFraction w 2 (Nat.nth Nat.Prime 2)
  d := rootFraction w 2 (Nat.nth Nat.Prime 3)
  e := rootFraction w 2 (Nat.nth Nat.Prime 4)
  f := rootFraction w 2 (Nat.nth Nat.Prime 5)
  g := rootFraction w 2 (Nat.nth Nat.Prime 6)
  h := rootFraction w 2 (Nat.nth Nat.Prime 7)

def Variant.schedule (p : Variant w) (M : ℕ → BitVec w) (t : ℕ) : BitVec w :=
  if _ : t < 16 then M t
  else
    p.sigma1 (p.schedule M (t - 2)) + p.schedule M (t - 7) +
      p.sigma0 (p.schedule M (t - 15)) + p.schedule M (t - 16)
termination_by t

noncomputable def Variant.round (p : Variant w) (W : ℕ → BitVec w) (t : ℕ) (v : Work w) : Work w :=
  let T1 := v.h + p.Sigma1 v.e + Ch v.e v.f v.g + K w t + W t
  let T2 := p.Sigma0 v.a + Maj v.a v.b v.c
  { a := T1 + T2, b := v.a, c := v.b, d := v.c, e := v.d + T1, f := v.e, g := v.f, h := v.g }

noncomputable def Variant.compress (p : Variant w) (H : Work w) (M : ℕ → BitVec w) : Work w :=
  let v := Nat.fold p.rounds (fun t _ v => p.round (p.schedule M) t v) H
  { a := v.a + H.a, b := v.b + H.b, c := v.c + H.c, d := v.d + H.d,
    e := v.e + H.e, f := v.f + H.f, g := v.g + H.g, h := v.h + H.h }

theorem Variant.schedule_lt (p : Variant w) (M : ℕ → BitVec w) {t : ℕ} (ht : t < 16) :
    p.schedule M t = M t := by
  rw [schedule, dif_pos ht]

theorem Variant.schedule_ge (p : Variant w) (M : ℕ → BitVec w) {t : ℕ} (ht : 16 ≤ t) :
    p.schedule M t = p.sigma1 (p.schedule M (t - 2)) + p.schedule M (t - 7) +
      p.sigma0 (p.schedule M (t - 15)) + p.schedule M (t - 16) := by
  rw [schedule, dif_neg (by omega)]

def sha256 : Variant 32 where
  rounds := 64
  Sigma0 x := x.rotateRight 2 ^^^ x.rotateRight 13 ^^^ x.rotateRight 22
  Sigma1 x := x.rotateRight 6 ^^^ x.rotateRight 11 ^^^ x.rotateRight 25
  sigma0 x := x.rotateRight 7 ^^^ x.rotateRight 18 ^^^ x >>> 3
  sigma1 x := x.rotateRight 17 ^^^ x.rotateRight 19 ^^^ x >>> 10

theorem exists_zeros (w : ℕ) [NeZero w] (l : ℕ) : ∃ k, (l + 1 + k) % (16 * w) = 14 * w := by
  have hw : 0 < w := NeZero.pos w
  refine ⟨(16 * w - 1) * (l + 1) + 14 * w, ?_⟩
  have hsum : l + 1 + ((16 * w - 1) * (l + 1) + 14 * w) = 14 * w + 16 * w * (l + 1) := by
    obtain ⟨n, hn⟩ : ∃ n, 16 * w = n + 1 := ⟨16 * w - 1, by omega⟩
    rw [hn, Nat.add_sub_cancel]
    ring
  rw [hsum, Nat.add_mul_mod_self_left, Nat.mod_eq_of_lt (by omega)]

/-- The least number of zero bits that leaves room for the length in the last block. -/
def zeros (w : ℕ) [NeZero w] (l : ℕ) : ℕ := Nat.find (exists_zeros w l)

theorem zeros_eq [NeZero w] {l k : ℕ} (hk : k < 16 * w) (h : (l + 1 + k) % (16 * w) = 14 * w) :
    zeros w l = k := by
  apply (Nat.find_eq_iff _).mpr
  refine ⟨h, fun n hn hmod => ?_⟩
  have hdiff : (l + 1 + k - (l + 1 + n)) % (16 * w) = 0 :=
    Nat.sub_mod_eq_zero_of_mod_eq (h.trans hmod.symm)
  rw [Nat.mod_eq_of_lt (by omega)] at hdiff
  omega

/-- The message, a one bit, zero bits, and the length of the message in two words. -/
def pad (w : ℕ) [NeZero w] (M : List Bool) : List Bool :=
  M ++ true :: (List.replicate (zeros w M.length) false ++ ofNat (2 * w) M.length)

def messageWord (w : ℕ) (P : List Bool) (i j : ℕ) : BitVec w := wordAt w P (16 * i + j)

noncomputable def Variant.chain (p : Variant w) (P : List Bool) : ℕ → Work w
  | 0 => initial w
  | i + 1 => p.compress (p.chain P i) (messageWord w P i)

noncomputable def Variant.hash [NeZero w] (p : Variant w) (M : List Bool) : List Bool :=
  ofWords (p.chain (pad w M) ((pad w M).length / (16 * w))).words

noncomputable def Variant.digest [NeZero w] (p : Variant w) (data : List (BitVec 8)) :
    List (BitVec 8) :=
  toWords 8 (p.hash (ofWords data))

/-- Padding by bytes, for words of `m` bytes and with `z` zero bytes. -/
def padBytes (m z : ℕ) (data : List (BitVec 8)) : List (BitVec 8) :=
  data ++ 0x80#8 :: (List.replicate z 0#8 ++ wordsOfNat 8 (2 * m) (8 * data.length))

@[simp] theorem length_padBytes (m z : ℕ) (data : List (BitVec 8)) :
    (padBytes m z data).length = data.length + 1 + z + 2 * m := by
  simp [padBytes]
  omega

theorem getElem?_padBytes {m z : ℕ} {data : List (BitVec 8)} {j : ℕ} (hj : j < data.length + 1 + z) :
    (padBytes m z data)[j]? = some (if data.length = j then 0x80#8 else data.getD j 0#8) := by
  rw [padBytes]
  rcases lt_trichotomy j data.length with hlt | rfl | hgt
  · rw [List.getElem?_append_left hlt, if_neg hlt.ne', List.getElem?_eq_getElem hlt,
      List.getD_eq_getElem _ _ hlt]
  · simp
  · obtain ⟨k, rfl⟩ : ∃ k, j = data.length + (k + 1) := ⟨j - data.length - 1, by omega⟩
    have hk : k < (List.replicate z 0#8).length := by
      rw [List.length_replicate]
      omega
    rw [List.getElem?_append_right (by omega), Nat.add_sub_cancel_left, List.getElem?_cons_succ,
      List.getElem?_append_left hk, if_neg (by omega), List.getD_eq_default _ _ (by omega)]
    simp at hk
    simp [hk]

theorem getElem?_padBytes_length {m z : ℕ} {data : List (BitVec 8)} {k : ℕ} (hk : k < 2 * m) :
    (padBytes m z data)[data.length + 1 + z + k]? =
      some (BitVec.ofNat 8 (8 * data.length / 2 ^ (8 * (2 * m - 1 - k)))) := by
  have hindex : data.length + 1 + z + k = data.length + (z + k + 1) := by omega
  have hlen : k < (wordsOfNat 8 (2 * m) (8 * data.length)).length := by simpa using hk
  rw [padBytes, hindex, List.getElem?_append_right (by omega), Nat.add_sub_cancel_left,
    List.getElem?_cons_succ, List.getElem?_append_right (by simp)]
  simp only [List.length_replicate, Nat.add_sub_cancel_left]
  rw [List.getElem?_eq_getElem hlen, getElem_wordsOfNat]

theorem ofWords_zeros (z : ℕ) :
    ofWords (List.replicate z (0#8)) = List.replicate (8 * z) false := by
  induction z with
  | zero => rfl
  | succ z ih =>
    have hbits : bits 0#8 = List.replicate 8 false := ofNat_zero_right 8
    rw [List.replicate_succ, ofWords_cons, ih, hbits, List.replicate_append_replicate,
      Nat.mul_succ, Nat.add_comm]

/-- The one bit and seven zero bits are the byte `0x80`. -/
theorem pad_ofWords {m z : ℕ} [NeZero w] (hw : w = 8 * m) (data : List (BitVec 8))
    (hz : z < 16 * m) (hfill : (data.length + 1 + z) % (16 * m) = 14 * m) :
    pad w (ofWords data) = ofWords (padBytes m z data) := by
  have hzeros : zeros w (8 * data.length) = 7 + 8 * z := by
    apply zeros_eq (by omega)
    have hsum : 8 * data.length + 1 + (7 + 8 * z) = 8 * (data.length + 1 + z) := by omega
    have hblock : 16 * w = 8 * (16 * m) := by omega
    rw [hsum, hblock, Nat.mul_mod_mul_left, hfill]
    omega
  have hone : bits 0x80#8 = true :: List.replicate 7 false := by decide
  have hlen : 8 * (2 * m) = 2 * w := by omega
  rw [pad, length_ofWords, hzeros, padBytes, ofWords_append, ofWords_cons, ofWords_append,
    ofWords_zeros, ofWords_wordsOfNat, hone, hlen, ← List.replicate_append_replicate]
  simp

theorem Variant.getElem_digest [NeZero w] {m : ℕ} (p : Variant w) (hw : w = 8 * m) (hm : 0 < m)
    (data : List (BitVec 8)) {v : Work w}
    (hv : p.chain (pad w (ofWords data)) ((pad w (ofWords data)).length / (16 * w)) = v)
    {i : ℕ} (hi : i < (p.digest data).length) (hword : i / m < v.words.length) :
    (p.digest data)[i] = BitVec.ofNat 8 (v.words[i / m].toNat / 2 ^ (8 * (m - 1 - i % m))) := by
  simp only [digest, hash, hv, toWords, List.getElem_map, List.getElem_range]
  exact wordAt_ofWords_narrow hw v.words hm hword

theorem fold_invariant {α : Type*} {n : ℕ} {f : (i : ℕ) → i < n → α → α} {init : α}
    (inv : ℕ → α → Prop) (start : inv 0 init)
    (step : ∀ i (hi : i < n) a, inv i a → inv (i + 1) (f i hi a)) : inv n (Nat.fold n f init) := by
  induction n with
  | zero => exact start
  | succ n ih =>
    rw [Nat.fold_succ]
    apply step n n.lt_succ_self
    exact ih fun i hi a => step i (by omega) a

/-- An array filled upwards from `start`, where an entry may depend on those before it. -/
theorem getElem_fold_set {α : Type*} {N n start : ℕ} {pos : ℕ → ℕ} (hpos : ∀ i, pos i = start + i)
    {hfit : ∀ i < n, pos i < N} {next : (i : ℕ) → i < n → Vector α N → α} {init : Vector α N}
    (g : ℕ → α) (hinit : ∀ t (ht : t < N), t < start → init[t] = g t)
    (hnext : ∀ i (hi : i < n) (a : Vector α N),
      (∀ t (ht : t < N), t < pos i → a[t] = g t) → next i hi a = g (pos i))
    {t : ℕ} (ht : t < N) (hlt : t < start + n) :
    (Nat.fold n (fun i hi a => a.set (pos i) (next i hi a) (hfit i hi)) init)[t] = g t := by
  apply fold_invariant (fun n a => ∀ t (ht : t < N), t < start + n → a[t] = g t) hinit ?_ t ht hlt
  intro i hi a ha t ht hlt
  rw [Vector.getElem_set]
  split_ifs with heq
  · rw [← heq]
    apply hnext i hi a
    intro t ht hbefore
    exact ha t ht (by rwa [← hpos])
  · have := hpos i
    exact ha t ht (by omega)

end Sha2
