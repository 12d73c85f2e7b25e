import XnMiner.Words.Sha2
import XnMiner.Text.Decimal

/-! # SHA-256 of a byte string

`sha256_hex` hashes the full blocks of the data where they lie, the rest in one or two padded
blocks of its own, and prints the first bytes of the state in base sixteen. An array has its
length in its type, so that every read and write is inside it.
-/
namespace XnMiner.Sha256
open TextCodec (Str)
open BitString
open Sha2 (Work messageWord)

abbrev Byte := BitVec 8

abbrev Word := BitVec 32

def rotr (x : Word) (n : ℕ) : Word := x >>> n ||| x <<< (32 - n)

def kK : Vector Word 64 := #v[
  0x428a2f98, 0x71374491, 0xb5c0fbcf, 0xe9b5dba5, 0x3956c25b, 0x59f111f1, 0x923f82a4,
  0xab1c5ed5, 0xd807aa98, 0x12835b01, 0x243185be, 0x550c7dc3, 0x72be5d74, 0x80deb1fe,
  0x9bdc06a7, 0xc19bf174, 0xe49b69c1, 0xefbe4786, 0x0fc19dc6, 0x240ca1cc, 0x2de92c6f,
  0x4a7484aa, 0x5cb0a9dc, 0x76f988da, 0x983e5152, 0xa831c66d, 0xb00327c8, 0xbf597fc7,
  0xc6e00bf3, 0xd5a79147, 0x06ca6351, 0x14292967, 0x27b70a85, 0x2e1b2138, 0x4d2c6dfc,
  0x53380d13, 0x650a7354, 0x766a0abb, 0x81c2c92e, 0x92722c85, 0xa2bfe8a1, 0xa81a664b,
  0xc24b8b70, 0xc76c51a3, 0xd192e819, 0xd6990624, 0xf40e3585, 0x106aa070, 0x19a4c116,
  0x1e376c08, 0x2748774c, 0x34b0bcb5, 0x391c0cb3, 0x4ed8aa4a, 0x5b9cca4f, 0x682e6ff3,
  0x748f82ee, 0x78a5636f, 0x84c87814, 0x8cc70208, 0x90befffa, 0xa4506ceb, 0xbef9a3f7,
  0xc67178f2]

def loadWord (block : Vector Byte 64) (i : ℕ) (hi : i < 16) : Word :=
  (block[i * 4].setWidth 32 <<< 24) ||| (block[i * 4 + 1].setWidth 32 <<< 16) |||
    (block[i * 4 + 2].setWidth 32 <<< 8) ||| block[i * 4 + 3].setWidth 32

/-- `w[0]` to `w[15]`; the array is not initialised before. -/
def loadWords (block : Vector Byte 64) : Vector Word 64 :=
  Nat.fold 16 (fun i hi w => w.set i (loadWord block i hi)) (Vector.replicate 64 0)

def expandWords (w : Vector Word 64) : Vector Word 64 :=
  Nat.fold 48
    (fun j hj w =>
      let i := 16 + j
      let s0 := rotr w[i - 15] 7 ^^^ rotr w[i - 15] 18 ^^^ w[i - 15] >>> 3
      let s1 := rotr w[i - 2] 17 ^^^ rotr w[i - 2] 19 ^^^ w[i - 2] >>> 10
      w.set i (w[i - 16] + s0 + w[i - 7] + s1))
    w

def transformRound (w : Vector Word 64) (i : ℕ) (hi : i < 64) (v : Work 32) : Work 32 :=
  let S1 := rotr v.e 6 ^^^ rotr v.e 11 ^^^ rotr v.e 25
  let ch := (v.e &&& v.f) ^^^ (~~~v.e &&& v.g)
  let t1 := v.h + S1 + ch + kK[i] + w[i]
  let S0 := rotr v.a 2 ^^^ rotr v.a 13 ^^^ rotr v.a 22
  let maj := (v.a &&& v.b) ^^^ (v.a &&& v.c) ^^^ (v.b &&& v.c)
  let t2 := S0 + maj
  { h := v.g, g := v.f, f := v.e, e := v.d + t1, d := v.c, c := v.b, b := v.a, a := t1 + t2 }

def workOf (state : Vector Word 8) : Work 32 :=
  ⟨state[0], state[1], state[2], state[3], state[4], state[5], state[6], state[7]⟩

def addWork (state : Vector Word 8) (v : Work 32) : Vector Word 8 := #v[
  state[0] + v.a, state[1] + v.b, state[2] + v.c, state[3] + v.d,
  state[4] + v.e, state[5] + v.f, state[6] + v.g, state[7] + v.h]

def sha256Transform (state : Vector Word 8) (block : Vector Byte 64) : Vector Word 8 :=
  let w := expandWords (loadWords block)
  addWork state (Nat.fold 64 (transformRound w) (workOf state))

def initialState : Vector Word 8 := #v[
  0x6a09e667, 0xbb67ae85, 0x3c6ef372, 0xa54ff53a,
  0x510e527f, 0x9b05688c, 0x1f83d9ab, 0x5be0cd19]

def blockAt (data : List Byte) (offset : ℕ) (h : offset + 64 ≤ data.length) : Vector Byte 64 :=
  Vector.ofFn fun k => data[offset + k]

/-- The state and offset with which the loop over the full blocks ends. -/
structure Absorbed (data : List Byte) where
  state : Vector Word 8
  offset : ℕ
  le_length : offset ≤ data.length
  length_lt : data.length < offset + 64

def absorb (data : List Byte) (state : Vector Word 8) (offset : ℕ) (h : offset ≤ data.length) :
    Absorbed data :=
  if hfull : offset + 64 ≤ data.length then
    absorb data (sha256Transform state (blockAt data offset hfull)) (offset + 64) hfull
  else ⟨state, offset, h, by omega⟩
termination_by data.length - offset

def zeroBlock : Vector Byte 64 := Vector.replicate 64 0

def copy (src : List Byte) (block : Vector Byte 64) : Vector Byte 64 :=
  block.mapIdx fun k b => src.getD k b

/-- The rest of the data and the byte `0x80`. -/
def restBlock {data : List Byte} (r : Absorbed data) : Vector Byte 64 :=
  let rem := data.length - r.offset
  have hrem : rem < 64 := by
    have := r.length_lt
    omega
  let block := if rem ≠ 0 then copy (data.drop r.offset) zeroBlock else zeroBlock
  block.set rem 0x80

/-- The last eight bytes of the block become the length in bits, the low byte last. -/
def putLength (bitLen : BitVec 64) (block : Vector Byte 64) : Vector Byte 64 :=
  Nat.fold 8
    (fun i _ block => block.set (63 - i) (((bitLen >>> (8 * i)) &&& 0xff).setWidth 8)) block

def finalState (data : List Byte) : Vector Word 8 :=
  let bitLen : BitVec 64 := BitVec.ofNat 64 data.length * 8
  let r := absorb data initialState 0 (Nat.zero_le _)
  let block := restBlock r
  if 56 ≤ data.length - r.offset then
    sha256Transform (sha256Transform r.state block) (putLength bitLen zeroBlock)
  else
    sha256Transform r.state (putLength bitLen block)

def setw2 (b : Byte) : Str := (Nat.toDigits 16 b.toNat).leftpad 2 '0'

def clampPrefix (prefixBytes : ℕ) : ℕ :=
  let prefixBytes := if prefixBytes = 0 then 32 else prefixBytes
  if prefixBytes > 32 then 32 else prefixBytes

theorem clampPrefix_le (prefixBytes : ℕ) : clampPrefix prefixBytes ≤ 32 := by
  simp only [clampPrefix]
  split_ifs <;> omega

def sha256Hex (data : List Byte) (prefixBytes : ℕ := 32) : Str :=
  let state := finalState data
  Nat.fold (clampPrefix prefixBytes)
    (fun i hi oss =>
      have := clampPrefix_le prefixBytes
      let word := state[i / 4]
      oss ++ setw2 (((word >>> (24 - 8 * (i % 4))) &&& 0xff).setWidth 8))
    []

theorem rotr_eq (x : Word) {n : ℕ} (hn : n < 32) : rotr x n = x.rotateRight n := by
  rw [BitVec.rotateRight_def, Nat.mod_eq_of_lt hn, rotr]

theorem kK_toList : kK.toList = (Sha2.rootTable 32 3 18).take 64 := by decide +kernel

theorem initialState_toList : initialState.toList = (Sha2.rootTable 32 2 5).take 8 := by
  decide +kernel

theorem kK_eq {i : ℕ} (hi : i < 64) : kK[i] = Sha2.K 32 i :=
  Sha2.getElem_table (by decide) kK_toList hi

/-- Four bytes side by side are the digits of one number. -/
theorem lor_bytes {a b c d : ℕ} (hb : b < 256) (hc : c < 256) (hd : d < 256) :
    a <<< 24 ||| b <<< 16 ||| c <<< 8 ||| d = ((a * 256 + b) * 256 + c) * 256 + d := by
  have hcd : c <<< 8 ||| d = c <<< 8 + d := (Nat.shiftLeft_add_eq_or_of_lt hd c).symm
  have hbcd : b <<< 16 ||| (c <<< 8 + d) = b <<< 16 + (c <<< 8 + d) := by
    apply (Nat.shiftLeft_add_eq_or_of_lt _ b).symm
    rw [Nat.shiftLeft_eq]
    omega
  have habcd : a <<< 24 ||| (b <<< 16 + (c <<< 8 + d)) = a <<< 24 + (b <<< 16 + (c <<< 8 + d)) := by
    apply (Nat.shiftLeft_add_eq_or_of_lt _ a).symm
    rw [Nat.shiftLeft_eq, Nat.shiftLeft_eq]
    omega
  rw [Nat.or_assoc, Nat.or_assoc, hcd, hbcd, habcd, Nat.shiftLeft_eq, Nat.shiftLeft_eq,
    Nat.shiftLeft_eq]
  omega

/-- No bit of a byte is shifted out of its word. -/
theorem toNat_shiftLeft_byte (x : Byte) {k : ℕ} (hk : k ≤ 24) :
    (x.setWidth 32 <<< k).toNat = x.toNat <<< k := by
  have hx : x.toNat < 2 ^ 8 := x.isLt
  have hlt : x.toNat * 2 ^ k < 2 ^ 8 * 2 ^ 24 :=
    Nat.mul_lt_mul_of_lt_of_le hx (Nat.pow_le_pow_right (by decide) hk) (by decide)
  have hword : x.toNat % 2 ^ 32 = x.toNat := Nat.mod_eq_of_lt (by omega)
  rw [BitVec.toNat_shiftLeft, BitVec.toNat_setWidth, hword, Nat.shiftLeft_eq,
    Nat.mod_eq_of_lt (by omega)]

theorem or_bytes (a b c d : Byte) :
    (a.setWidth 32 <<< 24) ||| (b.setWidth 32 <<< 16) ||| (c.setWidth 32 <<< 8) ||| d.setWidth 32 =
      BitVec.ofNat 32 (((a.toNat * 256 + b.toNat) * 256 + c.toNat) * 256 + d.toNat) := by
  have ha := a.isLt
  have hb := b.isLt
  have hc := c.isLt
  have hd := d.isLt
  have hword : d.toNat % 2 ^ 32 = d.toNat := Nat.mod_eq_of_lt (by omega)
  apply BitVec.eq_of_toNat_eq
  rw [BitVec.toNat_or, BitVec.toNat_or, BitVec.toNat_or, toNat_shiftLeft_byte a le_rfl,
    toNat_shiftLeft_byte b (by decide), toNat_shiftLeft_byte c (by decide), BitVec.toNat_setWidth,
    hword, lor_bytes hb hc hd, BitVec.toNat_ofNat]
  exact (Nat.mod_eq_of_lt (by omega)).symm

theorem getElem_initialState {i : ℕ} (hi : i < 8) :
    initialState[i] = Sha2.rootFraction 32 2 (Nat.nth Nat.Prime i) :=
  Sha2.getElem_table (by decide) initialState_toList hi

theorem workOf_initialState : workOf initialState = Sha2.initial 32 := by
  simp only [workOf, Sha2.initial, getElem_initialState]

def IsBlock (P : List Byte) (i : ℕ) (block : Vector Byte 64) : Prop :=
  ∀ k (hk : k < 64), P[64 * i + k]? = some block[k]

variable {P : List Byte} {i : ℕ} {block : Vector Byte 64}

theorem loadWord_eq (hblock : IsBlock P i block) {t : ℕ} (ht : t < 16) :
    loadWord block t ht = messageWord 32 (ofWords P) i t := by
  have hbytes : (P.drop (4 * (16 * i + t))).take 4 =
      [block[t * 4], block[t * 4 + 1], block[t * 4 + 2], block[t * 4 + 3]] := by
    have hbyte : ∀ k (hk : k < 4), P[4 * (16 * i + t) + k]? = some block[t * 4 + k] := by
      intro k hk
      rw [← hblock]
      congr 1
      omega
    apply List.ext_getElem?
    intro k
    rw [List.getElem?_take, List.getElem?_drop]
    split_ifs with hk
    · rw [hbyte k hk]
      interval_cases k <;> rfl
    · exact (List.getElem?_eq_none (by simpa using hk)).symm
  rw [messageWord, wordAt_ofWords_wide (by decide : 32 = 8 * 4), hbytes, loadWord, or_bytes]
  simp

theorem getElem_loadWords (hblock : IsBlock P i block) {t : ℕ} (ht : t < 16) :
    (loadWords block)[t] = messageWord 32 (ofWords P) i t := by
  apply Sha2.getElem_fold_set (fun t => (Nat.zero_add t).symm) (messageWord 32 (ofWords P) i)
  · exact fun t _ hlt => absurd hlt t.not_lt_zero
  · intro t ht w hw
    exact loadWord_eq hblock ht
  · omega

theorem sigma0_eq (x : Word) : rotr x 7 ^^^ rotr x 18 ^^^ x >>> 3 = Sha2.sha256.sigma0 x := by
  rw [rotr_eq x (by decide), rotr_eq x (by decide), Sha2.sha256]

theorem sigma1_eq (x : Word) : rotr x 17 ^^^ rotr x 19 ^^^ x >>> 10 = Sha2.sha256.sigma1 x := by
  rw [rotr_eq x (by decide), rotr_eq x (by decide), Sha2.sha256]

theorem Sigma0_eq (x : Word) :
    rotr x 2 ^^^ rotr x 13 ^^^ rotr x 22 = Sha2.sha256.Sigma0 x := by
  rw [rotr_eq x (by decide), rotr_eq x (by decide), rotr_eq x (by decide), Sha2.sha256]

theorem Sigma1_eq (x : Word) :
    rotr x 6 ^^^ rotr x 11 ^^^ rotr x 25 = Sha2.sha256.Sigma1 x := by
  rw [rotr_eq x (by decide), rotr_eq x (by decide), rotr_eq x (by decide), Sha2.sha256]

/-- The array holds the schedule of a block whose words it starts with. -/
theorem getElem_expandWords {M : ℕ → Word} {w : Vector Word 64}
    (hload : ∀ t (ht : t < 16), w[t] = M t) {t : ℕ} (ht : t < 64) :
    (expandWords w)[t] = Sha2.sha256.schedule M t := by
  apply Sha2.getElem_fold_set (fun t => rfl) (Sha2.sha256.schedule M)
  · intro t _ ht
    rw [hload t ht, Sha2.sha256.schedule_lt M ht]
  · intro n hn w hw
    have hread : ∀ k (hk : 0 < k), w[16 + n - k] = Sha2.sha256.schedule M (16 + n - k) :=
      fun k hk => hw (16 + n - k) (by omega) (by omega)
    rw [Sha2.sha256.schedule_ge M (by omega)]
    simp only [hread, sigma0_eq, sigma1_eq, Nat.zero_lt_succ]
    ac_rfl
  · omega

theorem transformRound_eq {M : ℕ → Word} {w : Vector Word 64}
    (hw : ∀ t (ht : t < 64), w[t] = Sha2.sha256.schedule M t) :
    transformRound w = fun t _ v => Sha2.sha256.round (Sha2.sha256.schedule M) t v := by
  funext t ht v
  simp only [transformRound, Sha2.Variant.round, Sha2.Ch, Sha2.Maj, Sigma0_eq, Sigma1_eq,
    kK_eq ht, hw t ht]

theorem workOf_addWork (state : Vector Word 8) (v : Work 32) :
    workOf (addWork state v) =
      ⟨v.a + state[0], v.b + state[1], v.c + state[2], v.d + state[3],
        v.e + state[4], v.f + state[5], v.g + state[6], v.h + state[7]⟩ := by
  simp [workOf, addWork, BitVec.add_comm]

theorem workOf_sha256Transform (hblock : IsBlock P i block) (state : Vector Word 8) :
    workOf (sha256Transform state block) =
      Sha2.sha256.compress (workOf state) (messageWord 32 (ofWords P) i) := by
  have hw : ∀ t (ht : t < 64), (expandWords (loadWords block))[t] =
      Sha2.sha256.schedule (messageWord 32 (ofWords P) i) t :=
    fun t ht => getElem_expandWords (fun t ht => getElem_loadWords hblock ht) ht
  have htransform : sha256Transform state block =
      addWork state (Nat.fold 64 (transformRound (expandWords (loadWords block))) (workOf state)) :=
    rfl
  rw [htransform, workOf_addWork, transformRound_eq hw, Sha2.Variant.compress]
  rfl

end XnMiner.Sha256
