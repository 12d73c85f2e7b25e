import XnMiner.Words.Blake2
import Mathlib.Tactic.IntervalCases

/-! # BLAKE2b

An object takes the data in pieces of any length, keeps the bytes that do not fill a block, and
compresses a block only when more bytes come. The final call is on the last block. The source has
this code twice, for the host and for the device; what they share is here, and then the class of
the host.
-/
namespace XnMiner
open LittleEndian

abbrev Byte := BitVec 8

abbrev Word := BitVec 64

structure Blake2b where
  h : Vector Word 8
  t : Vector Word 2
  buf : Vector Byte 128
  bufLen : ℕ
  bufLen_le : bufLen ≤ 128

def Blake2b.zero : Blake2b where
  h := Vector.replicate 8 0
  t := Vector.replicate 2 0
  buf := Vector.replicate 128 0
  bufLen := 0
  bufLen_le := Nat.zero_le _

def Blake2b.incrementCounter (s : Blake2b) (inc : Word) : Blake2b :=
  let t0 := s.t[0]! + inc
  { s with t := #v[t0, s.t[1]! + if t0 < inc then 1 else 0] }

def copyTo (buf : Vector Byte 128) (start : ℕ) (src : List Byte) : Vector Byte 128 :=
  buf.mapIdx fun k b => if k < start then b else src.getD (k - start) b

def Blake2b.append (s : Blake2b) (bin : List Byte) (h : s.bufLen + bin.length ≤ 128) : Blake2b :=
  { s with buf := copyTo s.buf s.bufLen bin, bufLen := s.bufLen + bin.length, bufLen_le := h }

def blockOf (bin : List Byte) (h : 128 ≤ bin.length) : Vector Byte 128 :=
  Vector.ofFn fun k => bin[k]

def rotr64 (x : Word) (n : ℕ) : Word := x >>> n ||| x <<< (64 - n)

/-- The tables, and how words are read and written. -/
structure BlakeParts where
  IV : Vector Word 8
  sigma : Array (Array ℕ)
  load64 : Vector Byte 128 → ℕ → Word
  store64 : Word → List Byte
  IV_eq : IV = Blake2.IV 64
  sigma_eq : ∀ r < 12, sigma[r]!.toList = Blake2.messageOrder r
  load64_eq : ∀ src i, i + 8 ≤ 128 → load64 src i = word 64 ((src.toList.drop i).take 8)
  store64_eq : ∀ v, store64 v = bytes 8 v.toNat

namespace BlakeParts
variable (c : BlakeParts)

def order (r k : ℕ) : ℕ := (c.sigma[r]!)[k]!

def G (m : Vector Word 16) (r i : ℕ) (v : Vector Word 16) (x y z w : ℕ) : Vector Word 16 :=
  let v := v.set! x (v[x]! + v[y]! + m[c.order r (2 * i + 0)]!)
  let v := v.set! w (rotr64 (v[w]! ^^^ v[x]!) 32)
  let v := v.set! z (v[z]! + v[w]!)
  let v := v.set! y (rotr64 (v[y]! ^^^ v[z]!) 24)
  let v := v.set! x (v[x]! + v[y]! + m[c.order r (2 * i + 1)]!)
  let v := v.set! w (rotr64 (v[w]! ^^^ v[x]!) 16)
  let v := v.set! z (v[z]! + v[w]!)
  v.set! y (rotr64 (v[y]! ^^^ v[z]!) 63)

def round (m : Vector Word 16) (r : ℕ) (v : Vector Word 16) : Vector Word 16 :=
  let v := c.G m r 0 v 0 4 8 12
  let v := c.G m r 1 v 1 5 9 13
  let v := c.G m r 2 v 2 6 10 14
  let v := c.G m r 3 v 3 7 11 15
  let v := c.G m r 4 v 0 5 10 15
  let v := c.G m r 5 v 1 6 11 12
  let v := c.G m r 6 v 2 7 8 13
  c.G m r 7 v 3 4 9 14

/-- An object is initialised again for each hash; the bytes in its buffer stay. -/
def init (s : Blake2b) (outlen : ℕ) : Blake2b where
  h := c.IV.set! 0 (c.IV[0]! ^^^ (BitVec.ofNat 64 outlen ||| 1 <<< 16 ||| 1 <<< 24))
  t := #v[0, 0]
  buf := s.buf
  bufLen := 0
  bufLen_le := Nat.zero_le _

def compress (s : Blake2b) (block : Vector Byte 128) (f0 : Word) : Blake2b :=
  let m : Vector Word 16 := Vector.ofFn fun i => c.load64 block (i * 8)
  let v : Vector Word 16 := s.h ++ c.IV
  let v := v.set! 12 (v[12]! ^^^ s.t[0]!)
  let v := v.set! 13 (v[13]! ^^^ s.t[1]!)
  let v := v.set! 14 (v[14]! ^^^ f0)
  let v := Nat.fold 12 (fun r _ => c.round m r) v
  { s with h := s.h.mapIdx fun i x => x ^^^ (v[i]! ^^^ v[i + 8]!) }

def nextBlock (s : Blake2b) (block : Vector Byte 128) : Blake2b :=
  c.compress (s.incrementCounter 128) block 0

/-- The loop over the blocks of the input that do not go through the buffer, and what follows. -/
def absorb (s : Blake2b) (bin : List Byte) (hbuf : s.bufLen = 0) : Blake2b :=
  if h : 128 < bin.length then absorb (c.nextBlock s (blockOf bin h.le)) (bin.drop 128) hbuf
  else s.append bin (by omega)
termination_by bin.length

def update (s : Blake2b) (input : List Byte) : Blake2b :=
  if h : 128 < s.bufLen + input.length then
    let left := 128 - s.bufLen
    let buf := copyTo s.buf s.bufLen (input.take left)
    let s := { s with buf := buf, bufLen := 0, bufLen_le := Nat.zero_le _ }
    c.absorb (c.nextBlock s buf) (input.drop left) rfl
  else s.append input (by omega)

def lastBlock (s : Blake2b) : Blake2b :=
  let s := s.incrementCounter (BitVec.ofNat 64 s.bufLen)
  let buf := s.buf.mapIdx fun k b => if k < s.bufLen then b else 0
  c.compress { s with buf := buf } buf 0xFFFFFFFFFFFFFFFF

def stored (s : Blake2b) : List Byte := s.h.toList.flatMap c.store64

theorem rotr64_eq (x : Word) {n : ℕ} (hn : n < 64) : rotr64 x n = x.rotateRight n := by
  rw [BitVec.rotateRight_def, Nat.mod_eq_of_lt hn, rotr64]

theorem G_eq (m : Vector Word 16) (r i : ℕ) (v : Vector Word 16) (x y z w : Fin 16) :
    c.G m r i v x y z w =
      Blake2.blake2b.G v x y z w m[c.order r (2 * i)]! m[c.order r (2 * i + 1)]! := by
  have hget : ∀ (u : Vector Word 16) (k : Fin 16), u[k.val]! = u[k] :=
    fun u k => getElem!_pos u k.val k.isLt
  simp only [G, Blake2.Variant.G, Blake2.blake2b, rotr64_eq _ (by decide : 32 < 64),
    rotr64_eq _ (by decide : 24 < 64), rotr64_eq _ (by decide : 16 < 64),
    rotr64_eq _ (by decide : 63 < 64), Nat.add_zero, Blake2.set!_eq_set _ x.isLt,
    Blake2.set!_eq_set _ y.isLt, Blake2.set!_eq_set _ z.isLt, Blake2.set!_eq_set _ w.isLt, hget]

theorem order_eq {r k : ℕ} (hr : r < 12) (hk : k < 16) :
    c.order r k = (Blake2.SIGMA[r % 10][k]).val := by
  have hrow : c.sigma[r]! = (Blake2.messageOrder r).toArray := Array.ext' (c.sigma_eq r hr)
  rw [order, hrow, getElem!_pos _ k (by simpa [Blake2.messageOrder] using hk)]
  simp only [Blake2.messageOrder, List.getElem_toArray, List.getElem_map, Vector.getElem_toList]

theorem round_eq (m : Vector Word 16) {r : ℕ} (hr : r < 12) (v : Vector Word 16) :
    c.round m r v = Blake2.blake2b.round m r v := by
  have hword : ∀ k (hk : k < 16), m[c.order r k]! = m[Blake2.SIGMA[r % 10][k]] := by
    intro k hk
    rw [order_eq c hr hk, getElem!_pos m _ (Fin.isLt _)]
    rfl
  have hG : ∀ (i x y z w : ℕ) (hi : i < 8) (hx : x < 16) (hy : y < 16) (hz : z < 16) (hw : w < 16)
      (v : Vector Word 16), c.G m r i v x y z w =
      Blake2.blake2b.G v ⟨x, hx⟩ ⟨y, hy⟩ ⟨z, hz⟩ ⟨w, hw⟩ m[Blake2.SIGMA[r % 10][2 * i]]
        m[Blake2.SIGMA[r % 10][2 * i + 1]] := by
    intro i x y z w hi hx hy hz hw v
    rw [← hword _ (by omega), ← hword _ (by omega)]
    exact G_eq c m r i v ⟨x, hx⟩ ⟨y, hy⟩ ⟨z, hz⟩ ⟨w, hw⟩
  simp (disch := decide) only [round, hG]
  rfl

end BlakeParts

def IsBlock (data : List Byte) (q : ℕ) (block : Vector Byte 128) : Prop :=
  ∀ k (hk : k < 128), block[k] = data.getD (128 * q + k) 0

def countOf (n : ℕ) : Vector Word 2 := #v[BitVec.ofNat 64 n, BitVec.ofNat 64 (n / 2 ^ 64)]

/-- What an object holds after `data`: the blocks before block `q` are in the hash value, and
the bytes from there are in the buffer, which is empty only where there is no data. -/
structure Blake2b.Holds (s : Blake2b) (nn : ℕ) (data : List Byte) (q : ℕ) : Prop where
  h_eq : s.h = Blake2.blake2b.chain nn data q
  t_eq : s.t = countOf (128 * q)
  length_eq : data.length = 128 * q + s.bufLen
  buf_eq : ∀ k (hk : k < 128), k < s.bufLen → s.buf[k] = data.getD (128 * q + k) 0
  bufLen_pos : q = 0 ∨ 0 < s.bufLen

namespace BlakeParts
variable (c : BlakeParts) {data : List Byte} {q nn : ℕ} {block : Vector Byte 128} {s : Blake2b}

theorem load64_block (hblock : IsBlock data q block) {i : ℕ} (hi : i < 16) :
    c.load64 block (i * 8) = wordAt 64 data (16 * q + i) := by
  rw [c.load64_eq _ _ (by omega), wordAt]
  congr 1
  apply List.ext_getElem
  · simp only [List.length_take, List.length_drop, Vector.length_toList, List.length_map,
      List.length_range]
    omega
  · intro k hk hk'
    have hlt : k < 8 := by
      rw [List.length_take] at hk
      omega
    have hindex : 128 * q + (i * 8 + k) = 64 / 8 * (16 * q + i) + k := by omega
    simp only [List.getElem_take, List.getElem_drop, Vector.getElem_toList, List.getElem_map,
      List.getElem_range]
    rw [hblock _ (by omega), hindex]

theorem start_eq {t : ℕ} (ht : s.t = countOf t) (last : Bool) :
    let v : Vector Word 16 := s.h ++ c.IV
    let v := v.set! 12 (v[12]! ^^^ s.t[0]!)
    let v := v.set! 13 (v[13]! ^^^ s.t[1]!)
    v.set! 14 (v[14]! ^^^ if last then 0xFFFFFFFFFFFFFFFF else 0) = Blake2.start s.h t last := by
  have hget : ∀ (u : Vector Word 16) (k : ℕ) (hk : k < 16), u[k]! = u[k] :=
    fun u k hk => getElem!_pos u k hk
  have hlow : s.t[0]! = BitVec.ofNat 64 t := by
    rw [ht]
    rfl
  have hhigh : s.t[1]! = BitVec.ofNat 64 (t / 2 ^ 64) := by
    rw [ht]
    rfl
  rw [Blake2.start, ← c.IV_eq, hlow, hhigh]
  simp (disch := decide) only [Blake2.set!_eq_set, hget]
  cases last with
  | false =>
    have hzero : ∀ x : Word, x ^^^ 0 = x := fun x => BitVec.xor_zero
    rw [if_neg Bool.false_ne_true, if_neg Bool.false_ne_true, hzero]
    exact Vector.set_getElem_self _
  | true =>
    rw [if_pos rfl, if_pos rfl]
    congr 1
    exact BitVec.xor_allOnes

theorem compress_h (hblock : IsBlock data q block) {t : ℕ} (ht : s.t = countOf t) (last : Bool) :
    (c.compress s block (if last then 0xFFFFFFFFFFFFFFFF else 0)).h =
      Blake2.blake2b.F s.h (Blake2.block 64 data q) t last := by
  have hm : (Vector.ofFn fun i : Fin 16 => c.load64 block (i * 8)) = Blake2.block 64 data q := by
    apply Vector.ext
    intro i hi
    rw [Blake2.block, Vector.getElem_ofFn, Vector.getElem_ofFn, load64_block c hblock hi]
  have hrounds : (fun r (_ : r < 12) => c.round (Blake2.block 64 data q) r) =
      fun r _ v => Blake2.blake2b.round (Blake2.block 64 data q) r v := by
    funext r hr v
    exact round_eq c _ hr v
  have hget : ∀ (u : Vector Word 16) (k : ℕ) (hk : k < 16), u[k]! = u[k] :=
    fun u k hk => getElem!_pos u k hk
  have hstart := start_eq c ht last
  simp only at hstart
  simp only [compress, hm, hrounds, hstart, Blake2.Variant.F]
  apply Vector.ext
  intro i hi
  rw [Vector.getElem_mapIdx, Vector.getElem_ofFn, hget _ _ (by omega), hget _ _ (by omega),
    BitVec.xor_assoc]
  rfl

omit c in
theorem incrementCounter_t {n inc : ℕ} (ht : s.t = countOf n) (hinc : inc < 2 ^ 64) :
    (s.incrementCounter (BitVec.ofNat 64 inc)).t = countOf (n + inc) := by
  have hlow : s.t[0]! + BitVec.ofNat 64 inc = BitVec.ofNat 64 (n + inc) := by
    rw [ht, BitVec.ofNat_add]
    rfl
  have hhigh : s.t[1]! = BitVec.ofNat 64 (n / 2 ^ 64) := by
    rw [ht]
    rfl
  have hcarry : (BitVec.ofNat 64 (n + inc) < BitVec.ofNat 64 inc) ↔ 2 ^ 64 ≤ n % 2 ^ 64 + inc := by
    rw [BitVec.lt_def, BitVec.toNat_ofNat, BitVec.toNat_ofNat]
    omega
  have hword : BitVec.ofNat 64 (n / 2 ^ 64) +
      (if BitVec.ofNat 64 (n + inc) < BitVec.ofNat 64 inc then 1 else 0) =
      BitVec.ofNat 64 ((n + inc) / 2 ^ 64) := by
    split
    next h =>
      have hdiv : (n + inc) / 2 ^ 64 = n / 2 ^ 64 + 1 := by
        have := hcarry.mp h
        omega
      rw [hdiv, BitVec.ofNat_add]
      rfl
    next h =>
      have hdiv : (n + inc) / 2 ^ 64 = n / 2 ^ 64 := by
        have := mt hcarry.mpr h
        omega
      rw [hdiv]
      exact BitVec.add_zero _
  simp only [Blake2b.incrementCounter, hlow, hhigh, hword, countOf]

theorem init_holds (s : Blake2b) (hnn : nn ≤ 64) : (c.init s nn).Holds nn [] 0 where
  h_eq := by
    have hparam : BitVec.ofNat 64 nn ||| 1 <<< 16 ||| 1 <<< 24 =
        0x01010000#64 ^^^ BitVec.ofNat 64 nn := by
      interval_cases nn <;> rfl
    rw [init, Blake2.Variant.chain, hparam, ← BitVec.xor_assoc, c.IV_eq,
      Blake2.set!_eq_set _ (by decide), getElem!_pos (Blake2.IV 64) 0 (by decide)]
    apply Vector.ext
    intro i hi
    rw [Vector.getElem_set, Vector.getElem_mapIdx]
    split
    next h =>
      subst h
      rfl
    next h => rw [if_neg (Ne.symm h)]
  t_eq := rfl
  length_eq := rfl
  buf_eq := by
    intro k _ hk
    exact absurd hk (Nat.not_lt_zero k)
  bufLen_pos := Or.inl rfl

theorem nextBlock_h (hh : s.h = Blake2.blake2b.chain nn data q) (ht : s.t = countOf (128 * q))
    (hblock : IsBlock data q block) :
    (c.nextBlock s block).h = Blake2.blake2b.chain nn data (q + 1) := by
  have hcount : (s.incrementCounter 128).t = countOf ((q + 1) * Blake2.blockBytes 64) := by
    have hnext := incrementCounter_t ht (by decide : 128 < 2 ^ 64)
    rwa [← Nat.mul_succ, Nat.mul_comm] at hnext
  have hcompress := compress_h c hblock hcount false
  rw [Blake2.Variant.chain, ← hh]
  exact hcompress

theorem nextBlock_t (ht : s.t = countOf (128 * q)) :
    (c.nextBlock s block).t = countOf (128 * (q + 1)) :=
  incrementCounter_t ht (by decide : 128 < 2 ^ 64)

omit c in
theorem getElem_copyTo (buf : Vector Byte 128) (start : ℕ) (src : List Byte) {k : ℕ}
    (hk : k < 128) :
    (copyTo buf start src)[k] = if k < start then buf[k] else src.getD (k - start) buf[k] := by
  rw [copyTo, Vector.getElem_mapIdx]

/-- The loop goes on with the bytes from block `q`, of which there are some. -/
theorem absorb_holds (s : Blake2b) (bin : List Byte) (hbuf : s.bufLen = 0)
    (hh : s.h = Blake2.blake2b.chain nn data q) (ht : s.t = countOf (128 * q))
    (hbin : bin = data.drop (128 * q)) (hpos : 0 < bin.length) :
    ∃ q', (c.absorb s bin hbuf).Holds nn data q' := by
  induction s, bin, hbuf using absorb.induct c generalizing q with
  | case1 s bin hbuf h ih =>
    rw [absorb, dif_pos h]
    have hblock : IsBlock data q (blockOf bin h.le) := by
      intro k hk
      have hlt : k < bin.length := by omega
      rw [blockOf, Vector.getElem_ofFn, List.getD_eq_getElem?_getD, ← List.getElem?_drop, ← hbin,
        List.getElem?_eq_getElem hlt, Option.getD_some]
      rfl
    apply ih (q := q + 1) (nextBlock_h c hh ht hblock) (nextBlock_t c ht)
    · rw [hbin, List.drop_drop, Nat.mul_succ]
    · rw [List.length_drop]
      omega
  | case2 s bin hbuf h =>
    rw [absorb, dif_neg h]
    have hlength : bin.length = data.length - 128 * q := by rw [hbin, List.length_drop]
    refine ⟨q, hh, ht, ?_, ?_, Or.inr ?_⟩
    · change data.length = 128 * q + (s.bufLen + bin.length)
      omega
    · intro k hk hlt
      change k < s.bufLen + bin.length at hlt
      change (copyTo s.buf s.bufLen bin)[k] = _
      have hk' : k < bin.length := by omega
      rw [getElem_copyTo _ _ _ hk, hbuf, if_neg (Nat.not_lt_zero k), Nat.sub_zero,
        List.getD_eq_getElem?_getD, List.getD_eq_getElem?_getD, ← List.getElem?_drop, ← hbin,
        List.getElem?_eq_getElem hk', Option.getD_some, Option.getD_some]
    · change 0 < s.bufLen + bin.length
      omega

theorem update_holds (hs : s.Holds nn data q) (input : List Byte) :
    ∃ q', (c.update s input).Holds nn (data ++ input) q' := by
  have hle := s.bufLen_le
  have hchain : s.h = Blake2.blake2b.chain nn (data ++ input) q := by
    have hfull : q * Blake2.blockBytes 64 ≤ data.length := by
      rw [hs.length_eq, Nat.mul_comm]
      exact Nat.le_add_right _ _
    rw [Blake2.blake2b.chain_append nn input hfull, hs.h_eq]
  -- the buffer with the first bytes of the input behind it
  have hcopy : ∀ src, (∀ k < 128 - s.bufLen, k < src.length → src[k]? = input[k]?) →
      ∀ k (hk : k < 128), k < s.bufLen + src.length →
      (copyTo s.buf s.bufLen src)[k] = (data ++ input).getD (128 * q + k) 0 := by
    intro src hsrc k hk hlt
    rw [getElem_copyTo _ _ _ hk]
    split
    next h => rw [hs.buf_eq k hk h, List.getD_append _ _ _ _ (by rw [hs.length_eq]; omega)]
    next h =>
      have hindex : 128 * q + k - data.length = k - s.bufLen := by
        rw [hs.length_eq]
        omega
      have hin : k - s.bufLen < src.length := by omega
      have heq := hsrc (k - s.bufLen) (by omega) hin
      rw [List.getElem?_eq_getElem hin] at heq
      rw [List.getD_append_right _ _ _ _ (by rw [hs.length_eq]; omega), hindex,
        List.getD_eq_getElem?_getD, List.getD_eq_getElem?_getD, ← heq,
        List.getElem?_eq_getElem hin, Option.getD_some, Option.getD_some]
  rw [update]
  split
  next h =>
    have htake : (input.take (128 - s.bufLen)).length = 128 - s.bufLen := by
      rw [List.length_take]
      omega
    have hblock : IsBlock (data ++ input) q
        (copyTo s.buf s.bufLen (input.take (128 - s.bufLen))) := by
      intro k hk
      apply hcopy _ _ k hk (by omega)
      intro j hj _
      exact List.getElem?_take_of_lt hj
    let left := 128 - s.bufLen
    let filled := copyTo s.buf s.bufLen (input.take left)
    let started : Blake2b := { s with buf := filled, bufLen := 0, bufLen_le := Nat.zero_le _ }
    apply absorb_holds c (c.nextBlock started filled) (input.drop left) rfl
      (nextBlock_h c hchain hs.t_eq hblock) (nextBlock_t c hs.t_eq)
    · have hdrop : 128 * (q + 1) = data.length + (128 - s.bufLen) := by
        rw [hs.length_eq]
        omega
      rw [hdrop, ← List.drop_drop, List.drop_left]
    · rw [List.length_drop]
      omega
  next h =>
    refine ⟨q, hchain, hs.t_eq, ?_, ?_, ?_⟩
    · change (data ++ input).length = 128 * q + (s.bufLen + input.length)
      rw [List.length_append, hs.length_eq]
      omega
    · exact hcopy input fun k _ _ => rfl
    · exact hs.bufLen_pos.imp_right fun h => Nat.add_pos_left h _

theorem stored_eq (s : Blake2b) : c.stored s = ofWords s.h.toList := by
  have hstore : c.store64 = fun v => bytes 8 v.toNat := funext c.store64_eq
  rw [stored, hstore]
  rfl

theorem lastBlock_eq (hs : s.Holds nn data q) :
    (c.stored (c.lastBlock s)).take nn = Blake2.blake2b.hash nn data := by
  have hle := s.bufLen_le
  have hlast : Blake2.lastBlock 64 data = q := by
    rw [Blake2.lastBlock, show Blake2.blockBytes 64 = 128 from rfl]
    have := hs.length_eq
    rcases hs.bufLen_pos with h | h <;> omega
  have hcount : (s.incrementCounter (BitVec.ofNat 64 s.bufLen)).t = countOf data.length := by
    rw [hs.length_eq]
    exact incrementCounter_t hs.t_eq (by omega)
  have hblock : IsBlock data q (s.buf.mapIdx fun k b => if k < s.bufLen then b else 0) := by
    intro k hk
    rw [Vector.getElem_mapIdx]
    split
    next h => exact hs.buf_eq k hk h
    next h => rw [List.getD_eq_default _ _ (by rw [hs.length_eq]; omega)]
  let filled : Blake2b :=
    { s.incrementCounter (BitVec.ofNat 64 s.bufLen) with
      buf := s.buf.mapIdx fun k b => if k < s.bufLen then b else 0 }
  have hfinal : (c.compress filled filled.buf 0xFFFFFFFFFFFFFFFF).h =
      Blake2.blake2b.F filled.h (Blake2.block 64 data q) data.length true :=
    compress_h c hblock hcount true
  have hh : filled.h = Blake2.blake2b.chain nn data q := hs.h_eq
  rw [hh] at hfinal
  rw [stored_eq, Blake2.Variant.hash, Blake2.Variant.final, hlast, ← hfinal]
  rfl

/-- However the data is cut into pieces, and whatever the object hashed before. -/
theorem foldl_update_holds (s : Blake2b) (hnn : nn ≤ 64) (pieces : List (List Byte)) :
    ∃ q, (pieces.foldl c.update (c.init s nn)).Holds nn pieces.flatten q := by
  induction pieces using List.reverseRecOn with
  | nil => exact ⟨0, init_holds c s hnn⟩
  | append_singleton pieces piece ih =>
    obtain ⟨q, hq⟩ := ih
    rw [List.foldl_append, List.flatten_append, List.flatten_singleton]
    exact update_holds c hq piece

end BlakeParts

def blake2bIV : Vector Word 8 := #v[
  0x6a09e667f3bcc908, 0xbb67ae8584caa73b,
  0x3c6ef372fe94f82b, 0xa54ff53a5f1d36f1,
  0x510e527fade682d1, 0x9b05688c2b3e6c1f,
  0x1f83d9abfb41bd6b, 0x5be0cd19137e2179]

def blake2bSigma : Array (Array ℕ) := #[
  #[0, 1, 2, 3, 4, 5, 6, 7, 8, 9, 10, 11, 12, 13, 14, 15],
  #[14, 10, 4, 8, 9, 15, 13, 6, 1, 12, 0, 2, 11, 7, 5, 3],
  #[11, 8, 12, 0, 5, 2, 15, 13, 10, 14, 3, 6, 7, 1, 9, 4],
  #[7, 9, 3, 1, 13, 12, 11, 14, 2, 6, 5, 10, 4, 0, 15, 8],
  #[9, 0, 5, 7, 2, 4, 10, 15, 14, 1, 11, 12, 6, 8, 3, 13],
  #[2, 12, 6, 10, 0, 11, 8, 3, 4, 13, 7, 5, 15, 14, 1, 9],
  #[12, 5, 1, 15, 14, 13, 4, 10, 0, 7, 6, 3, 9, 2, 8, 11],
  #[13, 11, 7, 14, 12, 1, 3, 9, 5, 0, 15, 4, 8, 6, 2, 10],
  #[6, 15, 14, 9, 11, 3, 0, 8, 12, 2, 13, 7, 1, 4, 10, 5],
  #[10, 2, 8, 4, 7, 6, 1, 5, 15, 11, 9, 14, 3, 12, 13, 0],
  #[0, 1, 2, 3, 4, 5, 6, 7, 8, 9, 10, 11, 12, 13, 14, 15],
  #[14, 10, 4, 8, 9, 15, 13, 6, 1, 12, 0, 2, 11, 7, 5, 3]]

/-- A copy of eight bytes on a little-endian machine. -/
def load64 (src : Vector Byte 128) (i : ℕ) : Word := word 64 ((src.toList.drop i).take 8)

def store64 (v : Word) : List Byte := bytes 8 v.toNat

theorem blake2bIV_toList : blake2bIV.toList = (Sha2.rootTable 64 2 5).take 8 := by decide +kernel

theorem blake2bIV_eq : blake2bIV = Blake2.IV 64 := by
  apply Vector.ext
  intro i hi
  rw [Sha2.getElem_table (by decide) blake2bIV_toList hi, Blake2.IV, Vector.getElem_ofFn]

/-- The last two rows of the table are the first two again. -/
theorem blake2bSigma_eq : ∀ r < 12, (blake2bSigma[r]!).toList = Blake2.messageOrder r := by decide

def hostParts : BlakeParts where
  IV := blake2bIV
  sigma := blake2bSigma
  load64 := load64
  store64 := store64
  IV_eq := blake2bIV_eq
  sigma_eq := blake2bSigma_eq
  load64_eq _ _ _ := rfl
  store64_eq _ := rfl

def Blake2b.init : Blake2b → ℕ → Blake2b := hostParts.init

def Blake2b.update : Blake2b → List Byte → Blake2b := hostParts.update

/-- `final` writes the whole hash value, or a part of it through a buffer. -/
def Blake2b.final (s : Blake2b) (outLen : ℕ) : List Byte × Blake2b :=
  let s := hostParts.lastBlock s
  (if outLen = 64 then hostParts.stored s else (hostParts.stored s).take outLen, s)

/-- The host hashes the data as the RFC does, however it is cut into pieces. -/
theorem final_foldl_update (s : Blake2b) {nn : ℕ} (hnn : nn ≤ 64) (pieces : List (List Byte)) :
    ((pieces.foldl Blake2b.update (s.init nn)).final nn).1 =
      Blake2.blake2b.hash nn pieces.flatten := by
  obtain ⟨q, hq⟩ := hostParts.foldl_update_holds s hnn pieces
  rw [← hostParts.lastBlock_eq hq, Blake2b.final]
  split
  next h =>
    rw [h]
    refine (List.take_of_length_le ?_).symm
    rw [BlakeParts.stored_eq, length_ofWords, Vector.length_toList]
  next h => rfl

end XnMiner
