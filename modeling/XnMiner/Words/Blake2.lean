import XnMiner.Words.LittleEndian
import XnMiner.Words.Sha2

/-! # The BLAKE2 hash functions

The hash functions of RFC 7693 without a key, over words of `w` bits: the constants, the mixing
function, the compression of a block, and the hash of a string of bytes as a chain of compressions.
-/
namespace Blake2
open LittleEndian

variable {w : ℕ}

/-- What the width of a word does not settle. -/
structure Variant (w : ℕ) where
  rounds : ℕ
  R1 : ℕ
  R2 : ℕ
  R3 : ℕ
  R4 : ℕ

def blake2b : Variant 64 where
  rounds := 12
  R1 := 32
  R2 := 24
  R3 := 16
  R4 := 63

theorem neZero_sixteen : NeZero 16 := ⟨by decide⟩

attribute [local instance] neZero_sixteen

/-- The message words of a round, in the order in which it mixes them in. -/
def SIGMA : Vector (Vector (Fin 16) 16) 10 := #v[
  #v[0, 1, 2, 3, 4, 5, 6, 7, 8, 9, 10, 11, 12, 13, 14, 15],
  #v[14, 10, 4, 8, 9, 15, 13, 6, 1, 12, 0, 2, 11, 7, 5, 3],
  #v[11, 8, 12, 0, 5, 2, 15, 13, 10, 14, 3, 6, 7, 1, 9, 4],
  #v[7, 9, 3, 1, 13, 12, 11, 14, 2, 6, 5, 10, 4, 0, 15, 8],
  #v[9, 0, 5, 7, 2, 4, 10, 15, 14, 1, 11, 12, 6, 8, 3, 13],
  #v[2, 12, 6, 10, 0, 11, 8, 3, 4, 13, 7, 5, 15, 14, 1, 9],
  #v[12, 5, 1, 15, 14, 13, 4, 10, 0, 7, 6, 3, 9, 2, 8, 11],
  #v[13, 11, 7, 14, 12, 1, 3, 9, 5, 0, 15, 4, 8, 6, 2, 10],
  #v[6, 15, 14, 9, 11, 3, 0, 8, 12, 2, 13, 7, 1, 4, 10, 5],
  #v[10, 2, 8, 4, 7, 6, 1, 5, 15, 11, 9, 14, 3, 12, 13, 0]]

def messageOrder (i : ℕ) : List ℕ := SIGMA[i % 10].toList.map Fin.val

noncomputable def IV (w : ℕ) : Vector (BitVec w) 8 :=
  Vector.ofFn fun i => Sha2.rootFraction w 2 (Nat.nth Nat.Prime i)

theorem set!_eq_set {α : Type*} {n : ℕ} (xs : Vector α n) {i : ℕ} (hi : i < n) (x : α) :
    xs.set! i x = xs.set i x hi := by
  apply Vector.ext
  intro j hj
  rw [Vector.getElem_set, Vector.getElem_set!]

def Variant.G (p : Variant w) (v : Vector (BitVec w) 16) (a b c d : Fin 16) (x y : BitVec w) :
    Vector (BitVec w) 16 :=
  let v := v.set a (v[a] + v[b] + x)
  let v := v.set d ((v[d] ^^^ v[a]).rotateRight p.R1)
  let v := v.set c (v[c] + v[d])
  let v := v.set b ((v[b] ^^^ v[c]).rotateRight p.R2)
  let v := v.set a (v[a] + v[b] + y)
  let v := v.set d ((v[d] ^^^ v[a]).rotateRight p.R3)
  let v := v.set c (v[c] + v[d])
  v.set b ((v[b] ^^^ v[c]).rotateRight p.R4)

def Variant.round (p : Variant w) (m : Vector (BitVec w) 16) (i : ℕ)
    (v : Vector (BitVec w) 16) : Vector (BitVec w) 16 :=
  let s := SIGMA[i % 10]
  let v := p.G v 0 4 8 12 m[s[0]] m[s[1]]
  let v := p.G v 1 5 9 13 m[s[2]] m[s[3]]
  let v := p.G v 2 6 10 14 m[s[4]] m[s[5]]
  let v := p.G v 3 7 11 15 m[s[6]] m[s[7]]
  let v := p.G v 0 5 10 15 m[s[8]] m[s[9]]
  let v := p.G v 1 6 11 12 m[s[10]] m[s[11]]
  let v := p.G v 2 7 8 13 m[s[12]] m[s[13]]
  p.G v 3 4 9 14 m[s[14]] m[s[15]]

/-- The work vector before the rounds, for a block that ends after `t` bytes. -/
noncomputable def start (h : Vector (BitVec w) 8) (t : ℕ) (last : Bool) : Vector (BitVec w) 16 :=
  let v := h ++ IV w
  let v := v.set 12 (v[12] ^^^ BitVec.ofNat w t)
  let v := v.set 13 (v[13] ^^^ BitVec.ofNat w (t / 2 ^ w))
  if last then v.set 14 (~~~v[14]) else v

noncomputable def Variant.F (p : Variant w) (h : Vector (BitVec w) 8)
    (m : Vector (BitVec w) 16) (t : ℕ) (last : Bool) : Vector (BitVec w) 8 :=
  let v := Nat.fold p.rounds (fun i _ v => p.round m i v) (start h t last)
  Vector.ofFn fun i => h[i] ^^^ v[i] ^^^ v[i.val + 8]

def blockBytes (w : ℕ) : ℕ := 16 * (w / 8)

def block (w : ℕ) (data : List (BitVec 8)) (i : ℕ) : Vector (BitVec w) 16 :=
  Vector.ofFn fun j => wordAt w data (16 * i + j)

/-- The index of the last block; there is one for no data too. -/
def lastBlock (w : ℕ) (data : List (BitVec 8)) : ℕ := (data.length - 1) / blockBytes w

noncomputable def Variant.chain (p : Variant w) (nn : ℕ) (data : List (BitVec 8)) :
    ℕ → Vector (BitVec w) 8
  | 0 => (IV w).mapIdx fun i x => if i = 0 then x ^^^ 0x01010000#w ^^^ BitVec.ofNat w nn else x
  | i + 1 => p.F (p.chain nn data i) (block w data i) ((i + 1) * blockBytes w) false

noncomputable def Variant.final (p : Variant w) (nn : ℕ) (data : List (BitVec 8)) :
    Vector (BitVec w) 8 :=
  p.F (p.chain nn data (lastBlock w data)) (block w data (lastBlock w data)) data.length true

noncomputable def Variant.hash (p : Variant w) (nn : ℕ) (data : List (BitVec 8)) :
    List (BitVec 8) :=
  (ofWords (p.final nn data).toList).take nn

theorem Variant.length_hash (p : Variant w) {nn : ℕ} (hnn : nn ≤ w / 8 * 8)
    (data : List (BitVec 8)) : (p.hash nn data).length = nn := by
  rw [hash, List.length_take, length_ofWords, Vector.length_toList]
  omega

/-- A full block does not depend on what stands behind it. -/
theorem block_append {data : List (BitVec 8)} (more : List (BitVec 8)) {i : ℕ}
    (h : (i + 1) * blockBytes w ≤ data.length) : block w (data ++ more) i = block w data i := by
  unfold block
  congr 1
  funext j
  apply wordAt_congr
  intro k hk
  have hbytes : w / 8 * (16 * i + j) + k < (i + 1) * blockBytes w := by
    have hj : w / 8 * j.val ≤ w / 8 * 15 := Nat.mul_le_mul_left _ (by omega)
    have hsplit : w / 8 * (16 * i + j) = i * blockBytes w + w / 8 * j := by
      rw [blockBytes]
      ring
    have hnext : (i + 1) * blockBytes w = i * blockBytes w + w / 8 * 15 + w / 8 := by
      rw [blockBytes]
      ring
    omega
  exact List.getD_append _ _ _ _ (by omega)

theorem Variant.chain_append (p : Variant w) (nn : ℕ) {data : List (BitVec 8)}
    (more : List (BitVec 8)) {i : ℕ} (h : i * blockBytes w ≤ data.length) :
    p.chain nn (data ++ more) i = p.chain nn data i := by
  induction i with
  | zero => rfl
  | succ i ih =>
    have hbefore : i * blockBytes w ≤ data.length :=
      (Nat.mul_le_mul_right _ i.le_succ).trans h
    rw [chain, chain, ih hbefore, block_append more h]

end Blake2
