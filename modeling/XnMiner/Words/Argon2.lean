import XnMiner.Words.Blake2
import XnMiner.Words.Quads

/-! # The Argon2 functions

The memory-hard functions of RFC 9106: the permutation of a block, the compression of two blocks,
the hash of any length, and the order and the references in which the memory is filled.
-/
namespace Argon2
open LittleEndian

/-- The mixing function with products of the low halves. -/
def fBlaMka (x y : BitVec 64) : BitVec 64 :=
  x + y + 2 * ((x.setWidth 32).setWidth 64 * (y.setWidth 32).setWidth 64)

def GB (q : Quad (BitVec 64)) : Quad (BitVec 64) :=
  let a := fBlaMka q.a q.b
  let d := (q.d ^^^ a).rotateRight 32
  let c := fBlaMka q.c d
  let b := (q.b ^^^ c).rotateRight 24
  let a := fBlaMka a b
  let d := (d ^^^ a).rotateRight 16
  let c := fBlaMka c d
  let b := (b ^^^ c).rotateRight 63
  ⟨a, b, c, d⟩

attribute [local instance] Blake2.neZero_sixteen

def columns : List (Quad (Fin 16)) := [⟨0, 4, 8, 12⟩, ⟨1, 5, 9, 13⟩, ⟨2, 6, 10, 14⟩, ⟨3, 7, 11, 15⟩]

def diagonals : List (Quad (Fin 16)) :=
  [⟨0, 5, 10, 15⟩, ⟨1, 6, 11, 12⟩, ⟨2, 7, 8, 13⟩, ⟨3, 4, 9, 14⟩]

/-- The permutation of eight registers of two words. -/
def P (v : Vector (BitVec 64) 16) : Vector (BitVec 64) 16 :=
  Quad.onEach diagonals GB (Quad.onEach columns GB v)

theorem columns_place : ∀ t k : Fin 4,
    (columns[t]).get k = ⟨4 * k.val + t.val, by omega⟩ := by decide

theorem diagonals_place : ∀ t k : Fin 4,
    (diagonals[t]).get k = ⟨4 * k.val + (t + k).val, by omega⟩ := by decide

theorem getElem_columns (v : Vector (BitVec 64) 16) (t k : Fin 4) :
    (Quad.onEach columns GB v)[4 * k.val + t.val] = (GB ((columns[t]).read v)).get k :=
  Quad.getElem_onEach_of_eq (by decide) (List.getElem_mem _) _ (columns_place t k)

theorem getElem_P (v : Vector (BitVec 64) 16) (t k : Fin 4) :
    (P v)[4 * k.val + (t + k).val] =
      (GB ((diagonals[t]).read (Quad.onEach columns GB v))).get k :=
  Quad.getElem_onEach_of_eq (by decide) (List.getElem_mem _) _ (diagonals_place t k)

abbrev Block := Vector (BitVec 64) 128

def Block.zero : Block := Vector.replicate 128 0

def Block.xor (x y : Block) : Block := Vector.zipWith (· ^^^ ·) x y

@[simp] theorem Block.getElem_xor (x y : Block) {i : ℕ} (hi : i < 128) :
    (x.xor y)[i] = x[i] ^^^ y[i] := Vector.getElem_zipWith hi

@[simp] theorem Block.getElem_zero {i : ℕ} (hi : i < 128) : Block.zero[i] = 0 :=
  Vector.getElem_replicate hi

theorem Block.zero_xor (x : Block) : Block.zero.xor x = x := by
  apply Vector.ext
  intro i hi
  rw [getElem_xor, getElem_zero]
  exact BitVec.zero_xor

def row (b : Block) (r : Fin 8) : Vector (BitVec 64) 16 := Vector.ofFn fun k => b[16 * r.val + k]

def column (b : Block) (c : Fin 8) : Vector (BitVec 64) 16 :=
  Vector.ofFn fun k => b[16 * (k.val / 2) + (2 * c + k % 2)]

def rowwise (b : Block) : Block := Vector.ofFn fun i => (P (row b ⟨i / 16, by omega⟩))[i.val % 16]

def columnwise (b : Block) : Block :=
  Vector.ofFn fun i => (P (column b ⟨i % 16 / 2, by omega⟩))[2 * (i.val / 16) + i % 2]

theorem getElem_row (b : Block) (r : Fin 8) {i : ℕ} (hi : i < 16) :
    (row b r)[i] = b[16 * r.val + i] := Vector.getElem_ofFn hi

theorem getElem_column (b : Block) (c : Fin 8) {i : ℕ} (hi : i < 16) :
    (column b c)[i] = b[16 * (i / 2) + (2 * c.val + i % 2)] := Vector.getElem_ofFn hi

theorem getElem_rowwise (b : Block) (r : Fin 8) {i : ℕ} (hi : i < 16) :
    (rowwise b)[16 * r.val + i] = (P (row b r))[i] := by
  have hrow : (⟨(16 * r.val + i) / 16, by omega⟩ : Fin 8) = r := by
    apply Fin.ext
    simp only
    omega
  have hplace : (16 * r.val + i) % 16 = i := by omega
  simp only [rowwise, Vector.getElem_ofFn, hrow, hplace]

theorem getElem_columnwise (b : Block) (c : Fin 8) {i : ℕ} (hi : i < 16) :
    (columnwise b)[16 * (i / 2) + (2 * c.val + i % 2)] = (P (column b c))[i] := by
  have hcolumn : (⟨(16 * (i / 2) + (2 * c.val + i % 2)) % 16 / 2, by omega⟩ : Fin 8) = c := by
    apply Fin.ext
    simp only
    omega
  have hplace : 2 * ((16 * (i / 2) + (2 * c.val + i % 2)) / 16) +
      (16 * (i / 2) + (2 * c.val + i % 2)) % 2 = i := by
    omega
  simp only [columnwise, Vector.getElem_ofFn, hcolumn, hplace]

def G (x y : Block) : Block := (columnwise (rowwise (x.xor y))).xor (x.xor y)

def LE32 (n : ℕ) : List (BitVec 8) := bytes 4 n

/-- The values `V` whose halves are put together. -/
noncomputable def chained (T : ℕ) (A : List (BitVec 8)) : ℕ → List (BitVec 8)
  | 0 => Blake2.blake2b.hash 64 (LE32 T ++ A)
  | i + 1 => Blake2.blake2b.hash 64 (chained T A i)

noncomputable def hashLong (T : ℕ) (A : List (BitVec 8)) : List (BitVec 8) :=
  if T ≤ 64 then Blake2.blake2b.hash T (LE32 T ++ A)
  else
    let r := (T + 31) / 32 - 2
    (List.range r).flatMap (fun i => (chained T A i).take 32) ++
      Blake2.blake2b.hash (T - 32 * r) (chained T A (r - 1))

theorem length_chained (T : ℕ) (A : List (BitVec 8)) (i : ℕ) : (chained T A i).length = 64 := by
  cases i <;> exact Blake2.blake2b.length_hash (by decide) _

theorem length_hashLong (T : ℕ) (A : List (BitVec 8)) : (hashLong T A).length = T := by
  unfold hashLong
  split
  next h => exact Blake2.blake2b.length_hash (by omega) _
  next h =>
    have hhalves : ∀ r, ((List.range r).flatMap fun i => (chained T A i).take 32).length =
        32 * r := by
      intro r
      induction r with
      | zero => rfl
      | succ r ih =>
        rw [List.range_succ, List.flatMap_append, List.length_append, ih, List.flatMap_singleton,
          List.length_take, length_chained]
        omega
    have hrest : T - 32 * ((T + 31) / 32 - 2) ≤ 64 / 8 * 8 := by omega
    rw [List.length_append, hhalves, Blake2.blake2b.length_hash hrest]
    omega

inductive Kind
  | d
  | i
  | id

def Kind.code : Kind → ℕ
  | d => 0
  | i => 1
  | id => 2

/-- The parameters: `p` lanes, `m` kibibytes, `t` passes, a tag of `T` bytes, version `v`. -/
structure Params where
  kind : Kind
  p : ℕ
  m : ℕ
  t : ℕ
  T : ℕ
  v : ℕ

def Params.segment (c : Params) : ℕ := c.m / (4 * c.p)

def Params.q (c : Params) : ℕ := 4 * c.segment

structure Inputs where
  P : List (BitVec 8)
  S : List (BitVec 8)
  K : List (BitVec 8)
  X : List (BitVec 8)

noncomputable def Params.H0 (c : Params) (x : Inputs) : List (BitVec 8) :=
  Blake2.blake2b.hash 64 (LE32 c.p ++ LE32 c.T ++ LE32 c.m ++ LE32 c.t ++ LE32 c.v ++
    LE32 c.kind.code ++ LE32 x.P.length ++ x.P ++ LE32 x.S.length ++ x.S ++
    LE32 x.K.length ++ x.K ++ LE32 x.X.length ++ x.X)

def Block.ofBytes (bs : List (BitVec 8)) : Block := Vector.ofFn fun j => wordAt 64 bs j

def Block.toBytes (b : Block) : List (BitVec 8) := ofWords b.toList

theorem Block.toBytes_ofBytes {bs : List (BitVec 8)} (h : bs.length = 1024) :
    (Block.ofBytes bs).toBytes = bs := by
  have hlist : (Block.ofBytes bs).toList = (List.range 128).map (wordAt 64 bs) := by
    apply List.ext_getElem (by simp [ofBytes])
    intro j hj hj'
    simp [ofBytes]
  rw [Block.toBytes, hlist]
  exact ofWords_wordAt (by decide) h

noncomputable def firstBlock (h0 : List (BitVec 8)) (i j : ℕ) : Block :=
  Block.ofBytes (hashLong 1024 (h0 ++ LE32 j ++ LE32 i))

abbrev Memory := ℕ → ℕ → Block

noncomputable def Params.start (c : Params) (x : Inputs) : Memory := fun i j =>
  if j < 2 then firstBlock (c.H0 x) i j else Block.zero

structure Position where
  pass : ℕ
  slice : ℕ
  lane : ℕ
  index : ℕ

/-- The lanes of a slice are filled one after the other; they do not see each other. -/
def Params.positions (c : Params) : List Position :=
  (List.range c.t).flatMap fun r => (List.range 4).flatMap fun s =>
    (List.range c.p).flatMap fun l =>
      let first := if r = 0 ∧ s = 0 then 2 else 0
      (List.range' first (c.segment - first)).map fun i => ⟨r, s, l, i⟩

variable (c : Params) (B : Memory) (x : Position)

def Params.columnOf : ℕ := x.slice * c.segment + x.index

def Params.previous : ℕ := (c.columnOf x + c.q - 1) % c.q

def Params.dataIndependent : Bool :=
  match c.kind with
  | .d => false
  | .i => true
  | .id => x.pass = 0 ∧ x.slice < 2

def Params.addressInput (i : ℕ) : Block :=
  Vector.ofFn fun k => match k.val with
    | 0 => BitVec.ofNat 64 x.pass
    | 1 => BitVec.ofNat 64 x.lane
    | 2 => BitVec.ofNat 64 x.slice
    | 3 => BitVec.ofNat 64 (c.p * c.q)
    | 4 => BitVec.ofNat 64 c.t
    | 5 => BitVec.ofNat 64 c.kind.code
    | 6 => BitVec.ofNat 64 i
    | _ => 0

def Params.addressBlock (i : ℕ) : Block := G Block.zero (G Block.zero (c.addressInput x i))

def Params.J : BitVec 64 :=
  if c.dataIndependent x then (c.addressBlock x (x.index / 128 + 1))[x.index % 128]
  else (B x.lane (c.previous x))[0]

def Params.referenceLane (J₂ : ℕ) : ℕ := if x.pass = 0 ∧ x.slice = 0 then x.lane else J₂ % c.p

/-- The number of the blocks that may be referred to. -/
def Params.referenceArea (l : ℕ) : ℕ :=
  let finished := (if x.pass = 0 then x.slice else 3) * c.segment
  if l = x.lane then finished + x.index - 1
  else if x.index = 0 then finished - 1 else finished

def Params.referenceColumn (l J₁ : ℕ) : ℕ :=
  let area := c.referenceArea x l
  let z := area - 1 - area * (J₁ ^ 2 / 2 ^ 32) / 2 ^ 32
  let first := if x.pass = 0 then 0 else (x.slice + 1) * c.segment
  (first + z) % c.q

/-- The filling of one block. -/
def Params.fillStep : Memory :=
  let j := (c.J B x).toNat
  let l := c.referenceLane x (j / 2 ^ 32)
  let new := G (B x.lane (c.previous x)) (B l (c.referenceColumn x l (j % 2 ^ 32)))
  let old := B x.lane (c.columnOf x)
  Function.update B x.lane (Function.update (B x.lane) (c.columnOf x)
    (if x.pass = 0 then new else new.xor old))

noncomputable def Params.filled (inputs : Inputs) : Memory :=
  c.positions.foldl c.fillStep (c.start inputs)

noncomputable def Params.hash (inputs : Inputs) : List (BitVec 8) :=
  let last := (List.range c.p).foldl (fun b i => b.xor (c.filled inputs i (c.q - 1))) Block.zero
  hashLong c.T last.toBytes

section OneLane
variable {c : Params}

theorem previous_eq {pass lane slice index : ℕ} (hpos : 1 ≤ slice * c.segment + index)
    (hlt : slice * c.segment + index < c.q) :
    c.previous ⟨pass, slice, lane, index⟩ = slice * c.segment + index - 1 := by
  simp only [Params.previous, Params.columnOf]
  rw [show slice * c.segment + index + c.q - 1 = slice * c.segment + index - 1 + c.q by omega,
    Nat.add_mod_right, Nat.mod_eq_of_lt (by omega)]

variable (hp : c.p = 1)
include hp

/-- In a single lane the block before and the reference are earlier blocks of the same pass. -/
theorem fillStep_oneLane (B : Memory) {slice index : ℕ}
    (hpos : 2 ≤ slice * c.segment + index) (hlt : slice * c.segment + index < c.q) :
    c.fillStep B ⟨0, slice, 0, index⟩ =
      Function.update B 0 (Function.update (B 0) (slice * c.segment + index)
        (G (B 0 (slice * c.segment + index - 1))
          (B 0 (slice * c.segment + index - 2 - (slice * c.segment + index - 1) *
            (((c.J B ⟨0, slice, 0, index⟩).toNat % 2 ^ 32) ^ 2 / 2 ^ 32) / 2 ^ 32)))) := by
  have hprevious : c.previous ⟨0, slice, 0, index⟩ = slice * c.segment + index - 1 :=
    previous_eq (by omega) hlt
  have hlane : ∀ J₂, c.referenceLane ⟨0, slice, 0, index⟩ J₂ = 0 := by
    intro J₂
    simp only [Params.referenceLane, hp, Nat.mod_one, ite_self]
  have hcolumn : ∀ J₁, c.referenceColumn ⟨0, slice, 0, index⟩ 0 J₁ =
      slice * c.segment + index - 2 -
        (slice * c.segment + index - 1) * (J₁ ^ 2 / 2 ^ 32) / 2 ^ 32 := by
    intro J₁
    simp only [Params.referenceColumn, Params.referenceArea, if_true, Nat.zero_add]
    obtain ⟨y, hy⟩ : ∃ y, y = (slice * c.segment + index - 1) * (J₁ ^ 2 / 2 ^ 32) / 2 ^ 32 :=
      ⟨_, rfl⟩
    rw [← hy, Nat.mod_eq_of_lt (by omega), Nat.sub_sub _ 1 1]
  simp only [Params.fillStep, hprevious, hlane, hcolumn, if_true, Params.columnOf]

theorem positions_oneLane (ht : c.t = 1) : c.positions =
    (List.range' 2 (c.segment - 2)).map (Position.mk 0 0 0) ++
      (List.range c.segment).map (Position.mk 0 1 0) ++
        (List.range c.segment).map (Position.mk 0 2 0) ++
          (List.range c.segment).map (Position.mk 0 3 0) := by
  simp [Params.positions, hp, ht, List.range_succ, List.range_eq_range']

theorem hash_oneLane (inputs : Inputs) :
    c.hash inputs = hashLong c.T (c.filled inputs 0 (c.q - 1)).toBytes := by
  simp only [Params.hash, hp, List.range_one, List.foldl_cons, List.foldl_nil, Block.zero_xor]

end OneLane

end Argon2
