import XnMiner.System.Warp
import XnMiner.Words.Argon2
import XnMiner.Vendor.Argon2Params

/-! # A block in the registers of a warp

Each thread of a warp holds four words of a block. The permutation of the block is four rounds of
a mixing function that each thread runs on its own words, with shuffles between the rounds that
bring the words together.
-/
namespace XnMiner
open Warp

abbrev BlockTh := Quad Word

def u64Build (hi lo : Word32) : Word := hi.setWidth 64 <<< 32 ||| lo.setWidth 64

def u64Lo (x : Word) : Word32 := x.setWidth 32

def u64Hi (x : Word) : Word32 := (x >>> 32).setWidth 32

def u64Shuffle (v : Reg Word) (threadSrc : Fin 32 → ℕ) : Reg Word :=
  let lo := shfl (v.map u64Lo) threadSrc
  let hi := shfl (v.map u64Hi) threadSrc
  Vector.ofFn fun t => u64Build hi[t] lo[t]

/-- The assembly; a register that is written again is bound again. -/
def g (block : BlockTh) : BlockTh :=
  -- a = f(a, b)
  let s := block.a + block.b
  let l1 := low block.a
  let l2 := low block.b
  let h1 := mulHi l1 l2
  let l1 := l1 * l2
  let x := pack l1 h1
  let x := x <<< 1
  let a := s + x
  -- d = rotr64(d ^ a, 32)
  let x := block.d ^^^ a
  let h2 := low x
  let l2 := high x
  let d := pack l2 h2
  -- c = f(c, d)
  let s := block.c + d
  let l1 := low block.c
  let h1 := mulHi l1 l2
  let l1 := l1 * l2
  let x := pack l1 h1
  let x := x <<< 1
  let c := s + x
  -- b = rotr64(b ^ c, 24)
  let x := block.b ^^^ c
  let l1 := low x
  let h1 := high x
  let l2 := prmt l1 h1 0x6543
  let h2 := prmt l1 h1 0x2107
  let b := pack l2 h2
  -- a = f(a, b)
  let s := a + b
  let l1 := low a
  let h1 := mulHi l1 l2
  let l1 := l1 * l2
  let x := pack l1 h1
  let x := x <<< 1
  let a := s + x
  -- d = rotr64(d ^ a, 16)
  let x := d ^^^ a
  let l1 := low x
  let h1 := high x
  let l2 := prmt l1 h1 0x5432
  let h2 := prmt l1 h1 0x1076
  let d := pack l2 h2
  -- c = f(c, d)
  let s := c + d
  let l1 := low c
  let h1 := mulHi l1 l2
  let l1 := l1 * l2
  let x := pack l1 h1
  let x := x <<< 1
  let c := s + x
  -- b = rotr64(b ^ c, 63)
  let x := b ^^^ c
  let s := x <<< 1
  let x := x >>> 63
  let b := s + x
  ⟨a, b, c, d⟩

section Shuffles
variable {α : Type*} (block : Reg (Quad α))

def transpose : Reg (Quad α) :=
  let g1 := fun t : Fin 32 => t.val &&& 0x4 ≠ 0
  let g2 := fun t : Fin 32 => t.val &&& 0x8 ≠ 0
  let x1 : Reg α := Vector.ofFn fun t =>
    if g2 t then (if g1 t then block[t].c else block[t].d)
    else (if g1 t then block[t].a else block[t].b)
  let x2 : Reg α := Vector.ofFn fun t =>
    if g2 t then (if g1 t then block[t].b else block[t].a)
    else (if g1 t then block[t].d else block[t].c)
  let x3 : Reg α := Vector.ofFn fun t =>
    if g2 t then (if g1 t then block[t].a else block[t].b)
    else (if g1 t then block[t].c else block[t].d)
  let x1 := shflXor x1 0x4
  let x2 := shflXor x2 0x8
  let x3 := shflXor x3 0xC
  Vector.ofFn fun t =>
    { a := if g2 t then (if g1 t then x3[t] else x2[t]) else (if g1 t then x1[t] else block[t].a)
      b := if g2 t then (if g1 t then x2[t] else x3[t]) else (if g1 t then block[t].b else x1[t])
      c := if g2 t then (if g1 t then x1[t] else block[t].c) else (if g1 t then x3[t] else x2[t])
      d := if g2 t then (if g1 t then block[t].d else x1[t]) else (if g1 t then x2[t] else x3[t]) }

def shuffleWords (srcThrB : Fin 32 → ℕ) (maskC : ℕ) (srcThrD : Fin 32 → ℕ) : Reg (Quad α) :=
  let newB := shfl (block.map Quad.b) srcThrB
  let newC := shflXor (block.map Quad.c) maskC
  let newD := shfl (block.map Quad.d) srcThrD
  Vector.ofFn fun t => ⟨block[t].a, newB[t], newC[t], newD[t]⟩

def shift1Shuffle : Reg (Quad α) :=
  shuffleWords block (fun thread => thread &&& 0x1c ||| (thread + 1) &&& 0x3) 0x2
    fun thread => thread &&& 0x1c ||| (thread + 3) &&& 0x3

def unshift1Shuffle : Reg (Quad α) :=
  shuffleWords block (fun thread => thread &&& 0x1c ||| (thread + 3) &&& 0x3) 0x2
    fun thread => thread &&& 0x1c ||| (thread + 1) &&& 0x3

def shift2Shuffle : Reg (Quad α) :=
  let lo := fun thread : ℕ => thread &&& 0x1 ||| (thread &&& 0x10) >>> 3
  shuffleWords block
    (fun thread => ((lo thread + 1) &&& 0x2) <<< 3 ||| thread &&& 0xe ||| (lo thread + 1) &&& 0x1)
    0x10
    fun thread => ((lo thread + 3) &&& 0x2) <<< 3 ||| thread &&& 0xe ||| (lo thread + 3) &&& 0x1

def unshift2Shuffle : Reg (Quad α) :=
  let lo := fun thread : ℕ => thread &&& 0x1 ||| (thread &&& 0x10) >>> 3
  shuffleWords block
    (fun thread => ((lo thread + 3) &&& 0x2) <<< 3 ||| thread &&& 0xe ||| (lo thread + 3) &&& 0x1)
    0x10
    fun thread => ((lo thread + 1) &&& 0x2) <<< 3 ||| thread &&& 0xe ||| (lo thread + 1) &&& 0x1

end Shuffles

def shuffleBlock (block : Reg BlockTh) : Reg BlockTh :=
  let block := transpose block
  let block := block.map g
  let block := shift1Shuffle block
  let block := block.map g
  let block := unshift1Shuffle block
  let block := transpose block
  let block := block.map g
  let block := shift2Shuffle block
  let block := block.map g
  unshift2Shuffle block

theorem u64Build_eq (x : Word) : u64Build (u64Hi x) (u64Lo x) = x := pack_low_high x

theorem u64Shuffle_eq (v : Reg Word) (threadSrc : Fin 32 → ℕ) :
    u64Shuffle v threadSrc = shfl v threadSrc := by
  apply Vector.ext
  intro t ht
  simp only [u64Shuffle, Vector.getElem_ofFn, Fin.getElem_fin, getElem_shfl, Vector.getElem_map,
    u64Build_eq]

/-- The product of the low halves, where one of them is in a register already. -/
theorem add_product {x y : Word} {l : Word32} (hl : l = low y) :
    x + y + pack (low x * l) (mulHi (low x) l) <<< 1 = Argon2.fBlaMka x y := by
  have hdouble : ∀ z : Word, z <<< 1 = 2 * z := by
    intro z
    apply BitVec.eq_of_toNat_eq
    rw [BitVec.toNat_shiftLeft, BitVec.toNat_mul, Nat.shiftLeft_eq, Nat.mul_comm]
    rfl
  rw [hl, pack_mul, hdouble]
  rfl

theorem g_eq (block : BlockTh) : g block = Argon2.GB block := by
  -- the low half of each rotated register is at hand where it is multiplied
  have hc : ∀ c x : Word, c + pack (high x) (low x) +
      pack (low c * high x) (mulHi (low c) (high x)) <<< 1 =
        Argon2.fBlaMka c (pack (high x) (low x)) := by
    intro c x
    exact add_product (low_pack _ _).symm
  have hprmt : ∀ (c x : Word) (s t : ℕ), c + pack (prmt (low x) (high x) s) (prmt (low x) (high x) t) +
      pack (low c * prmt (low x) (high x) s) (mulHi (low c) (prmt (low x) (high x) s)) <<< 1 =
        Argon2.fBlaMka c (pack (prmt (low x) (high x) s) (prmt (low x) (high x) t)) := by
    intro c x s t
    exact add_product (low_pack _ _).symm
  simp only [g, add_product rfl, hc, hprmt]
  simp only [pack_high_low, prmt_rotate_24, prmt_rotate_16, add_rotate_63]
  rfl

section Moves
variable {α β : Type*}

theorem transpose_map (f : α → β) (w : Reg (Quad α)) :
    transpose (w.map (Quad.map f)) = (transpose w).map (Quad.map f) := by
  apply Vector.ext
  intro t ht
  simp only [transpose, Fin.getElem_fin, Vector.getElem_ofFn, getElem_shflXor, Vector.getElem_map,
    Quad.map, apply_ite f]

def places : Reg (Quad (Fin 32 × Fin 4)) := Vector.ofFn fun t => ⟨(t, 0), (t, 1), (t, 2), (t, 3)⟩

theorem places_map (w : Reg (Quad α)) : places.map (Quad.map fun p => (w[p.1]).get p.2) = w := by
  apply Vector.ext
  intro t ht
  rw [Vector.getElem_map, places, Vector.getElem_ofFn]
  rfl

theorem transpose_places (t : Fin 32) (k : Fin 4) : ((transpose places)[t]).get k =
    (⟨16 * (t.val / 16) + 4 * k.val + t.val % 4, by omega⟩, ⟨t.val / 4 % 4, by omega⟩) := by
  simp only [transpose, places, Fin.getElem_fin, Vector.getElem_ofFn, getElem_shflXor]
  revert t k
  decide +kernel

theorem get_transpose (w : Reg (Quad α)) (t : Fin 32) (k : Fin 4) :
    ((transpose w)[t]).get k = (w[16 * (t.val / 16) + 4 * k.val + t.val % 4]).get
      ⟨t.val / 4 % 4, by omega⟩ := by
  conv_lhs => rw [← places_map w, transpose_map]
  rw [Fin.getElem_fin, Vector.getElem_map, Quad.get_map, ← Fin.getElem_fin, transpose_places]
  rfl

theorem get_shuffleWords (w : Reg (Quad α)) (src : Fin 32 → Fin 4 → Fin 32)
    {srcThrB srcThrD : Fin 32 → ℕ} {maskC : ℕ} (ha : ∀ t, src t 0 = t)
    (hb : ∀ t, (src t 1).val = srcThrB t % 32) (hc : ∀ t, (src t 2).val = (t.val ^^^ maskC) % 32)
    (hd : ∀ t, (src t 3).val = srcThrD t % 32) (t : Fin 32) (k : Fin 4) :
    ((shuffleWords w srcThrB maskC srcThrD)[t]).get k = (w[src t k]).get k := by
  simp only [shuffleWords, Fin.getElem_fin, Vector.getElem_ofFn, getElem_shfl, getElem_shflXor,
    Vector.getElem_map]
  match k with
  | 0 => simp only [Quad.get, ha]
  | 1 => simp only [Quad.get, hb]
  | 2 => simp only [Quad.get, hc]
  | 3 => simp only [Quad.get, hd]

end Moves

/-- Which eight groups of four threads work on sixteen words together. -/
structure Layout where
  group : Fin 32 → Fin 8
  pos : Fin 32 → Fin 4
  thread : Fin 8 → Fin 4 → Fin 32
  group_thread : ∀ r i, group (thread r i) = r
  pos_thread : ∀ r i, pos (thread r i) = i

def rowLayout : Layout where
  group t := ⟨2 * (t.val / 4 % 4) + t.val / 16, by omega⟩
  pos t := ⟨t.val % 4, by omega⟩
  thread r i := ⟨16 * (r.val % 2) + 4 * (r.val / 2) + i.val, by omega⟩
  group_thread := by decide
  pos_thread := by decide

def columnLayout : Layout where
  group t := ⟨t.val % 16 / 2, by omega⟩
  pos t := ⟨2 * (t.val / 16) + t.val % 2, by omega⟩
  thread r i := ⟨16 * (i.val / 2) + 2 * r.val + i.val % 2, by omega⟩
  group_thread := by decide
  pos_thread := by decide

section Rotations
variable {α : Type*} (w : Reg (Quad α)) (t : Fin 32) (k : Fin 4)

theorem get_shift1Shuffle : ((shift1Shuffle w)[t]).get k =
    (w[rowLayout.thread (rowLayout.group t) (rowLayout.pos t + k)]).get k :=
  get_shuffleWords w (fun t k => rowLayout.thread (rowLayout.group t) (rowLayout.pos t + k))
    (by decide) (by decide) (by decide) (by decide) t k

theorem get_unshift1Shuffle : ((unshift1Shuffle w)[t]).get k =
    (w[rowLayout.thread (rowLayout.group t) (rowLayout.pos t - k)]).get k :=
  get_shuffleWords w (fun t k => rowLayout.thread (rowLayout.group t) (rowLayout.pos t - k))
    (by decide) (by decide) (by decide) (by decide) t k

theorem get_shift2Shuffle : ((shift2Shuffle w)[t]).get k =
    (w[columnLayout.thread (columnLayout.group t) (columnLayout.pos t + k)]).get k :=
  get_shuffleWords w
    (fun t k => columnLayout.thread (columnLayout.group t) (columnLayout.pos t + k))
    (by decide) (by decide) (by decide) (by decide) t k

theorem get_unshift2Shuffle : ((unshift2Shuffle w)[t]).get k =
    (w[columnLayout.thread (columnLayout.group t) (columnLayout.pos t - k)]).get k :=
  get_shuffleWords w
    (fun t k => columnLayout.thread (columnLayout.group t) (columnLayout.pos t - k))
    (by decide) (by decide) (by decide) (by decide) t k

end Rotations

/-- The groups of a layout hold sixteen words each, a column of them in every thread. -/
def Layout.Holds (L : Layout) (w : Reg BlockTh) (V : Fin 8 → Vector Word 16) : Prop :=
  ∀ t k, (w[t]).get k = (V (L.group t))[4 * k.val + (L.pos t).val]

/-- Two rounds with a shuffle between them and one behind them run the permutation `P` in every
group: the first round is on columns, and the shuffle brings the diagonals together. -/
theorem Layout.Holds.mix {L : Layout} {w : Reg BlockTh} {V : Fin 8 → Vector Word 16}
    (h : L.Holds w V) {shift unshift : Reg BlockTh → Reg BlockTh}
    (hshift : ∀ w t k, ((shift w)[t]).get k = (w[L.thread (L.group t) (L.pos t + k)]).get k)
    (hunshift : ∀ w t k, ((unshift w)[t]).get k = (w[L.thread (L.group t) (L.pos t - k)]).get k) :
    L.Holds (unshift ((shift (w.map g)).map g)) fun r => Argon2.P (V r) := by
  have hcolumns : ∀ t k, ((w.map g)[t]).get k =
      (Quad.onEach Argon2.columns Argon2.GB (V (L.group t)))[4 * k.val + (L.pos t).val] := by
    intro t k
    have hcolumn : w[t] = (Argon2.columns[L.pos t]).read (V (L.group t)) := by
      apply Quad.ext_get
      intro k
      rw [h t k, Quad.get_read_of_eq _ (Argon2.columns_place (L.pos t) k)]
    rw [Fin.getElem_fin, Vector.getElem_map, g_eq, Argon2.getElem_columns, ← hcolumn]
    rfl
  have hdiagonals : ∀ t k, (((shift (w.map g)).map g)[t]).get k =
      (Argon2.P (V (L.group t)))[4 * k.val + (L.pos t + k).val] := by
    intro t k
    have hdiagonal : (shift (w.map g))[t] = (Argon2.diagonals[L.pos t]).read
        (Quad.onEach Argon2.columns Argon2.GB (V (L.group t))) := by
      apply Quad.ext_get
      intro k
      rw [hshift, hcolumns, Quad.get_read_of_eq _ (Argon2.diagonals_place (L.pos t) k)]
      simp only [L.group_thread, L.pos_thread]
    rw [Fin.getElem_fin, Vector.getElem_map, g_eq, Argon2.getElem_P, ← hdiagonal]
    rfl
  intro t k
  rw [hunshift, hdiagonals, L.group_thread]
  simp only [L.pos_thread, sub_add_cancel]

/-- Thread `t` of the warp holds the words `t`, `32 + t`, `64 + t` and `96 + t` of the block. -/
def IsBlockTh (w : Reg BlockTh) (b : Argon2.Block) : Prop :=
  ∀ (t : Fin 32) (k : Fin 4), (w[t]).get k = b[32 * k.val + t.val]

/-- A shuffle back to rows of the matrix and forth. -/
theorem rowLayout_holds_transpose {w : Reg BlockTh} {b : Argon2.Block} (h : IsBlockTh w b) :
    rowLayout.Holds (transpose w) (Argon2.row b) := by
  intro t k
  rw [get_transpose, Argon2.getElem_row]
  refine (h ⟨16 * (t.val / 16) + 4 * k.val + t.val % 4, by omega⟩ ⟨t.val / 4 % 4, by omega⟩).trans ?_
  congr 1
  simp only [rowLayout]
  omega

theorem isBlockTh_transpose {w : Reg BlockTh} {b : Argon2.Block}
    (h : rowLayout.Holds w fun r => Argon2.P (Argon2.row b r)) :
    IsBlockTh (transpose w) (Argon2.rowwise b) := by
  intro t k
  rw [get_transpose]
  refine (h ⟨16 * (t.val / 16) + 4 * k.val + t.val % 4, by omega⟩ ⟨t.val / 4 % 4, by omega⟩).trans ?_
  rw [← Argon2.getElem_rowwise]
  congr 1
  simp only [rowLayout]
  omega

theorem columnLayout_holds {w : Reg BlockTh} {b : Argon2.Block} (h : IsBlockTh w b) :
    columnLayout.Holds w (Argon2.column b) := by
  intro t k
  rw [h t k, Argon2.getElem_column]
  congr 1
  simp only [columnLayout]
  omega

theorem isBlockTh_of_columns {w : Reg BlockTh} {b : Argon2.Block}
    (h : columnLayout.Holds w fun c => Argon2.P (Argon2.column b c)) :
    IsBlockTh w (Argon2.columnwise b) := by
  intro t k
  rw [h t k, ← Argon2.getElem_columnwise]
  congr 1
  simp only [columnLayout]
  omega

theorem shuffleBlock_eq {w : Reg BlockTh} {b : Argon2.Block} (h : IsBlockTh w b) :
    IsBlockTh (shuffleBlock w) (Argon2.columnwise (Argon2.rowwise b)) := by
  have hrows := (rowLayout_holds_transpose h).mix get_shift1Shuffle get_unshift1Shuffle
  have hcolumns := (columnLayout_holds (isBlockTh_transpose hrows)).mix get_shift2Shuffle
    get_unshift2Shuffle
  exact isBlockTh_of_columns hcolumns

end XnMiner
