import Mathlib.Data.Vector.Defs
import Mathlib.Tactic.Ring

/-! # Warps of a GPU

The 32 threads of a warp in lockstep: a register of the warp is a vector with one value for each
thread, and a shuffle lets each thread read the register of another one. The instructions on two
halves of a 64-bit register are those of PTX.
-/
namespace Warp

abbrev Reg (α : Type*) := Vector α 32

variable {α : Type*}

/-- `__shfl_sync` over the whole warp, which takes the thread modulo 32. -/
def shfl (v : Reg α) (src : Fin 32 → ℕ) : Reg α := Vector.ofFn fun t => v[src t % 32]

def shflXor (v : Reg α) (mask : ℕ) : Reg α := shfl v fun t => t.val ^^^ mask

@[simp] theorem getElem_shfl (v : Reg α) (src : Fin 32 → ℕ) {t : ℕ} (ht : t < 32) :
    (shfl v src)[t] = v[src ⟨t, ht⟩ % 32] := Vector.getElem_ofFn ht

@[simp] theorem getElem_shflXor (v : Reg α) (mask : ℕ) {t : ℕ} (ht : t < 32) :
    (shflXor v mask)[t] = v[(t ^^^ mask) % 32] := Vector.getElem_ofFn ht

theorem get_map {β : Type*} (v : Reg α) (f : α → β) (t : Fin 32) : (v.map f).get t = f (v.get t) :=
  Vector.getElem_map f t.isLt

theorem get_shfl (v : Reg α) (src : Fin 32 → ℕ) (t : Fin 32) :
    (shfl v src).get t = v[src t % 32] := Vector.getElem_ofFn t.isLt

def pack (lo hi : BitVec 32) : BitVec 64 := hi.setWidth 64 <<< 32 ||| lo.setWidth 64

/-- `cvt.u32.u64`, and the first part of `mov.b64 {lo, hi}, x` -/
def low (x : BitVec 64) : BitVec 32 := x.setWidth 32

def high (x : BitVec 64) : BitVec 32 := (x >>> 32).setWidth 32

def mulHi (x y : BitVec 32) : BitVec 32 := BitVec.ofNat 32 (x.toNat * y.toNat / 2 ^ 32)

def byteOf (x y : BitVec 32) (i : ℕ) : BitVec 8 := (pack x y >>> (8 * i)).setWidth 8

/-- `prmt.b32`: each digit of the selector, from the lowest on, names a byte. The digits from
eight on, which name the sign of a byte, are left out. -/
def prmt (x y : BitVec 32) (selector : ℕ) : BitVec 32 :=
  let byte := fun k => byteOf x y (selector / 16 ^ k % 8)
  byte 3 ++ byte 2 ++ byte 1 ++ byte 0

theorem toNat_pack (lo hi : BitVec 32) : (pack lo hi).toNat = lo.toNat + 2 ^ 32 * hi.toNat := by
  have hlo : lo.toNat < 2 ^ 32 := lo.isLt
  have hhi : hi.toNat < 2 ^ 32 := hi.isLt
  have hshift : (hi.setWidth 64 <<< 32).toNat = hi.toNat <<< 32 := by
    rw [BitVec.toNat_shiftLeft, BitVec.toNat_setWidth, Nat.shiftLeft_eq, Nat.shiftLeft_eq]
    omega
  have hword : (lo.setWidth 64).toNat = lo.toNat := by
    rw [BitVec.toNat_setWidth]
    omega
  rw [pack, BitVec.toNat_or, hshift, hword, ← Nat.shiftLeft_add_eq_or_of_lt hlo, Nat.shiftLeft_eq]
  ring

theorem toNat_low (x : BitVec 64) : (low x).toNat = x.toNat % 2 ^ 32 := BitVec.toNat_setWidth 32 x

theorem toNat_high (x : BitVec 64) : (high x).toNat = x.toNat / 2 ^ 32 := by
  have hx : x.toNat < 2 ^ 64 := x.isLt
  rw [high, BitVec.toNat_setWidth, BitVec.toNat_ushiftRight, Nat.shiftRight_eq_div_pow]
  omega

@[simp] theorem pack_low_high (x : BitVec 64) : pack (low x) (high x) = x := by
  apply BitVec.eq_of_toNat_eq
  rw [toNat_pack, toNat_low, toNat_high]
  omega

theorem low_pack (lo hi : BitVec 32) : low (pack lo hi) = lo := by
  have hlo : lo.toNat < 2 ^ 32 := lo.isLt
  apply BitVec.eq_of_toNat_eq
  rw [toNat_low, toNat_pack]
  omega

theorem toNat_mulHi (x y : BitVec 32) : (mulHi x y).toNat = x.toNat * y.toNat / 2 ^ 32 := by
  have hmul : x.toNat * y.toNat < 2 ^ 32 * 2 ^ 32 := Nat.mul_lt_mul'' x.isLt y.isLt
  rw [mulHi, BitVec.toNat_ofNat]
  omega

theorem pack_mul (x y : BitVec 32) : pack (x * y) (mulHi x y) = x.setWidth 64 * y.setWidth 64 := by
  have hx : x.toNat < 2 ^ 32 := x.isLt
  have hy : y.toNat < 2 ^ 32 := y.isLt
  have hmul : x.toNat * y.toNat < 2 ^ 32 * 2 ^ 32 := Nat.mul_lt_mul'' hx hy
  apply BitVec.eq_of_toNat_eq
  rw [toNat_pack, toNat_mulHi, BitVec.toNat_mul, BitVec.toNat_mul, BitVec.toNat_setWidth,
    BitVec.toNat_setWidth, Nat.mod_eq_of_lt (by omega : x.toNat < 2 ^ 64),
    Nat.mod_eq_of_lt (by omega : y.toNat < 2 ^ 64)]
  omega

theorem toNat_rotateRight (x : BitVec 64) {n : ℕ} (hn : n < 64) :
    (x.rotateRight n).toNat = x.toNat / 2 ^ n + 2 ^ (64 - n) * (x.toNat % 2 ^ n) := by
  have hx : x.toNat < 2 ^ 64 := x.isLt
  have hpow : 2 ^ (64 - n) * 2 ^ n = 2 ^ 64 := by
    rw [← pow_add]
    congr 1
    omega
  have hlow : x.toNat / 2 ^ n < 2 ^ (64 - n) :=
    Nat.div_lt_of_lt_mul (by rwa [Nat.mul_comm, hpow])
  have hhigh : x.toNat * 2 ^ (64 - n) % 2 ^ 64 = (x.toNat % 2 ^ n) <<< (64 - n) := by
    rw [← hpow, Nat.mul_comm x.toNat, Nat.mul_mod_mul_left, Nat.shiftLeft_eq, Nat.mul_comm]
  rw [BitVec.rotateRight_def, Nat.mod_eq_of_lt hn, BitVec.toNat_or, BitVec.toNat_ushiftRight,
    BitVec.toNat_shiftLeft, Nat.shiftRight_eq_div_pow, Nat.shiftLeft_eq, hhigh, Nat.or_comm,
    ← Nat.shiftLeft_add_eq_or_of_lt hlow, Nat.shiftLeft_eq]
  ring

theorem toNat_byteOf (x : BitVec 64) (i : ℕ) :
    (byteOf (low x) (high x) i).toNat = x.toNat / 2 ^ (8 * i) % 2 ^ 8 := by
  rw [byteOf, pack_low_high, BitVec.toNat_setWidth, BitVec.toNat_ushiftRight,
    Nat.shiftRight_eq_div_pow]

theorem toNat_append_eq_add {m n : ℕ} (x : BitVec m) (y : BitVec n) :
    (x ++ y).toNat = y.toNat + 2 ^ n * x.toNat := by
  rw [BitVec.toNat_append, ← Nat.shiftLeft_add_eq_or_of_lt y.isLt, Nat.shiftLeft_eq]
  ring

theorem toNat_prmt (x : BitVec 64) {selector s0 s1 s2 s3 : ℕ} (h0 : selector % 8 = s0)
    (h1 : selector / 16 % 8 = s1) (h2 : selector / 256 % 8 = s2) (h3 : selector / 4096 % 8 = s3) :
    (prmt (low x) (high x) selector).toNat =
      x.toNat / 2 ^ (8 * s0) % 2 ^ 8 + 2 ^ 8 * (x.toNat / 2 ^ (8 * s1) % 2 ^ 8 +
        2 ^ 8 * (x.toNat / 2 ^ (8 * s2) % 2 ^ 8 + 2 ^ 8 * (x.toNat / 2 ^ (8 * s3) % 2 ^ 8))) := by
  subst h0 h1 h2 h3
  simp only [prmt, toNat_append_eq_add, toNat_byteOf, pow_zero, Nat.div_one, pow_one,
    show 16 ^ 2 = 256 from rfl, show 16 ^ 3 = 4096 from rfl]

/-- The bytes of a number below `2 ^ 64`, each the remainder of the quotient before it. -/
theorem bytes_quotients {n : ℕ} (hn : n < 2 ^ 64) :
    n / 2 ^ 16 = n / 2 ^ 8 / 256 ∧ n / 2 ^ 24 = n / 2 ^ 16 / 256 ∧
      n / 2 ^ 32 = n / 2 ^ 24 / 256 ∧ n / 2 ^ 40 = n / 2 ^ 32 / 256 ∧
      n / 2 ^ 48 = n / 2 ^ 40 / 256 ∧ n / 2 ^ 56 = n / 2 ^ 48 / 256 ∧ n / 2 ^ 56 < 256 := by
  omega

theorem pack_high_low (x : BitVec 64) : pack (high x) (low x) = x.rotateRight 32 := by
  apply BitVec.eq_of_toNat_eq
  rw [toNat_pack, toNat_low, toNat_high, toNat_rotateRight x (by decide)]

theorem prmt_rotate_24 (x : BitVec 64) :
    pack (prmt (low x) (high x) 0x6543) (prmt (low x) (high x) 0x2107) = x.rotateRight 24 := by
  have hx : x.toNat < 2 ^ 64 := x.isLt
  apply BitVec.eq_of_toNat_eq
  rw [toNat_pack, toNat_prmt x rfl rfl rfl rfl, toNat_prmt x rfl rfl rfl rfl,
    toNat_rotateRight x (by decide)]
  have hbytes := bytes_quotients hx
  simp only [Nat.reduceMod, Nat.reduceDiv, Nat.reduceMul]
  omega

theorem prmt_rotate_16 (x : BitVec 64) :
    pack (prmt (low x) (high x) 0x5432) (prmt (low x) (high x) 0x1076) = x.rotateRight 16 := by
  have hx : x.toNat < 2 ^ 64 := x.isLt
  apply BitVec.eq_of_toNat_eq
  rw [toNat_pack, toNat_prmt x rfl rfl rfl rfl, toNat_prmt x rfl rfl rfl rfl,
    toNat_rotateRight x (by decide)]
  have hbytes := bytes_quotients hx
  simp only [Nat.reduceMod, Nat.reduceDiv, Nat.reduceMul]
  omega

/-- A rotation by one bit to the left; the shifted values have no bit in common. -/
theorem add_rotate_63 (x : BitVec 64) : x <<< 1 + x >>> 63 = x.rotateRight 63 := by
  have hx : x.toNat < 2 ^ 64 := x.isLt
  apply BitVec.eq_of_toNat_eq
  rw [toNat_rotateRight x (by decide), BitVec.toNat_add, BitVec.toNat_shiftLeft,
    BitVec.toNat_ushiftRight, Nat.shiftRight_eq_div_pow, Nat.shiftLeft_eq]
  omega

end Warp
