import XnMiner.Util.Sha256

/-! # The digest that is printed

The loop over the full blocks and the one or two blocks after it are the blocks of the padded
message, at every length of the data, and the printed bytes are those of the digest.
-/
namespace XnMiner.Sha256
open TextCodec (Str)
open BitString
open Sha2 (padBytes)

variable {data P : List Byte}

theorem isBlock_blockAt (hP : data <+: P) {i : ℕ} (h : 64 * i + 64 ≤ data.length) :
    IsBlock P i (blockAt data (64 * i) h) := by
  obtain ⟨rest, rfl⟩ := hP
  intro k hk
  rw [List.getElem?_append_left (by omega), List.getElem?_eq_getElem (by omega), blockAt,
    Vector.getElem_ofFn]

/-- The loop goes on along the hash values of a message that begins with the data. -/
theorem absorb_spec (hP : data <+: P) {state : Vector Word 8} {offset : ℕ}
    (h : offset ≤ data.length) {i : ℕ} (hoffset : offset = 64 * i)
    (hstate : workOf state = Sha2.sha256.chain (ofWords P) i) :
    ∃ q, (absorb data state offset h).offset = 64 * q ∧
      workOf (absorb data state offset h).state = Sha2.sha256.chain (ofWords P) q := by
  fun_induction absorb data state offset h generalizing i with
  | case1 state offset h hfull ih =>
    subst hoffset
    apply ih (i := i + 1) (by omega)
    rw [workOf_sha256Transform (isBlock_blockAt hP hfull), hstate, Sha2.Variant.chain]
  | case2 state offset h hfull => exact ⟨i, hoffset, hstate⟩

theorem getElem_copy (src : List Byte) (block : Vector Byte 64) {k : ℕ} (hk : k < 64) :
    (copy src block)[k] = src.getD k block[k] := by
  simp [copy]

/-- The bytes of the data that are left, the byte `0x80`, zeros. -/
theorem getElem_restBlock (r : Absorbed data) {k : ℕ} (hk : k < 64) :
    (restBlock r)[k] =
      if data.length - r.offset = k then 0x80 else (data.drop r.offset).getD k 0 := by
  have hzero : zeroBlock[k] = 0 := Vector.getElem_replicate hk
  unfold restBlock
  rw [Vector.getElem_set]
  split_ifs with hmark hrem
  · rfl
  · rw [getElem_copy _ _ hk, hzero]
  · have hnil : data.drop r.offset = [] := by
      apply List.drop_eq_nil_of_le
      omega
    rw [hnil, hzero, List.getD_nil]

theorem byte_eq {w : ℕ} (hw : 8 ≤ w) (x : BitVec w) (s : ℕ) :
    ((x >>> s) &&& 0xff).setWidth 8 = BitVec.ofNat 8 (x.toNat / 2 ^ s) := by
  have hmask : (0xff : BitVec w).toNat = 2 ^ 8 - 1 :=
    Nat.mod_eq_of_lt (lt_of_lt_of_le (by decide) (Nat.pow_le_pow_right (by decide) hw))
  apply BitVec.eq_of_toNat_eq
  rw [BitVec.toNat_setWidth, BitVec.toNat_and, BitVec.toNat_ushiftRight, Nat.shiftRight_eq_div_pow,
    hmask, Nat.and_two_pow_sub_one_eq_mod, Nat.mod_mod, BitVec.toNat_ofNat]

theorem getElem_putLength (bitLen : BitVec 64) (block : Vector Byte 64) {k : ℕ} (hk : k < 64) :
    (putLength bitLen block)[k] =
      if k < 56 then block[k] else BitVec.ofNat 8 (bitLen.toNat / 2 ^ (8 * (63 - k))) := by
  let inv (n : ℕ) (b : Vector Byte 64) : Prop := ∀ k (hk : k < 64),
    b[k] = if k < 64 - n then block[k] else BitVec.ofNat 8 (bitLen.toNat / 2 ^ (8 * (63 - k)))
  have hinv : inv 8 (putLength bitLen block) := by
    apply Sha2.fold_invariant inv
    · intro k hk
      rw [if_pos (by omega)]
    · intro n hn b hb k hk
      rw [Vector.getElem_set, byte_eq (by decide)]
      split_ifs with hset hlt hlt
      · omega
      · have hn : 63 - k = n := by omega
        rw [hn]
      · rw [hb k hk, if_pos (by omega)]
      · rw [hb k hk, if_neg (by omega)]
  exact hinv k hk

/-- The rest of the data in its place in the padded message. -/
theorem getElem?_restBlock {r : Absorbed data} {q z k : ℕ} (hq : r.offset = 64 * q) (hk : k < 64)
    (hrest : 64 * q + k < data.length + 1 + z) :
    (padBytes 4 z data)[64 * q + k]? = some (restBlock r)[k] := by
  have hle := r.le_length
  have hmark : data.length = 64 * q + k ↔ data.length - r.offset = k := by omega
  have hget : (data.drop r.offset).getD k 0 = data.getD (64 * q + k) 0 := by
    rw [hq, List.getD_eq_getElem?_getD, List.getElem?_drop, List.getD_eq_getElem?_getD]
  rw [Sha2.getElem?_padBytes hrest, getElem_restBlock r hk, hget]
  simp only [hmark]
  rfl

/-- A block with the length put in is the last one of the padded message. -/
theorem isBlock_putLength {block : Vector Byte 64} {z n : ℕ} (hlen : data.length < 2 ^ 61)
    (hn : data.length + 1 + z = 64 * n + 56)
    (hlow : ∀ k (hk : k < 56), (padBytes 4 z data)[64 * n + k]? = some block[k]) :
    IsBlock (padBytes 4 z data) n (putLength (BitVec.ofNat 64 data.length * 8) block) := by
  have hbits : (BitVec.ofNat 64 data.length * 8).toNat = 8 * data.length := by
    rw [BitVec.toNat_mul, BitVec.toNat_ofNat]
    simp
    omega
  intro k hk
  rw [getElem_putLength _ _ hk, hbits]
  split_ifs with h56
  · exact hlow k h56
  · have hindex : 64 * n + k = data.length + 1 + z + (k - 56) := by omega
    have hexp : 63 - k = 2 * 4 - 1 - (k - 56) := by omega
    rw [hindex, Sha2.getElem?_padBytes_length (by omega), hexp]

/-- The final state is the last hash value of the padded message, whether the length fits
behind the rest of the data or not. -/
theorem workOf_finalState (hlen : data.length < 2 ^ 61) :
    ∃ z n, z < 64 ∧ data.length + 1 + z = 64 * n + 56 ∧
      workOf (finalState data) = Sha2.sha256.chain (ofWords (padBytes 4 z data)) (n + 1) := by
  have habsorb : ∀ z, ∃ q, (absorb data initialState 0 (Nat.zero_le _)).offset = 64 * q ∧
      workOf (absorb data initialState 0 (Nat.zero_le _)).state =
        Sha2.sha256.chain (ofWords (padBytes 4 z data)) q :=
    fun z => absorb_spec (i := 0) (List.prefix_append data _) _ rfl workOf_initialState
  unfold finalState
  generalize absorb data initialState 0 (Nat.zero_le _) = r at habsorb
  have hle := r.le_length
  have hlt := r.length_lt
  dsimp only
  split_ifs with h56
  · -- the length goes into a block of its own
    obtain ⟨q, hq, hstate⟩ := habsorb (119 - (data.length - r.offset))
    refine ⟨119 - (data.length - r.offset), q + 1, by omega, by omega, ?_⟩
    rw [workOf_sha256Transform (i := q + 1), workOf_sha256Transform (i := q), hstate]
    · rfl
    · intro k hk
      exact getElem?_restBlock hq hk (by omega)
    · apply isBlock_putLength hlen (by omega)
      intro k hk
      rw [Sha2.getElem?_padBytes (by omega), if_neg (by omega), List.getD_eq_default _ _ (by omega)]
      exact congrArg some (Vector.getElem_replicate (by omega : k < 64)).symm
  · obtain ⟨q, hq, hstate⟩ := habsorb (55 - (data.length - r.offset))
    refine ⟨55 - (data.length - r.offset), q, by omega, by omega, ?_⟩
    rw [workOf_sha256Transform, hstate]
    · rfl
    · apply isBlock_putLength hlen (by omega)
      intro k hk
      exact getElem?_restBlock hq (by omega) (by omega)

theorem words_workOf (state : Vector Word 8) : (workOf state).words = state.toList := by
  apply List.ext_getElem (by simp [Sha2.Work.words])
  intro k hk _
  simp only [Sha2.Work.words, List.length_cons, List.length_nil] at hk
  rw [Vector.getElem_toList]
  interval_cases k <;> rfl

theorem getElem_digest (hlen : data.length < 2 ^ 61) {i : ℕ} (hi : i < 32)
    (hdigest : i < (Sha2.sha256.digest data).length) :
    (Sha2.sha256.digest data)[i] =
      BitVec.ofNat 8 ((finalState data)[i / 4].toNat / 2 ^ (24 - 8 * (i % 4))) := by
  obtain ⟨z, n, hz, hn, hstate⟩ := workOf_finalState hlen
  have hpad : Sha2.pad 32 (ofWords data) = ofWords (padBytes 4 z data) :=
    Sha2.pad_ofWords (m := 4) rfl data hz (by omega)
  have hcount : (ofWords (padBytes 4 z data)).length / (16 * 32) = n + 1 := by
    rw [length_ofWords, Sha2.length_padBytes]
    omega
  have hchain : Sha2.sha256.chain (Sha2.pad 32 (ofWords data))
      ((Sha2.pad 32 (ofWords data)).length / (16 * 32)) = workOf (finalState data) := by
    rw [hpad, hcount, hstate]
  have hword : i / 4 < (workOf (finalState data)).words.length := by
    rw [words_workOf, Vector.length_toList]
    omega
  have hexp : 8 * (4 - 1 - i % 4) = 24 - 8 * (i % 4) := by omega
  have hbyte := Sha2.sha256.getElem_digest (m := 4) rfl (by decide) data hchain hdigest hword
  rw [hbyte, hexp]
  simp only [words_workOf, Vector.getElem_toList]

theorem length_digest (data : List Byte) : (Sha2.sha256.digest data).length = 32 := by
  rw [Sha2.Variant.digest, length_toWords, Sha2.Variant.hash, length_ofWords, Sha2.Work.length_words]

def hexText (bs : List Byte) : Str :=
  bs.flatMap fun b => [(b.toNat / 16).digitChar, (b.toNat % 16).digitChar]

theorem setw2_eq (b : Byte) : setw2 b = hexText [b] := by
  have hb : b.toNat < 256 := b.isLt
  have hpair : hexText [b] = [(b.toNat / 16).digitChar, (b.toNat % 16).digitChar] := rfl
  rw [hpair, setw2]
  by_cases hlt : b.toNat < 16
  · rw [Nat.toDigits_of_lt_base hlt, Nat.div_eq_of_lt hlt, Nat.mod_eq_of_lt hlt]
    rfl
  · rw [Nat.toDigits_of_base_le (by decide) (by omega), Nat.toDigits_of_lt_base (by omega)]
    rfl

theorem clampPrefix_eq (prefixBytes : ℕ) :
    clampPrefix prefixBytes = if prefixBytes = 0 ∨ prefixBytes > 32 then 32 else prefixBytes := by
  simp only [clampPrefix]
  split_ifs <;> omega

/-- The printed text is the first bytes of the SHA-256 digest, all of them for a prefix of 0 or
of more than 32 bytes. -/
theorem sha256Hex_eq (data : List Byte) (prefixBytes : ℕ) (hlen : data.length < 2 ^ 61) :
    sha256Hex data prefixBytes =
      hexText ((Sha2.sha256.digest data).take
        (if prefixBytes = 0 ∨ prefixBytes > 32 then 32 else prefixBytes)) := by
  rw [← clampPrefix_eq]
  apply Sha2.fold_invariant fun n oss => oss = hexText ((Sha2.sha256.digest data).take n)
  · rfl
  · intro i hi oss hoss
    have hclamp := clampPrefix_le prefixBytes
    have hdigest : i < (Sha2.sha256.digest data).length := by
      rw [length_digest]
      omega
    dsimp only
    rw [hoss, List.take_succ_eq_append_getElem hdigest, getElem_digest hlen (by omega), setw2_eq,
      byte_eq (by decide)]
    exact List.flatMap_append.symm

theorem sha256Hex_eq_abc :
    [0x61#8, 0x62, 0x63].length < 2 ^ 61 ∧
      hexText ((Sha2.sha256.digest [0x61, 0x62, 0x63]).take 32) =
        "ba7816bf8f01cfea414140de5dae2223b00361a396177a9cb410ff61f20015ad".toList := by
  have hlen : [0x61#8, 0x62, 0x63].length < 2 ^ 61 := by decide
  have hdigest := sha256Hex_eq [0x61, 0x62, 0x63] 32 hlen
  exact ⟨hlen, hdigest.symm.trans (by decide +kernel)⟩

end XnMiner.Sha256
