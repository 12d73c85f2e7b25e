import XnMiner.Vendor.Argon2Params

/-! # The BLAKE2b of the device

The device has its own tables, reads and writes words by shifts, and counts lengths in 32 bits.
-/
namespace XnMiner
open LittleEndian

def blake2bIVDevice : Array Word := #[
  0x6a09e667f3bcc908, 0xbb67ae8584caa73b,
  0x3c6ef372fe94f82b, 0xa54ff53a5f1d36f1,
  0x510e527fade682d1, 0x9b05688c2b3e6c1f,
  0x1f83d9abfb41bd6b, 0x5be0cd19137e2179]

def blake2bSigmaDevice : Array (Array ℕ) := #[
  #[0, 1, 2, 3, 4, 5, 6, 7, 8, 9, 10, 11, 12, 13, 14, 15],
  #[14, 10, 4, 8, 9, 15, 13, 6, 1, 12, 0, 2, 11, 7, 5, 3],
  #[11, 8, 12, 0, 5, 2, 15, 13, 10, 14, 3, 6, 7, 1, 9, 4],
  #[7, 9, 3, 1, 13, 12, 11, 14, 2, 6, 5, 10, 4, 0, 15, 8],
  #[9, 0, 5, 7, 2, 4, 10, 15, 14, 1, 11, 12, 6, 8, 3, 13],
  #[2, 12, 6, 10, 0, 11, 8, 3, 4, 13, 7, 5, 15, 14, 1, 9],
  #[12, 5, 1, 15, 14, 13, 4, 10, 0, 7, 6, 3, 9, 2, 8, 11],
  #[13, 11, 7, 14, 12, 1, 3, 9, 5, 0, 15, 4, 8, 6, 2, 10],
  #[6, 15, 14, 9, 11, 3, 0, 8, 12, 2, 13, 7, 1, 4, 10, 5],
  #[10, 2, 8, 4, 7, 6, 1, 5, 15, 11, 9, 14, 3, 12, 13, 0],
  #[0, 1, 2, 3, 4, 5, 6, 7, 8, 9, 10, 11, 12, 13, 14, 15],
  #[14, 10, 4, 8, 9, 15, 13, 6, 1, 12, 0, 2, 11, 7, 5, 3]]

def deviceStore32 (v : Word32) : List Byte :=
  [v.setWidth 8, (v >>> 8).setWidth 8, (v >>> 16).setWidth 8, (v >>> 24).setWidth 8]

def deviceStore64 (v : Word) : List Byte :=
  [v.setWidth 8, (v >>> 8).setWidth 8, (v >>> 16).setWidth 8, (v >>> 24).setWidth 8,
    (v >>> 32).setWidth 8, (v >>> 40).setWidth 8, (v >>> 48).setWidth 8, (v >>> 56).setWidth 8]

def deviceLoad64 (src : Vector Byte 128) (i : ℕ) : Word :=
  src[i]!.setWidth 64 |||
    src[i + 1]!.setWidth 64 <<< 8 |||
    src[i + 2]!.setWidth 64 <<< 16 |||
    src[i + 3]!.setWidth 64 <<< 24 |||
    src[i + 4]!.setWidth 64 <<< 32 |||
    src[i + 5]!.setWidth 64 <<< 40 |||
    src[i + 6]!.setWidth 64 <<< 48 |||
    src[i + 7]!.setWidth 64 <<< 56

theorem blake2bIVDevice_eq : (Vector.ofFn fun i : Fin 8 => blake2bIVDevice[i.val]!) = blake2bIV := by
  decide

theorem deviceStore64_eq (v : Word) : deviceStore64 v = bytes 8 v.toNat := by
  simp only [deviceStore64, setWidth_ushiftRight, bytes, List.cons.injEq, and_true]
  refine ⟨?_, ?_, ?_, ?_, ?_, ?_, ?_, ?_⟩ <;> apply BitVec.eq_of_toNat_eq <;>
    simp only [BitVec.toNat_setWidth, BitVec.toNat_ofNat] <;> omega

theorem deviceLoad64_eq (src : Vector Byte 128) {i : ℕ} (hi : i + 8 ≤ 128) :
    deviceLoad64 src i = word 64 ((src.toList.drop i).take 8) := by
  have hbytes : (src.toList.drop i).take 8 = (List.range 8).map fun k => src[i + k]! := by
    apply List.ext_getElem
    · simp only [List.length_take, List.length_drop, Vector.length_toList, List.length_map,
        List.length_range]
      omega
    · intro k hk hk'
      rw [List.length_map, List.length_range] at hk'
      rw [List.getElem_take, List.getElem_drop, Vector.getElem_toList, List.getElem_map,
        List.getElem_range, getElem!_pos src (i + k) (by omega)]
  have hload : deviceLoad64 src i = orBytes (src[i]!.setWidth 64) 8
      ((List.range' 1 7).map fun k => src[i + k]!) := rfl
  rw [hload, orBytes_eq_word _ _ (by simp), hbytes, List.range_eq_range', List.range'_succ,
    List.map_cons]
  rfl

def deviceParts : BlakeParts where
  IV := Vector.ofFn fun i => blake2bIVDevice[i.val]!
  sigma := blake2bSigmaDevice
  load64 := deviceLoad64
  store64 := deviceStore64
  IV_eq := blake2bIVDevice_eq.trans blake2bIV_eq
  sigma_eq := blake2bSigma_eq
  load64_eq src _ hi := deviceLoad64_eq src hi
  store64_eq := deviceStore64_eq

def deviceBlake2bInit : Blake2b → ℕ → Blake2b := deviceParts.init

/-- Where the sum of the lengths wraps around, the loop would write past the buffer; the model
leaves the state as it is. -/
def deviceBlake2bUpdate (s : Blake2b) (input : List Byte) : Blake2b :=
  if 128 < (s.bufLen + input.length) % 2 ^ 32 then
    let left := 128 - s.bufLen
    let buf := copyTo s.buf s.bufLen (input.take left)
    let s := { s with buf := buf, bufLen := 0, bufLen_le := (Nat.zero_le _).trans s.bufLen_le }
    deviceParts.absorb (deviceParts.nextBlock s buf) (input.drop left) rfl
  else if h : s.bufLen + input.length ≤ 128 then s.append input h
  else s

def deviceBlake2bFinal (s : Blake2b) (outLen : ℕ) : List Byte × Blake2b :=
  let s := deviceParts.lastBlock s
  ((deviceParts.stored s).take outLen, s)

def deviceBlake : BlakeCode := ⟨deviceBlake2bInit, deviceBlake2bUpdate, deviceBlake2bFinal⟩

def fitsDevice (piece : List Byte) : Prop := piece.length + 128 < 2 ^ 32

theorem deviceBlake2bUpdate_eq (s : Blake2b) {input : List Byte} (h : fitsDevice input) :
    deviceBlake2bUpdate s input = deviceParts.update s input := by
  have hle := s.bufLen_le
  have hlt : s.bufLen + input.length < 2 ^ 32 := by
    unfold fitsDevice at h
    omega
  rw [deviceBlake2bUpdate, BlakeParts.update, Nat.mod_eq_of_lt hlt]
  by_cases hlong : 128 < s.bufLen + input.length
  · rw [if_pos hlong, dif_pos hlong]
  · rw [if_neg hlong, dif_neg hlong, dif_pos (Nat.le_of_not_lt hlong)]

/-- The device hashes as the RFC does, whatever stood in the memory of the object. -/
theorem deviceBlake_hashes : deviceBlake.Hashes fitsDevice := by
  intro s nn pieces hnn hpieces
  have hfold : pieces.foldl deviceBlake2bUpdate (deviceBlake2bInit s nn) =
      pieces.foldl deviceParts.update (deviceParts.init s nn) := by
    apply List.foldl_ext
    intro s piece hpiece
    exact deviceBlake2bUpdate_eq s (hpieces piece hpiece)
  obtain ⟨q, hq⟩ := deviceParts.foldl_update_holds s hnn pieces
  change (deviceBlake2bFinal (pieces.foldl deviceBlake2bUpdate (deviceBlake2bInit s nn)) nn).1 = _
  rw [hfold]
  exact deviceParts.lastBlock_eq hq

end XnMiner
