import XnMiner.Network.Difficulty
import XnMiner.Vendor.Blake2b
import Mathlib.Data.List.Induction

/-! # Requests to the hash backend, and the bytes of a salt

A request is checked before it runs. The salt is then decoded three times: for the first blocks
on the device, for those on the host, and for the PHC string of a hit.
-/
namespace XnMiner
open TextCodec

/-- `std::stoi(s, nullptr, 16)` on two characters, which have no room for a digit behind `0x`. -/
def stoiHex (s : Str) : Option ℤ :=
  let (sign, r) := splitSign (s.dropWhile isSpace)
  let digits := r.takeWhile isXDigit
  if digits = [] then none
  else some (sign * (digits.foldl (fun n c => n * 16 + (nibble c).getD 0) 0 : ℕ))

/-- `hex_to_bytes` of the host's first blocks; `none` where it throws. -/
def hexToByteString (hex : Str) : Option (List Byte) :=
  match hex with
  | [] => some []
  | [c] => (stoiHex [c]).map fun v => [BitVec.ofInt 8 v]
  | c :: d :: rest => do
    let v ← stoiHex [c, d]
    let bs ← hexToByteString rest
    some (BitVec.ofInt 8 v :: bs)

namespace HashApi

def decodeHexNibble (value : Char) : Option ℕ := nibble value

/-- Behind an odd digit there is the zero at the end of the string, for which it throws. -/
def decodeHexBytes (hex : Str) : Option (List Byte) :=
  match hex with
  | [] => some []
  | [_] => none
  | c :: d :: rest => do
    let high ← decodeHexNibble c
    let low ← decodeHexNibble d
    let bs ← decodeHexBytes rest
    some (BitVec.ofNat 8 (high * 16 + low) :: bs)

structure Request where
  requestId : Str := []
  algorithm : Str := "argon2id-xen".toList
  backend : Str := "cpu".toList
  saltHex : Str := []
  key : Str := []
  keyPrefix : Str := []
  targetPattern : Str := "XEN11".toList
  difficulty : ℕ := 42069
  batchSize : ℕ := 1
  deviceId : ℤ := 0
  allowXuni : Bool := true
  gpuFirstBlocks : Bool := false

def kHashApiKeyLength : ℕ := 64

def kMaxTargetPatternLength : ℕ := 128

def kMaxCpuBatchSize : ℕ := 10000

def isSupportedAlgorithm (algorithm : Str) : Bool := algorithm == "argon2id-xen".toList

def isSupportedBackend (backend : Str) : Bool :=
  ["cpu".toList, "reference".toList, "cuda".toList].contains backend

def isHexString (value : Str) : Bool := value.all isXDigit

def withoutPrefix (value : Str) : Str :=
  match value with
  | '0' :: 'x' :: rest | '0' :: 'X' :: rest => rest
  | v => v

def normalizeHex (value : Str) : Str := lower (withoutPrefix value)

def failing (check : Bool) (message : String) : List Str := if check then [message.toList] else []

def validateRequest (r : Request) : List Str :=
  let salt := normalizeHex r.saltHex
  let keyPrefix := normalizeHex r.keyPrefix
  let key := normalizeHex r.key
  (if isSupportedAlgorithm r.algorithm then []
    else ["unsupported algorithm: ".toList ++ r.algorithm]) ++
  (if isSupportedBackend r.backend then [] else ["unsupported backend: ".toList ++ r.backend]) ++
  (if salt = [] then ["salt_hex is required".toList]
    else
      failing (salt.length % 2 ≠ 0) "salt_hex must contain an even number of hex characters" ++
      failing (salt.length < 16) "salt_hex must be at least 16 hex characters" ++
      failing (!isHexString salt) "salt_hex must contain only hex characters") ++
  (if keyPrefix = [] then []
    else
      failing (kHashApiKeyLength < keyPrefix.length) "key_prefix cannot exceed 64 hex characters" ++
      failing (!isHexString keyPrefix) "key_prefix must contain only hex characters") ++
  (if key = [] then []
    else
      failing (key.length ≠ kHashApiKeyLength) "key must contain exactly 64 hex characters" ++
      failing (!isHexString key) "key must contain only hex characters" ++
      failing (keyPrefix ≠ [] ∧ keyPrefix.isPrefixOf key = false)
        "key must start with key_prefix when both are provided") ++
  failing (r.targetPattern = []) "target_pattern is required" ++
  failing (kMaxTargetPatternLength < r.targetPattern.length) "target_pattern is too long" ++
  failing (r.difficulty = 0) "difficulty must be greater than zero" ++
  failing (r.batchSize = 0) "batch_size must be greater than zero" ++
  failing ((r.backend = "cpu".toList ∨ r.backend = "reference".toList) ∧
    kMaxCpuBatchSize < r.batchSize) "cpu batch_size exceeds safe limit" ++
  failing (r.deviceId < 0) "device_id must be non-negative" ++
  failing (r.gpuFirstBlocks ∧ r.backend ≠ "cuda".toList)
    "gpu_first_blocks requires backend=cuda"

def isValidRequest (r : Request) : Bool := (validateRequest r).isEmpty

structure Accepted (r : Request) : Prop where
  algorithm : r.algorithm = "argon2id-xen".toList
  salt : (normalizeHex r.saltHex).length % 2 = 0 ∧ 16 ≤ (normalizeHex r.saltHex).length ∧
    isHexString (normalizeHex r.saltHex) = true
  keyPrefix : (normalizeHex r.keyPrefix).length ≤ kHashApiKeyLength ∧
    isHexString (normalizeHex r.keyPrefix) = true
  key : normalizeHex r.key = [] ∨ (normalizeHex r.key).length = kHashApiKeyLength ∧
    isHexString (normalizeHex r.key) = true ∧
      (normalizeHex r.keyPrefix).isPrefixOf (normalizeHex r.key) = true
  targetPattern : r.targetPattern ≠ [] ∧ r.targetPattern.length ≤ kMaxTargetPatternLength
  difficulty : 0 < r.difficulty
  batchSize : 0 < r.batchSize

theorem failing_eq_nil {check : Bool} {message : String} :
    failing check message = [] ↔ check = false := by
  cases check <;> simp [failing]

theorem accepted_of_valid {r : Request} (h : isValidRequest r = true) : Accepted r := by
  simp only [isValidRequest, validateRequest, List.isEmpty_iff, List.append_eq_nil_iff] at h
  obtain ⟨⟨⟨⟨⟨⟨⟨⟨⟨⟨⟨halgorithm, _⟩, hsalt⟩, hprefix⟩, hkey⟩, hpattern⟩, hlong⟩, hdifficulty⟩,
    hbatch⟩, _⟩, _⟩, _⟩ := h
  simp only [failing_eq_nil, decide_eq_false_iff_not] at hpattern hlong hdifficulty hbatch
  refine ⟨?_, ?_, ?_, ?_, ⟨hpattern, Nat.le_of_not_lt hlong⟩, Nat.pos_of_ne_zero hdifficulty,
    Nat.pos_of_ne_zero hbatch⟩
  · split at halgorithm
    next hsup => exact eq_of_beq hsup
    next => cases halgorithm
  · split at hsalt
    next => cases hsalt
    next =>
      simp only [List.append_eq_nil_iff, failing_eq_nil, decide_eq_false_iff_not,
        Bool.not_eq_false'] at hsalt
      obtain ⟨⟨heven, hsize⟩, hhex⟩ := hsalt
      exact ⟨not_not.mp heven, Nat.le_of_not_lt hsize, hhex⟩
  · split at hprefix
    next hnone => simp [hnone, isHexString]
    next =>
      simp only [List.append_eq_nil_iff, failing_eq_nil, decide_eq_false_iff_not,
        Bool.not_eq_false'] at hprefix
      exact ⟨Nat.le_of_not_lt hprefix.1, hprefix.2⟩
  · split at hkey
    next hnone => exact Or.inl hnone
    next =>
      simp only [List.append_eq_nil_iff, failing_eq_nil, decide_eq_false_iff_not,
        Bool.not_eq_false', not_and, Bool.not_eq_false] at hkey
      obtain ⟨⟨hsize, hhex⟩, hstart⟩ := hkey
      refine Or.inr ⟨not_not.mp hsize, hhex, ?_⟩
      by_cases hempty : normalizeHex r.keyPrefix = []
      · rw [hempty]
        rfl
      · exact hstart hempty

theorem mem_of_isXDigit {c : Char} (h : isXDigit c = true) :
    c ∈ "0123456789abcdefABCDEF".toList := by
  obtain ⟨n, hn⟩ : ∃ n, n = c.toNat := ⟨_, rfl⟩
  have hc : c = Char.ofNat n := by rw [hn, Char.ofNat_toNat]
  have hcode : 48 ≤ n ∧ n ≤ 57 ∨ 97 ≤ n ∧ n ≤ 102 ∨ 65 ≤ n ∧ n ≤ 70 := by
    simp only [isXDigit, Char.isDigit, Bool.or_eq_true, Bool.and_eq_true, decide_eq_true_eq,
      Char.le_def, UInt32.le_iff_toNat_le, ge_iff_le, or_assoc] at h
    rw [hn]
    exact h
  rw [hc]
  rcases hcode with ⟨h1, h2⟩ | ⟨h1, h2⟩ | ⟨h1, h2⟩ <;> interval_cases n <;> decide

/-- A hex digit has the same value in either case. -/
theorem nibble_of_isXDigit {c : Char} (h : isXDigit c = true) :
    ∃ n < 16, nibble c = some n ∧ nibble c.toLower = some n := by
  have hall : ("0123456789abcdefABCDEF".toList.all fun d =>
      (nibble d).any (· < 16) && nibble d.toLower == nibble d) = true := by decide
  have hdigit := List.all_eq_true.mp hall c (mem_of_isXDigit h)
  rw [Bool.and_eq_true, Option.any_eq_true, beq_iff_eq] at hdigit
  obtain ⟨⟨n, hn, hlt⟩, hlower⟩ := hdigit
  exact ⟨n, of_decide_eq_true hlt, hn, hlower.trans hn⟩

theorem isXDigit_of_toLower {c : Char} (h : isXDigit c.toLower = true) : isXDigit c = true := by
  by_cases hup : 65 ≤ c.toNat ∧ c.toNat ≤ 90
  · obtain ⟨n, hn⟩ : ∃ n, n = c.toNat := ⟨_, rfl⟩
    have hc : c = Char.ofNat n := by rw [hn, Char.ofNat_toNat]
    rw [← hn] at hup
    obtain ⟨h1, h2⟩ := hup
    rw [hc] at h ⊢
    revert h
    interval_cases n <;> decide
  · have hsame : c.toLower = c := dif_neg hup
    rwa [hsame] at h

theorem stoiHex_of_isXDigit {c d : Char} (hc : isXDigit c = true) (hd : isXDigit d = true) :
    stoiHex [c, d] = some (((nibble c).getD 0 * 16 + (nibble d).getD 0 : ℕ) : ℤ) := by
  have hplain : ("0123456789abcdefABCDEF".toList.all fun e =>
      decide (isSpace e = false ∧ e ≠ '-' ∧ e ≠ '+')) = true := by decide
  obtain ⟨hspace, hminus, hplus⟩ :=
    of_decide_eq_true (List.all_eq_true.mp hplain c (mem_of_isXDigit hc))
  have hsign : splitSign [c, d] = (1, [c, d]) := by
    unfold splitSign
    split
    next h => exact absurd (List.cons.inj h).1 hminus
    next h => exact absurd (List.cons.inj h).1 hplus
    next => rfl
  simp [stoiHex, List.dropWhile, hspace, hsign, List.takeWhile, hc, hd]

/-- On an even number of hex digits in either case, all decoders give the same bytes. -/
theorem decoders_agree {text : Str} (heven : text.length % 2 = 0)
    (hhex : isHexString (lower text) = true) :
    ∃ bs, decodeHexBytes (lower text) = some bs ∧ hexToByteString (lower text) = some bs ∧
      hexToBytes text = bs.map BitVec.toNat ∧ text.length = 2 * bs.length := by
  induction text using List.twoStepInduction with
  | nil => exact ⟨[], rfl, rfl, rfl, rfl⟩
  | singleton c => simp at heven
  | cons_cons c d rest ih _ =>
    simp only [lower, List.map_cons, isHexString, List.all_cons, Bool.and_eq_true] at hhex
    obtain ⟨hc, hd, hrest⟩ := hhex
    simp only [List.length_cons] at heven
    obtain ⟨bs, hdevice, hhost, hphc, hlength⟩ := ih (by omega) hrest
    obtain ⟨hi, hhi, hcn, hcl⟩ := nibble_of_isXDigit (isXDigit_of_toLower hc)
    obtain ⟨lo, hlo, hdn, hdl⟩ := nibble_of_isXDigit (isXDigit_of_toLower hd)
    have hbyte : (BitVec.ofNat 8 (hi * 16 + lo)).toNat = hi * 16 + lo := by
      rw [BitVec.toNat_ofNat]
      omega
    refine ⟨BitVec.ofNat 8 (hi * 16 + lo) :: bs, ?_, ?_, ?_, ?_⟩
    · simp only [lower, List.map_cons, decodeHexBytes, decodeHexNibble, hcl, hdl]
      rw [lower] at hdevice
      rw [hdevice]
      rfl
    · simp only [lower, List.map_cons, hexToByteString, stoiHex_of_isXDigit hc hd, hcl, hdl]
      rw [lower] at hhost
      rw [hhost]
      rfl
    · rw [hexToBytes, hcn, hdn, List.map_cons, hbyte, hphc]
    · rw [List.length_cons, List.length_cons, List.length_cons, hlength]
      ring

/-- The bytes that the device hashes, those that the host hashes, and those that a PHC string
names are the same eight or more bytes for every accepted request. -/
theorem salt_bytes {r : Request} (h : isValidRequest r = true) :
    ∃ bs, decodeHexBytes (normalizeHex r.saltHex) = some bs ∧
      hexToByteString (normalizeHex r.saltHex) = some bs ∧
      hexToBytes (withoutPrefix r.saltHex) = bs.map BitVec.toNat ∧ 8 ≤ bs.length := by
  obtain ⟨heven, hlong, hhex⟩ := (accepted_of_valid h).salt
  rw [normalizeHex, lower, List.length_map] at heven hlong
  obtain ⟨bs, hdevice, hhost, hphc, hlength⟩ := decoders_agree heven hhex
  exact ⟨bs, hdevice, hhost, hphc, by omega⟩

end HashApi
end XnMiner
