import XnMiner.Lists.Chunks
import XnMiner.Mining.CudaEngine
import XnMiner.Mining.PreparedHits
import XnMiner.Vendor.Argon2Params

/-! # Matches in a wave

What a wave leaves on the host is searched for patterns after the next wave has begun: the digests
are encoded, and the encodings searched. Up to two threads share this work.
-/
namespace XnMiner
open TextCodec LittleEndian ListSearch Chunks

namespace HashApi

def base64EncodedLength (inLen : ℕ) : ℕ :=
  inLen / 3 * 4 + if inLen % 3 = 0 then 0 else inLen % 3 + 1

def base64Digit (value : Word32) : Char := kBase64Chars.getD (value &&& 0x3f).toNat 'A'

def base64EncodeBytes (bytes : List Byte) : Str :=
  match bytes with
  | [] => []
  | [a] =>
    let value : Word32 := a.setWidth 32 <<< 16
    [base64Digit (value >>> 18), base64Digit (value >>> 12)]
  | [a, b] =>
    let value : Word32 := a.setWidth 32 <<< 16 ||| b.setWidth 32 <<< 8
    [base64Digit (value >>> 18), base64Digit (value >>> 12), base64Digit (value >>> 6)]
  | a :: b :: c :: rest =>
    let value : Word32 := a.setWidth 32 <<< 16 ||| b.setWidth 32 <<< 8 ||| c.setWidth 32
    base64Digit (value >>> 18) :: base64Digit (value >>> 12) :: base64Digit (value >>> 6) ::
      base64Digit value :: base64EncodeBytes rest

/-- Nothing where the encoding has no room. -/
def base64EncodeTo (cap : ℕ) (bytes : List Byte) : Str :=
  if cap < base64EncodedLength bytes.length then [] else base64EncodeBytes bytes

def isSuperblockHash (hash : Str) : Bool := decide (50 ≤ hash.countP Char.isUpper)

def scan (here : Str → Bool) (hash : Str) : Bool :=
  decide (5 ≤ hash.length) && (List.range (hash.length - 4)).any fun i => here (hash.drop i)

def hasXuniMatch (hash : Str) : Bool := scan xuniHere hash

def containsXen11 (hash : Str) : Bool := scan "XEN11".toList.isPrefixOf hash

def containsPatternRaw (hash pattern : Str) : Bool :=
  if pattern = "XEN11".toList then containsXen11 hash
  else if pattern = [] ∨ hash.length < pattern.length then false
  else contains hash pattern

structure Match where
  key : Str
  hash : Str
  matchedPattern : Str
  attemptIndex : ℕ
  isSuperblock : Bool

/-- A digest is never paired with a key that is none. -/
def appendMatchesRaw (targetPattern : Str) (allowXuni : Bool) (key hash : Str) (attemptIndex : ℕ) :
    List Match :=
  if isHex64Key key = false then []
  else
    let xen := containsPatternRaw hash targetPattern
    let xuni := allowXuni && hasXuniMatch hash
    (if xen then [⟨key, hash, targetPattern, attemptIndex, isSuperblockHash hash⟩] else []) ++
      if xuni then [⟨key, hash, "XUNI".toList, attemptIndex, false⟩] else []

end HashApi

structure PipelinedBatch where
  /-- The digests are there, and not the last blocks. -/
  gpuFinalized : Bool
  keys : List Byte
  keyLength : ℕ
  digests : List Byte
  params : Argon2Params
  targetPattern : Str
  allowXuni : Bool
  singleKey : Bool
  requestId : Str
  attempts : ℕ
  difficulty : ℕ

structure HashApiResult where
  requestId : Str := []
  ok : Bool := false
  error : Str := []
  algorithm : Str := []
  backend : Str := []
  batchSize : ℕ := 0
  attempts : ℕ := 0
  gpuFirstBlocks : Bool := false
  hash : Str := []
  found : List HashApi.Match := []

def bytesText (bytes : List Byte) : Str := bytes.map fun b => Char.ofNat b.toNat

def bytesAt (bytes : List Byte) (start n : ℕ) : List Byte := (bytes.drop start).take n

def kDigestBase64Max : ℕ := 88

def kMaxFinalizeWorkers : ℕ := 2

/-- The hardware may not tell how many threads it has. -/
def cappedWorkerCount (hardwareThreads attempts hardCap minForParallel : ℕ) : ℕ :=
  if attempts < minForParallel ∨ hardCap ≤ 1 then 1
  else
    let hw := if hardwareThreads = 0 then hardCap else hardwareThreads
    let budget := max 1 (hw / 4)
    max 1 (min hardCap (min budget attempts))

namespace PipelinedBatch
variable (slot : PipelinedBatch) (i : ℕ)

def keyLen : ℕ := if 0 < slot.keyLength then slot.keyLength else HashApi.kHashApiKeyLength

def key : List Byte := bytesAt slot.keys (i * slot.keyLen) slot.keyLen

def digest : List Byte :=
  if slot.gpuFinalized then bytesAt slot.digests (i * 64) 64
  else slot.params.finalize fun l => Argon2.Block.ofBytes (bytesAt slot.digests ((i + l) * 1024) 1024)

def b64 : Str := HashApi.base64EncodeTo kDigestBase64Max (slot.digest i)

def matchesAt : List HashApi.Match :=
  if slot.b64 i = [] then []
  else HashApi.appendMatchesRaw slot.targetPattern slot.allowXuni (bytesText (slot.key i))
    (slot.b64 i) i

def worker (start stop : ℕ) : List HashApi.Match × Str :=
  let indices := List.range' start (stop - start)
  (indices.flatMap slot.matchesAt,
    if slot.singleKey then indices.foldl (fun h i => if slot.b64 i = [] then h else slot.b64 i) []
    else [])

/-- What the threads found, in the order of the threads. -/
def finalizeSlot (hardwareThreads : ℕ) : HashApiResult :=
  if slot.attempts = 0 then { backend := "cuda".toList, ok := true }
  else
    let nthreads := cappedWorkerCount hardwareThreads slot.attempts kMaxFinalizeWorkers 4096
    let parts :=
      if nthreads ≤ 1 then [slot.worker 0 slot.attempts]
      else (List.range nthreads).map fun t =>
        let start := t * chunkSize slot.attempts nthreads
        slot.worker start (chunkEnd slot.attempts nthreads start)
    { requestId := slot.requestId
      ok := true
      backend := "cuda".toList
      batchSize := slot.attempts
      attempts := slot.attempts
      hash := if slot.singleKey then (parts.find? (·.2 ≠ [])).elim [] (·.2) else []
      found := parts.flatMap (·.1) }

end PipelinedBatch

namespace HashApi

theorem base64Digit_eq (value : Word32) : base64Digit value = base64Char value.toNat := by
  have hlow : (value &&& 0x3f).toNat = value.toNat % 64 := by
    rw [BitVec.toNat_and]
    exact Nat.and_two_pow_sub_one_eq_mod value.toNat 6
  rw [base64Digit, base64Char, hlow]

theorem toNat_value (a b c : Byte) : (a.setWidth 32 <<< 16 ||| b.setWidth 32 <<< 8 |||
    c.setWidth 32 : Word32).toNat = a.toNat * 2 ^ 16 + b.toNat * 2 ^ 8 + c.toNat := by
  have hkept : ∀ x : Byte, x.toNat % 2 ^ 32 = x.toNat := fun x => by
    have hx := x.isLt
    omega
  have hhigh : ∀ x : Byte, x.toNat * 2 ^ 16 < 2 ^ 32 := fun x => by
    have hx := x.isLt
    omega
  have hmiddle : ∀ x : Byte, x.toNat * 2 ^ 8 < 2 ^ 32 := fun x => by
    have hx := x.isLt
    omega
  have hlow : ∀ x : Byte, x.toNat * 2 ^ 8 < 2 ^ 16 := fun x => by
    have hx := x.isLt
    omega
  have hpair : a.toNat * 2 ^ 16 ||| b.toNat * 2 ^ 8 = (a.toNat * 2 ^ 8 + b.toNat) * 2 ^ 8 := by
    rw [← Nat.shiftLeft_eq a.toNat 16, ← Nat.shiftLeft_add_eq_or_of_lt (hlow b), Nat.shiftLeft_eq]
    ring
  have hall : (a.toNat * 2 ^ 8 + b.toNat) * 2 ^ 8 ||| c.toNat =
      (a.toNat * 2 ^ 8 + b.toNat) * 2 ^ 8 + c.toNat := by
    rw [← Nat.shiftLeft_eq, ← Nat.shiftLeft_add_eq_or_of_lt c.isLt]
  simp only [BitVec.toNat_or, BitVec.toNat_shiftLeft, BitVec.toNat_setWidth, Nat.shiftLeft_eq, hkept,
    Nat.mod_eq_of_lt (hhigh a), Nat.mod_eq_of_lt (hmiddle b), hpair, hall]
  ring

theorem base64Digit_ushiftRight (value : Word32) (k : ℕ) :
    base64Digit (value >>> k) = base64Char (value.toNat / 2 ^ k) := by
  rw [base64Digit_eq, BitVec.toNat_ushiftRight, Nat.shiftRight_eq_div_pow]

theorem base64EncodeBytes_eq (bytes : List Byte) :
    base64EncodeBytes bytes = base64Encode (bytes.map BitVec.toNat) := by
  have hzero : (0#8).setWidth 32 = 0#32 := rfl
  induction bytes using base64EncodeBytes.induct with
  | case1 => rfl
  | case2 a =>
    have hvalue := toNat_value a 0#8 0#8
    rw [hzero, BitVec.zero_shiftLeft, BitVec.or_zero, BitVec.or_zero, show (0#8).toNat = 0 from rfl,
      Nat.zero_mul, Nat.add_zero] at hvalue
    simp only [base64EncodeBytes, List.map_cons, List.map_nil, base64Encode, base64Digit_ushiftRight,
      hvalue]
  | case3 a b =>
    have hvalue := toNat_value a b 0#8
    rw [hzero, BitVec.or_zero, show (0#8).toNat = 0 from rfl, Nat.add_zero] at hvalue
    simp only [base64EncodeBytes, List.map_cons, List.map_nil, base64Encode, base64Digit_ushiftRight,
      hvalue]
  | case4 a b c rest ih =>
    simp only [base64EncodeBytes, List.map_cons, base64Encode, base64Digit_ushiftRight, ih]
    rw [base64Digit_eq, toNat_value]

theorem length_base64EncodeBytes (bytes : List Byte) :
    (base64EncodeBytes bytes).length = base64EncodedLength bytes.length := by
  induction bytes using base64EncodeBytes.induct with
  | case1 => rfl
  | case2 a => simp [base64EncodeBytes, base64EncodedLength]
  | case3 a b => simp [base64EncodeBytes, base64EncodedLength]
  | case4 a b c rest ih =>
    simp only [base64EncodeBytes, List.length_cons, ih, base64EncodedLength]
    rw [show rest.length + 1 + 1 + 1 = rest.length + 3 from rfl, Nat.add_div_right _ (by decide),
      Nat.add_mod_right]
    ring

theorem base64EncodeTo_digest {bytes : List Byte} (h : bytes.length = 64) :
    base64EncodeTo kDigestBase64Max bytes = base64Encode (bytes.map BitVec.toNat) ∧
      (base64EncodeTo kDigestBase64Max bytes).length = 86 := by
  have hlength := length_base64EncodeBytes bytes
  rw [h] at hlength
  rw [base64EncodeTo, h, if_neg (by decide), ← base64EncodeBytes_eq]
  exact ⟨rfl, hlength⟩

theorem scan_eq_search {here : Str → Bool} (hlong : ∀ s, here s = true → 5 ≤ s.length) (hash : Str) :
    scan here hash = search here hash := by
  induction hash with
  | nil =>
    have hnil : here [] = false := by
      rw [Bool.eq_false_iff]
      exact fun h => absurd (hlong [] h) (by decide)
    rw [search, hnil]
    rfl
  | cons c cs ih =>
    rw [search, ← ih]
    by_cases hroom : 5 ≤ cs.length
    · rw [scan, scan, List.length_cons, decide_eq_true hroom, decide_eq_true (by omega),
        show cs.length + 1 - 4 = cs.length - 4 + 1 by omega, List.range_succ_eq_map, List.any_cons,
        List.any_map]
      rfl
    · have hrest : scan here cs = false := by rw [scan, decide_eq_false hroom, Bool.false_and]
      rw [hrest, Bool.or_false, scan, List.length_cons]
      rcases Nat.lt_or_ge cs.length 4 with hlt | hge
      · rw [decide_eq_false (by omega), Bool.false_and, eq_comm, Bool.eq_false_iff]
        exact fun h => absurd (hlong _ h) (by rw [List.length_cons]; omega)
      · rw [decide_eq_true (by omega), show cs.length + 1 - 4 = 1 by omega]
        simp [List.range_succ]

theorem hasXuniMatch_eq (hash : Str) : hasXuniMatch hash = containsXuni hash := by
  rw [hasXuniMatch, containsXuni_eq_search]
  refine scan_eq_search (fun s h => ?_) hash
  unfold xuniHere at h
  split at h
  · simp
  · cases h

theorem containsXen11_eq (hash : Str) : containsXen11 hash = contains hash "XEN11".toList := by
  rw [containsXen11, contains_eq_search]
  refine scan_eq_search (fun s h => ?_) hash
  have hlength : "XEN11".toList.length = 5 := by decide
  exact hlength ▸ (List.isPrefixOf_iff_prefix.mp h).length_le

theorem length_le_of_contains {hash pattern : Str} (h : contains hash pattern = true) :
    pattern.length ≤ hash.length := by
  induction hash with
  | nil => rw [List.isEmpty_iff.mp h]
  | cons c cs ih =>
    rw [contains, Bool.or_eq_true] at h
    rcases h with h | h
    · exact (List.isPrefixOf_iff_prefix.mp h).length_le
    · exact Nat.le_succ_of_le (ih h)

theorem containsPatternRaw_eq {hash pattern : Str} (hpattern : pattern ≠ []) :
    containsPatternRaw hash pattern = contains hash pattern := by
  rw [containsPatternRaw]
  split
  next heq => rw [containsXen11_eq, heq]
  next =>
    split
    next hshort =>
      rw [eq_comm, Bool.eq_false_iff]
      exact fun h => absurd (length_le_of_contains h) (Nat.not_le.mpr (hshort.resolve_left hpattern))
    next => rfl

theorem contains_of_containsPatternRaw {hash pattern : Str}
    (h : containsPatternRaw hash pattern = true) : contains hash pattern = true := by
  have hpattern : pattern ≠ [] := by
    rintro rfl
    simp [containsPatternRaw] at h
  rwa [containsPatternRaw_eq hpattern] at h

theorem of_mem_appendMatchesRaw {pattern key hash : Str} {allowXuni : Bool} {i : ℕ} {m : Match}
    (h : m ∈ appendMatchesRaw pattern allowXuni key hash i) : isHex64Key key = true ∧
      (contains hash pattern = true ∧ m = ⟨key, hash, pattern, i, isSuperblockHash hash⟩ ∨
        containsXuni hash = true ∧ m = ⟨key, hash, "XUNI".toList, i, false⟩) := by
  unfold appendMatchesRaw at h
  split at h
  next => cases h
  next hkey =>
    refine ⟨by simpa using hkey, ?_⟩
    rcases List.mem_append.mp h with hm | hm
    · split at hm
      next hxen => exact .inl ⟨contains_of_containsPatternRaw hxen, List.mem_singleton.mp hm⟩
      next => cases hm
    · split at hm
      next hxuni =>
        rw [Bool.and_eq_true, hasXuniMatch_eq] at hxuni
        exact .inr ⟨hxuni.2, List.mem_singleton.mp hm⟩
      next => cases hm

/-- A match has a key that the miner hands on, and is classified as its flag says, unless the other
pattern is in the digest too. -/
theorem class_of_mem_appendMatchesRaw {allowXuni : Bool} {key hash : Str} {i : ℕ} {m : Match}
    (h : m ∈ appendMatchesRaw "XEN11".toList allowXuni key hash i) (hplain : '$' ∉ hash) :
    isHex64Key m.key = true ∧ classifyBlock m.hash m.matchedPattern =
      (if containsXuni m.hash then BlockClass.xuni
        else if m.isSuperblock then BlockClass.xblk else BlockClass.xnm).text := by
  have hsuper : isSuperblock hash = isSuperblockHash hash := by
    rw [isSuperblock, hashDigest_bare hplain]
    rfl
  rw [classifyBlock_eq]
  obtain ⟨hkey, ⟨hxen, rfl⟩ | ⟨hxuni, rfl⟩⟩ := of_mem_appendMatchesRaw h
  · refine ⟨hkey, congrArg _ ?_⟩
    have hnamed : namedClass "XEN11".toList = .xnm := by decide
    simp only [hnamed, hxen, hsuper]
    cases containsXuni hash <;> cases isSuperblockHash hash <;> rfl
  · refine ⟨hkey, congrArg _ ?_⟩
    simp only [hxuni, if_true]
    exact if_pos (Or.inr rfl)

theorem dollar_notMem_base64EncodeTo (cap : ℕ) (bytes : List Byte) :
    '$' ∉ base64EncodeTo cap bytes := by
  rw [base64EncodeTo]
  split
  · exact List.not_mem_nil
  · rw [base64EncodeBytes_eq]
    exact dollar_notMem_base64Encode _

/-- The engine classifies a match of the pattern XEN11 in an encoded digest as its flag says, unless
the other pattern is in the digest too. -/
theorem classifyBlock_of_match {allowXuni : Bool} {key : Str} {cap i : ℕ} {digest : List Byte}
    {m : Match}
    (h : m ∈ appendMatchesRaw "XEN11".toList allowXuni key (base64EncodeTo cap digest) i) :
    isHex64Key m.key = true ∧ classifyBlock m.hash m.matchedPattern =
      (if containsXuni m.hash then BlockClass.xuni
        else if m.isSuperblock then BlockClass.xblk else BlockClass.xnm).text :=
  class_of_mem_appendMatchesRaw h (dollar_notMem_base64EncodeTo cap digest)

def xen11Digest : List Byte := [109, 113, 13, 215, 80, 0]

theorem classifyBlock_of_match_xnm : isHex64Key (List.replicate 64 'a') = true ∧
    classifyBlock "bXEN11AA".toList "XEN11".toList = BlockClass.xnm.text :=
  have hfound : (⟨List.replicate 64 'a', "bXEN11AA".toList, "XEN11".toList, 0, false⟩ : Match) ∈
      appendMatchesRaw "XEN11".toList false (List.replicate 64 'a')
        (base64EncodeTo kDigestBase64Max xen11Digest) 0 :=
    List.mem_singleton.mpr rfl
  classifyBlock_of_match hfound

end HashApi

namespace PipelinedBatch
variable (slot : PipelinedBatch)

theorem finalizeSlot_found (hardwareThreads : ℕ) : (slot.finalizeSlot hardwareThreads).found =
    (List.range slot.attempts).flatMap slot.matchesAt := by
  unfold finalizeSlot
  split
  next hzero => rw [hzero]; rfl
  next =>
    simp only
    split
    next =>
      rw [List.flatMap_singleton, worker, Nat.sub_zero, List.range_eq_range']
    next hmany =>
      rw [List.flatMap_map, ← flatMap_chunks (n := slot.attempts) (Nat.lt_of_not_le fun h =>
        hmany (Nat.le_trans h (Nat.zero_le 1))), List.flatMap_assoc]
      rfl

end PipelinedBatch

end XnMiner
