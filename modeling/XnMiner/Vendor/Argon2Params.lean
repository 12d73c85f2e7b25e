import XnMiner.Words.Argon2
import XnMiner.Vendor.Validation

/-! # The host's part of Argon2

The host computes the first two blocks of each lane from the password, and the tag from the
last block of each lane. The device computes what is between, and where it can the rest too.
-/
namespace XnMiner
open LittleEndian TextCodec

abbrev Word32 := BitVec 32

def store32 (v : Word32) : List Byte :=
  [v.setWidth 8, (v >>> 8).setWidth 8, (v >>> 16).setWidth 8, (v >>> 24).setWidth 8]

def append32 (dst : List Byte) (v : Word32) : List Byte := dst ++ store32 v

/-- The three operations of a BLAKE2b; the device has its own. -/
structure BlakeCode where
  init : Blake2b → ℕ → Blake2b
  update : Blake2b → List Byte → Blake2b
  final : Blake2b → ℕ → List Byte × Blake2b

def hostBlake : BlakeCode := ⟨Blake2b.init, Blake2b.update, Blake2b.final⟩

def BlakeCode.digestRest (c : BlakeCode) (blake : Blake2b) (outBuffer : List Byte)
    (toProduce : ℕ) : List Byte :=
  if 64 < toProduce then
    let (outBuffer, blake) := c.final (c.update (c.init blake 64) outBuffer) 64
    outBuffer.take 32 ++ c.digestRest blake outBuffer (toProduce - 32)
  else (c.final (c.update (c.init blake toProduce) outBuffer) toProduce).1
termination_by toProduce

def BlakeCode.digestLong (c : BlakeCode) (blake : Blake2b) (outLen : ℕ) (input : List Byte) :
    List Byte :=
  let outlenBytes := store32 (BitVec.ofNat 32 outLen)
  if outLen ≤ 64 then
    (c.final (c.update (c.update (c.init blake outLen) outlenBytes) input) outLen).1
  else
    let (outBuffer, blake) := c.final (c.update (c.update (c.init blake 64) outlenBytes) input) 64
    outBuffer.take 32 ++ c.digestRest blake outBuffer (outLen - 32)

def digestLong (outLen : ℕ) (input : List Byte) : List Byte :=
  hostBlake.digestLong Blake2b.zero outLen input

abbrev Argon2Type := Argon2.Kind

inductive Argon2Version
  | v10
  | v13

def Argon2Version.code : Argon2Version → ℕ
  | v10 => 0x10
  | v13 => 0x13

structure Argon2Params where
  type : Argon2Type
  version : Argon2Version
  secret : List Byte
  ad : List Byte
  salt : Str
  outLen : Word32
  tCost : Word32
  mCost : Word32
  lanes : Word32
  segmentBlocks : Word32
  /-- Their lengths are kept in 32 bits. -/
  secret_lt : secret.length < 2 ^ 32
  ad_lt : ad.length < 2 ^ 32

/-- The constructor; it does not validate its inputs. -/
def Argon2Params.make (type : Argon2Type) (version : Argon2Version) (outLen : ℕ) (salt : Str)
    (secret ad : List Byte) (tCost mCost lanes : ℕ) (hsecret : secret.length < 2 ^ 32)
    (had : ad.length < 2 ^ 32) : Argon2Params :=
  let segments := lanes * 4 % 2 ^ 64
  { type, version, secret, ad, salt
    outLen := BitVec.ofNat 32 outLen
    tCost := BitVec.ofNat 32 tCost
    mCost := BitVec.ofNat 32 mCost
    lanes := BitVec.ofNat 32 lanes
    segmentBlocks := BitVec.ofNat 32 (max mCost (2 * segments % 2 ^ 64) / segments)
    secret_lt := hsecret
    ad_lt := had }

variable (p : Argon2Params)

def Argon2Params.secretLen : Word32 := BitVec.ofNat 32 p.secret.length

def Argon2Params.adLen : Word32 := BitVec.ofNat 32 p.ad.length

/-- The hash of the inputs; it throws where `hexToByteString` does. -/
def Argon2Params.initialHash (pwd : List Byte) : Option (List Byte) :=
  (hexToByteString p.salt).map fun hexSalt =>
    let blake := Blake2b.zero.init 64
    if p.secretLen = 0 ∧ p.adLen = 0 then
      let header := append32 [] p.lanes
      let header := append32 header p.outLen
      let header := append32 header p.mCost
      let header := append32 header p.tCost
      let header := append32 header (BitVec.ofNat 32 p.version.code)
      let header := append32 header (BitVec.ofNat 32 p.type.code)
      let header := append32 header (BitVec.ofNat 32 pwd.length)
      let blake := (blake.update header).update pwd
      let blake := (blake.update (store32 (BitVec.ofNat 32 hexSalt.length))).update hexSalt
      let blake := blake.update (append32 (append32 [] p.secretLen) p.adLen)
      (blake.final 64).1
    else
      let blake := blake.update (store32 p.lanes)
      let blake := blake.update (store32 p.outLen)
      let blake := blake.update (store32 p.mCost)
      let blake := blake.update (store32 p.tCost)
      let blake := blake.update (store32 (BitVec.ofNat 32 p.version.code))
      let blake := blake.update (store32 (BitVec.ofNat 32 p.type.code))
      let blake := (blake.update (store32 (BitVec.ofNat 32 pwd.length))).update pwd
      let blake := (blake.update (store32 (BitVec.ofNat 32 hexSalt.length))).update hexSalt
      let blake := (blake.update (store32 p.secretLen)).update p.secret
      let blake := (blake.update (store32 p.adLen)).update p.ad
      (blake.final 64).1

/-- The bytes written at `memory`: block 0 of every lane, then block 1 of every lane. -/
def Argon2Params.fillFirstBlocks (pwd : List Byte) : Option (List Byte) :=
  (p.initialHash pwd).map fun initHash =>
    let slot := fun j : Word32 => (List.range p.lanes.toNat).flatMap fun l =>
      digestLong 1024 (initHash ++ store32 j ++ store32 (BitVec.ofNat 32 l))
    slot 0 ++ slot 1

def Argon2Params.finalize (memory : ℕ → Argon2.Block) : List Byte :=
  if p.lanes = 1 then digestLong p.outLen.toNat (memory 0).toBytes
  else
    let xored := (List.range' 1 (p.lanes.toNat - 1)).foldl (fun x l => x.xor (memory l)) (memory 0)
    digestLong p.outLen.toNat xored.toBytes

/-- `store32` keeps the low 32 bits, as the length fields of the RFC do. -/
theorem store32_eq (n : ℕ) : store32 (BitVec.ofNat 32 n) = Argon2.LE32 n := by
  simp only [store32, setWidth_ushiftRight, Argon2.LE32, bytes, List.cons.injEq, and_true]
  refine ⟨?_, ?_, ?_, ?_⟩ <;> apply BitVec.eq_of_toNat_eq <;>
    simp only [BitVec.toNat_setWidth, BitVec.toNat_ofNat] <;> omega

theorem store32_toNat (v : Word32) : store32 v = Argon2.LE32 v.toNat := by
  have h := store32_eq v.toNat
  rwa [BitVec.ofNat_toNat, BitVec.setWidth_eq] at h

def BlakeCode.Hashes (c : BlakeCode) (ok : List Byte → Prop) : Prop :=
  ∀ (s : Blake2b) (nn : ℕ) (pieces : List (List Byte)), nn ≤ 64 → (∀ piece ∈ pieces, ok piece) →
    (c.final (pieces.foldl c.update (c.init s nn)) nn).1 = Blake2.blake2b.hash nn pieces.flatten

theorem hostBlake_hashes : hostBlake.Hashes fun _ => True := by
  intro s nn pieces hnn _
  exact final_foldl_update s hnn pieces

section Digest
variable {c : BlakeCode} {ok : List Byte → Prop} (hc : c.Hashes ok)
  (hok : ∀ piece : List Byte, piece.length ≤ 64 → ok piece)
include hc hok

theorem digestRest_eq {T : ℕ} {A : List Byte} (blake : Blake2b) {k : ℕ}
    (hk : k + 1 ≤ (T + 31) / 32 - 2) :
    c.digestRest blake (Argon2.chained T A k) (T - 32 * (k + 1)) =
      (List.range' (k + 1) ((T + 31) / 32 - 2 - (k + 1))).flatMap
        (fun i => (Argon2.chained T A i).take 32) ++
      Blake2.blake2b.hash (T - 32 * ((T + 31) / 32 - 2))
        (Argon2.chained T A ((T + 31) / 32 - 2 - 1)) := by
  have hbuffer : ok (Argon2.chained T A k) := hok _ (Argon2.length_chained T A k).le
  obtain ⟨n, hn⟩ : ∃ n, n = (T + 31) / 32 - 2 - (k + 1) := ⟨_, rfl⟩
  induction n generalizing k blake with
  | zero =>
    have hlast : k = (T + 31) / 32 - 2 - 1 := by omega
    have hshort : ¬64 < T - 32 * (k + 1) := by omega
    rw [BlakeCode.digestRest, if_neg hshort, ← hn, List.range'_zero, List.flatMap_nil,
      List.nil_append, ← hlast, show (T + 31) / 32 - 2 = k + 1 by omega]
    have hhash := hc blake (T - 32 * (k + 1)) [Argon2.chained T A k] (by omega) (by simpa using hbuffer)
    rwa [List.flatten_singleton] at hhash
  | succ n ih =>
    have hlong : 64 < T - 32 * (k + 1) := by omega
    have hrest : T - 32 * (k + 1) - 32 = T - 32 * (k + 1 + 1) := by omega
    have hhash := hc blake 64 [Argon2.chained T A k] (by decide) (by simpa using hbuffer)
    obtain ⟨next, blake', hfinal⟩ : ∃ next blake',
        c.final (c.update (c.init blake 64) (Argon2.chained T A k)) 64 = (next, blake') := ⟨_, _, rfl⟩
    rw [List.foldl_cons, List.foldl_nil, hfinal, List.flatten_singleton] at hhash
    have hnext : next = Argon2.chained T A (k + 1) := hhash
    rw [BlakeCode.digestRest, if_pos hlong, hfinal, hnext]
    simp only
    rw [hrest, ih blake' (by omega) (hok _ (Argon2.length_chained T A _).le) (by omega), ← hn,
      List.range'_succ, List.flatMap_cons, List.append_assoc]
    rw [show (T + 31) / 32 - 2 - (k + 1 + 1) = n by omega]

/-- The loop of the source computes the variable-length hash function. -/
theorem digestLong_eq (blake : Blake2b) (T : ℕ) {A : List Byte} (hA : ok A) :
    c.digestLong blake T A = Argon2.hashLong T A := by
  have hlen : ok (Argon2.LE32 T) := hok _ (by simp [Argon2.LE32])
  have hpieces : ∀ piece ∈ [Argon2.LE32 T, A], ok piece := by
    simpa using ⟨hlen, hA⟩
  rw [BlakeCode.digestLong, Argon2.hashLong, store32_eq]
  split
  next hshort =>
    have hhash := hc blake T _ hshort hpieces
    simpa using hhash
  next hlong =>
    have hhash := hc blake 64 _ (by decide) hpieces
    obtain ⟨next, blake', hfinal⟩ : ∃ next blake',
        c.final (c.update (c.update (c.init blake 64) (Argon2.LE32 T)) A) 64 = (next, blake') :=
      ⟨_, _, rfl⟩
    have hnext : next = Argon2.chained T A 0 := by
      rw [List.foldl_cons, List.foldl_cons, List.foldl_nil, hfinal] at hhash
      simpa [Argon2.chained] using hhash
    obtain ⟨r, hr⟩ : ∃ r, (T + 31) / 32 - 2 = r + 1 := ⟨(T + 31) / 32 - 3, by omega⟩
    have hrest := digestRest_eq hc hok (A := A) blake' (k := 0) (T := T) (by omega)
    rw [hfinal, hnext]
    simp only [hr] at hrest ⊢
    rw [Nat.zero_add, Nat.mul_one] at hrest
    rw [hrest, List.range_eq_range', List.range'_succ, List.flatMap_cons, List.append_assoc]
    rfl

end Digest

theorem hostDigestLong_eq (T : ℕ) (A : List Byte) : digestLong T A = Argon2.hashLong T A :=
  digestLong_eq hostBlake_hashes (fun _ _ => trivial) Blake2b.zero T trivial

def Argon2Params.rfc : Argon2.Params where
  kind := p.type
  p := p.lanes.toNat
  m := p.mCost.toNat
  t := p.tCost.toNat
  T := p.outLen.toNat
  v := p.version.code

def Argon2Params.inputs (pwd salt : List Byte) : Argon2.Inputs := ⟨pwd, salt, p.secret, p.ad⟩

variable {p}

theorem length_eq_zero_of_len {xs : List Byte} (hlt : xs.length < 2 ^ 32)
    (h : BitVec.ofNat 32 xs.length = 0) : xs = [] := by
  have hnat := congrArg BitVec.toNat h
  rw [BitVec.toNat_ofNat, Nat.mod_eq_of_lt hlt] at hnat
  exact List.eq_nil_of_length_eq_zero hnat

theorem initialHash_eq (pwd : List Byte) : p.initialHash pwd =
    (hexToByteString p.salt).map fun salt => p.rfc.H0 (p.inputs pwd salt) := by
  rw [Argon2Params.initialHash]
  congr 1
  funext salt
  have hhash := fun pieces => final_foldl_update Blake2b.zero (by decide : 64 ≤ 64) pieces
  have hlanes := store32_toNat p.lanes
  have hout := store32_toNat p.outLen
  have hm := store32_toNat p.mCost
  have ht := store32_toNat p.tCost
  simp only
  split
  next h =>
    obtain ⟨hsecret, had⟩ := h
    have hs := length_eq_zero_of_len p.secret_lt hsecret
    have ha := length_eq_zero_of_len p.ad_lt had
    refine (hhash [_, _, _, _, _]).trans ?_
    simp only [append32, store32_eq, hlanes, hout, hm, ht, Argon2Params.secretLen, Argon2Params.adLen,
      Argon2.Params.H0, Argon2Params.rfc, Argon2Params.inputs, hs, ha, List.flatten_cons,
      List.flatten_nil, List.nil_append, List.append_nil, List.append_assoc]
  next h =>
    refine (hhash [_, _, _, _, _, _, _, _, _, _, _, _, _, _]).trans ?_
    simp only [store32_eq, hlanes, hout, hm, ht, Argon2Params.secretLen, Argon2Params.adLen,
      Argon2.Params.H0, Argon2Params.rfc, Argon2Params.inputs, List.flatten_cons,
      List.flatten_nil, List.append_nil, List.append_assoc]

/-- Block 0 of every lane, then block 1 of every lane. -/
theorem fillFirstBlocks_eq (pwd : List Byte) : p.fillFirstBlocks pwd =
    (hexToByteString p.salt).map fun salt =>
      (List.range 2).flatMap fun j => (List.range p.lanes.toNat).flatMap fun l =>
        (Argon2.firstBlock (p.rfc.H0 (p.inputs pwd salt)) l j).toBytes := by
  rw [Argon2Params.fillFirstBlocks, initialHash_eq, Option.map_map]
  refine congrArg (Option.map · (hexToByteString p.salt)) ?_
  funext salt
  have hblock : ∀ l j, digestLong 1024 (p.rfc.H0 (p.inputs pwd salt) ++ Argon2.LE32 j ++
      Argon2.LE32 l) = (Argon2.firstBlock (p.rfc.H0 (p.inputs pwd salt)) l j).toBytes := by
    intro l j
    rw [hostDigestLong_eq, Argon2.firstBlock,
      Argon2.Block.toBytes_ofBytes (Argon2.length_hashLong _ _)]
  have h0 : store32 0 = Argon2.LE32 0 := store32_eq 0
  have h1 : store32 1 = Argon2.LE32 1 := store32_eq 1
  simp only [Function.comp_apply, store32_eq, h0, h1, hblock, List.range_succ, List.range_zero,
    List.flatMap_append, List.flatMap_singleton, List.nil_append]

/-- The tag of the last blocks of the lanes, however many lanes there are. -/
theorem finalize_eq (hlanes : 0 < p.lanes.toNat) (memory : ℕ → Argon2.Block) :
    p.finalize memory = Argon2.hashLong p.outLen.toNat
      ((List.range p.lanes.toNat).foldl (fun b l => b.xor (memory l)) Argon2.Block.zero).toBytes := by
  obtain ⟨n, hn⟩ : ∃ n, p.lanes.toNat = n + 1 := ⟨p.lanes.toNat - 1, by omega⟩
  have hfold : (List.range p.lanes.toNat).foldl (fun b l => b.xor (memory l)) Argon2.Block.zero =
      (List.range' 1 n).foldl (fun x l => x.xor (memory l)) (memory 0) := by
    rw [hn, List.range_eq_range', List.range'_succ, List.foldl_cons, Argon2.Block.zero_xor]
  rw [Argon2Params.finalize, hostDigestLong_eq, hostDigestLong_eq, hfold]
  split
  next h =>
    have hone : n = 0 := by
      rw [h] at hn
      simpa using hn.symm
    rw [hone]
    rfl
  next h => rw [hn, Nat.add_sub_cancel]

theorem finalize_eq_twoLanes : (Argon2Params.make .id .v13 64 [] [] [] 1 16 2 (by decide)
    (by decide)).finalize (fun l => Vector.replicate 128 (BitVec.ofNat 64 (l + 1))) =
      Argon2.hashLong 64 (Argon2.Block.toBytes (Vector.replicate 128 3)) := by
  refine (finalize_eq (by decide) _).trans ?_
  have hxor : (List.range 2).foldl (fun b l => b.xor (Vector.replicate 128 (BitVec.ofNat 64 (l + 1))))
      Argon2.Block.zero = Vector.replicate 128 3 := by
    simp [List.range_succ, Argon2.Block.xor, Argon2.Block.zero]
  exact congrArg (fun b => Argon2.hashLong 64 (Argon2.Block.toBytes b)) hxor

end XnMiner
