import XnMiner.Mining.BlockTypes
import Mathlib.Data.List.Infix

/-! # PHC strings of hits

The GPU returns a digest without parameters. The string for the pool names the
parameters and the salt before it.
-/
namespace XnMiner
open TextCodec

def nibble (c : Char) : Option ℕ :=
  if '0' ≤ c ∧ c ≤ '9' then some (c.toNat - '0'.toNat)
  else if 'a' ≤ c ∧ c ≤ 'f' then some (c.toNat - 'a'.toNat + 10)
  else if 'A' ≤ c ∧ c ≤ 'F' then some (c.toNat - 'A'.toNat + 10)
  else none

/-- Pairs of hex digits, up to the first pair that is not one. -/
def hexToBytes (hex : Str) : List ℕ :=
  match hex with
  | c :: d :: rest => match nibble c, nibble d with
    | some hi, some lo => (hi * 16 + lo) :: hexToBytes rest
    | _, _ => []
  | _ => []

def kBase64Chars : Str :=
  "ABCDEFGHIJKLMNOPQRSTUVWXYZabcdefghijklmnopqrstuvwxyz0123456789+/".toList

def base64Char (n : ℕ) : Char := kBase64Chars.getD (n % 64) 'A'

def base64Encode (bytes : List ℕ) : Str :=
  match bytes with
  | [] => []
  | [a] =>
    let value := a * 2 ^ 16
    [base64Char (value / 2 ^ 18), base64Char (value / 2 ^ 12)]
  | [a, b] =>
    let value := a * 2 ^ 16 + b * 2 ^ 8
    [base64Char (value / 2 ^ 18), base64Char (value / 2 ^ 12), base64Char (value / 2 ^ 6)]
  | a :: b :: c :: rest =>
    let value := a * 2 ^ 16 + b * 2 ^ 8 + c
    base64Char (value / 2 ^ 18) :: base64Char (value / 2 ^ 12) :: base64Char (value / 2 ^ 6) ::
      base64Char value :: base64Encode rest

theorem base64Char_ne_dollar (n : ℕ) : base64Char n ≠ '$' := by
  have hall : ∀ k < 64, kBase64Chars.getD k 'A' ≠ '$' := by decide +kernel
  exact hall (n % 64) (Nat.mod_lt _ (by decide))

theorem dollar_notMem_base64Encode (bytes : List ℕ) : '$' ∉ base64Encode bytes := by
  induction bytes using base64Encode.induct with
  | case1 => exact List.not_mem_nil
  | case2 | case3 => simp [base64Encode, (base64Char_ne_dollar _).symm]
  | case4 a b c rest ih => simp [base64Encode, (base64Char_ne_dollar _).symm, ih]

def isXDigit (c : Char) : Bool :=
  c.isDigit || (decide ('a' ≤ c) && decide (c ≤ 'f')) || (decide ('A' ≤ c) && decide (c ≤ 'F'))

def isHex64Key (key : Str) : Bool := decide (key.length = 64) && key.all isXDigit

def isArgon2Encoded (hashStr : Str) : Bool := "$argon2".toList.isPrefixOf hashStr

/-- A match of `\$m=(\d+),` at the start, by its digits. -/
def costHere (s : Str) : Option Str :=
  match s with
  | '$' :: 'm' :: '=' :: rest =>
    let digits := rest.takeWhile Char.isDigit
    match rest.dropWhile Char.isDigit with
    | ',' :: _ => if digits = [] then none else some digits
    | _ => none
  | _ => none

def findCost (s : Str) : Option Str :=
  match s with
  | [] => none
  | c :: cs => match costHere (c :: cs) with
    | some digits => some digits
    | none => findCost cs

/-- `std::stoi` on digits; `none` where it throws. -/
def stoi (digits : Str) : Option ℤ :=
  if readNat digits < 2 ^ 31 then some (readNat digits) else none

def memoryCostFromHash (hashStr : Str) : Option ℤ :=
  if isArgon2Encoded hashStr then (findCost hashStr).bind stoi else none

def toUint32 (i : ℤ) : ℕ := (i % 2 ^ 32).toNat

def encodeArgon2idPhc (saltHex : Str) (memoryCost timeCost parallelism : ℕ) (pureB64Hash : Str) :
    Str :=
  "$argon2id$v=19$m=".toList ++ natText memoryCost ++ ",t=".toList ++ natText timeCost ++
    ",p=".toList ++ natText parallelism ++ "$".toList ++ base64Encode (hexToBytes saltHex) ++
    "$".toList ++ pureB64Hash

def prepareHitForSubmit (hit : BlockHit) (saltHex : Str) (memoryCost timeCost parallelism : ℤ) :
    Option BlockHit :=
  if isArgon2Encoded hit.hashStr then
    let blockM := memoryCostFromHash hit.hashStr
    if blockM.any fun m => m != memoryCost then none
    else some { hit with blockType := classifyBlock hit.hashStr hit.blockType }
  else
    let encoded := encodeArgon2idPhc saltHex (toUint32 memoryCost) (toUint32 timeCost)
      (toUint32 parallelism) hit.hashStr
    if contains encoded hit.hashStr = false then none
    else some { hit with
      hashStr := encoded
      blockType := classifyBlock encoded hit.blockType
      memoryCost := some memoryCost }

theorem contains_append (xs ys : Str) : contains (xs ++ ys) ys = true := by
  induction xs with
  | nil =>
    cases ys with
    | nil => rfl
    | cons c cs => simp [contains]
  | cons c cs ih => simp [contains, ih]

theorem contains_encodeArgon2idPhc (saltHex : Str) (m t p : ℕ) (digest : Str) :
    contains (encodeArgon2idPhc saltHex m t p digest) digest = true := contains_append _ digest

theorem prepareHitForSubmit_bare {hit : BlockHit} (h : isArgon2Encoded hit.hashStr = false)
    (saltHex : Str) (m t p : ℤ) : prepareHitForSubmit hit saltHex m t p = some { hit with
      hashStr := encodeArgon2idPhc saltHex (toUint32 m) (toUint32 t) (toUint32 p) hit.hashStr
      blockType := classifyBlock (encodeArgon2idPhc saltHex (toUint32 m) (toUint32 t) (toUint32 p)
        hit.hashStr) hit.blockType
      memoryCost := some m } := by
  dsimp only [prepareHitForSubmit]
  rw [h, contains_encodeArgon2idPhc]
  rfl

def phcTail (saltHex : Str) (timeCost parallelism : ℕ) (pureB64Hash : Str) : Str :=
  "t=".toList ++ natText timeCost ++ ",p=".toList ++ natText parallelism ++ "$".toList ++
    base64Encode (hexToBytes saltHex) ++ "$".toList ++ pureB64Hash

theorem encodeArgon2idPhc_eq (saltHex : Str) (m t p : ℕ) (digest : Str) :
    encodeArgon2idPhc saltHex m t p digest = '$' :: ("argon2id".toList ++ '$' :: ("v=19".toList ++
      '$' :: 'm' :: '=' :: (natText m ++ ',' :: phcTail saltHex t p digest))) := by
  have hhead : "$argon2id$v=19$m=".toList =
      '$' :: ("argon2id".toList ++ '$' :: ("v=19".toList ++ ['$', 'm', '='])) := by decide
  have hcomma : ",t=".toList = ',' :: "t=".toList := by decide
  unfold encodeArgon2idPhc phcTail
  rw [hhead, hcomma]
  simp only [List.append_assoc, List.cons_append, List.nil_append]

theorem isArgon2Encoded_encode (saltHex : Str) (m t p : ℕ) (digest : Str) :
    isArgon2Encoded (encodeArgon2idPhc saltHex m t p digest) = true := by
  rw [encodeArgon2idPhc_eq]
  simp [isArgon2Encoded]

theorem costHere_cons {c : Char} (h : c ≠ '$') (s : Str) : costHere (c :: s) = none := by
  unfold costHere
  split
  · next heq => exact absurd (List.cons.inj heq).1 h
  · rfl

theorem findCost_plain {pre : Str} (h : '$' ∉ pre) (s : Str) : findCost (pre ++ s) = findCost s := by
  induction pre with
  | nil => rfl
  | cons c cs ih =>
    rw [List.mem_cons, not_or] at h
    rw [List.cons_append, findCost, costHere_cons (Ne.symm h.1), ih h.2]

theorem findCost_dollar {c : Char} (h : c ≠ 'm') (s : Str) :
    findCost ('$' :: c :: s) = findCost (c :: s) := by
  have hnone : costHere ('$' :: c :: s) = none := by
    unfold costHere
    split
    · next heq => exact absurd (List.cons.inj (List.cons.inj heq).2).1 h
    · rfl
  rw [findCost, hnone]

theorem costHere_natText (m : ℕ) (tail : Str) :
    costHere ('$' :: 'm' :: '=' :: (natText m ++ ',' :: tail)) = some (natText m) := by
  have hdigits : ∀ c ∈ natText m, c.isDigit = true := fun c hc => isDigit_of_mem_natText hc
  have hstop : ∀ c ∈ (',' :: tail).head?, c.isDigit = false := by
    intro c hc
    obtain rfl : ',' = c := by simpa using hc
    rfl
  simp only [costHere, takeWhile_append_stop hdigits hstop, dropWhile_append_stop hdigits hstop,
    natText_ne_nil, if_false]

theorem findCost_encode (saltHex : Str) (m t p : ℕ) (digest : Str) :
    findCost (encodeArgon2idPhc saltHex m t p digest) = some (natText m) := by
  rw [encodeArgon2idPhc_eq]
  calc findCost _
      = findCost ("argon2id".toList ++ _) := findCost_dollar (by decide) _
    _ = findCost ('$' :: ("v=19".toList ++ _)) := findCost_plain (by decide) _
    _ = findCost ("v=19".toList ++ _) := findCost_dollar (by decide) _
    _ = findCost ('$' :: 'm' :: '=' :: _) := findCost_plain (by decide) _
    _ = some (natText m) := by rw [findCost, costHere_natText]

theorem memoryCostFromHash_encode (saltHex : Str) (m t p : ℕ) (digest : Str) :
    memoryCostFromHash (encodeArgon2idPhc saltHex m t p digest) =
      if m < 2 ^ 31 then some (m : ℤ) else none := by
  rw [memoryCostFromHash, isArgon2Encoded_encode, if_pos rfl, findCost_encode, Option.bind_some,
    stoi, readNat_natText]

end XnMiner
