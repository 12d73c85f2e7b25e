import XnMiner.Common

/-! # Block types -/
namespace XnMiner
open TextCodec

def SUPER_UPPERCASE_MIN : ℕ := 50

def afterLastDollar (s : Str) : Str := (s.reverse.takeWhile fun c => c ≠ '$').reverse

def hashDigestForSuperblock (hashStr : Str) : Str :=
  if hashStr.head? = some '$' ∨ 4 ≤ hashStr.count '$' then afterLastDollar hashStr
  else hashStr

def uppercaseCount (text : Str) : ℕ := text.countP Char.isUpper

def isSuperblock (hashStr : Str) : Bool :=
  decide (SUPER_UPPERCASE_MIN ≤ uppercaseCount (hashDigestForSuperblock hashStr))

def isSpace (c : Char) : Bool :=
  decide (c = ' ') || (decide (9 ≤ c.toNat) && decide (c.toNat ≤ 13))

def trim (s : Str) : Str := ((s.dropWhile isSpace).reverse.dropWhile isSpace).reverse

/-- A match of `XUNI[0-9]` at the start. -/
def xuniHere (s : Str) : Bool :=
  match s with
  | 'X' :: 'U' :: 'N' :: 'I' :: d :: _ => d.isDigit
  | _ => false

def containsXuni (s : Str) : Bool :=
  match s with
  | [] => false
  | c :: cs => xuniHere (c :: cs) || containsXuni cs

def classifyBlock (hashStr blockType : Str) : Str :=
  let bt := trim ((upper blockType).filter fun c => c ≠ Char.ofNat 0)
  if bt = "XUNI".toList ∨ containsXuni hashStr = true then "XUNI".toList
  else if bt = "XBLK".toList ∨
      (contains hashStr "XEN11".toList = true ∧ isSuperblock hashStr = true) then "XBLK".toList
  else if contains hashStr "XEN11".toList = true ∨ bt = "XEN11".toList ∨ bt = "NORMAL".toList ∨
      bt = "XNM".toList then "XNM".toList
  else "OTHER".toList

theorem classifyBlock_mem (hashStr blockType : Str) : classifyBlock hashStr blockType ∈
    ["XUNI".toList, "XBLK".toList, "XNM".toList, "OTHER".toList] := by
  dsimp only [classifyBlock]
  split_ifs <;> simp

end XnMiner
