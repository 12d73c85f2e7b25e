import XnMiner.Text.Decimal

/-! # JSON values, compact printing and strict parsing

Byte-level JSON: a string is a list of bytes which need not be UTF-8, so printing
can fail. Objects keep their members in text order, and a repeated key is read at
its last occurrence. Finite doubles are represented by a numeral that has a
fraction or an exponent; integers beyond 64 bits, which are doubles too, by their value.
-/
namespace TextCodec

inductive Utf8State where
  | accept | tail1 | tail2 | tail3 | afterE0 | afterED | afterF0 | afterF4
  deriving DecidableEq, Repr

def byteIn (lo hi : ℕ) (c : Char) : Bool := decide (lo ≤ c.toNat) && decide (c.toNat ≤ hi)

def Utf8State.next (st : Utf8State) (c : Char) : Option Utf8State :=
  match st with
  | .accept =>
    if byteIn 0 0x7F c then some .accept
    else if byteIn 0xC2 0xDF c then some .tail1
    else if byteIn 0xE0 0xE0 c then some .afterE0
    else if byteIn 0xED 0xED c then some .afterED
    else if byteIn 0xE1 0xEF c then some .tail2
    else if byteIn 0xF0 0xF0 c then some .afterF0
    else if byteIn 0xF1 0xF3 c then some .tail3
    else if byteIn 0xF4 0xF4 c then some .afterF4
    else none
  | .tail1 => if byteIn 0x80 0xBF c then some .accept else none
  | .tail2 => if byteIn 0x80 0xBF c then some .tail1 else none
  | .tail3 => if byteIn 0x80 0xBF c then some .tail2 else none
  | .afterE0 => if byteIn 0xA0 0xBF c then some .tail1 else none
  | .afterED => if byteIn 0x80 0x9F c then some .tail1 else none
  | .afterF0 => if byteIn 0x90 0xBF c then some .tail2 else none
  | .afterF4 => if byteIn 0x80 0x8F c then some .tail2 else none

def validFrom (st : Utf8State) (s : Str) : Bool :=
  match s with
  | [] => decide (st = .accept)
  | c :: cs => match st.next c with
    | none => false
    | some st' => validFrom st' cs

def validUtf8 (s : Str) : Bool := validFrom .accept s

def utf8Bytes (cp : ℕ) : Str :=
  if cp < 0x80 then [Char.ofNat cp]
  else if cp < 0x800 then [Char.ofNat (0xC0 + cp / 0x40), Char.ofNat (0x80 + cp % 0x40)]
  else if cp < 0x10000 then
    [Char.ofNat (0xE0 + cp / 0x1000), Char.ofNat (0x80 + cp / 0x40 % 0x40),
      Char.ofNat (0x80 + cp % 0x40)]
  else
    [Char.ofNat (0xF0 + cp / 0x40000), Char.ofNat (0x80 + cp / 0x1000 % 0x40),
      Char.ofNat (0x80 + cp / 0x40 % 0x40), Char.ofNat (0x80 + cp % 0x40)]

def isNumChar (c : Char) : Bool :=
  c.isDigit || c == '-' || c == '+' || c == '.' || c == 'e' || c == 'E'

def stripMinus (t : Str) : Str :=
  match t with
  | '-' :: r => r
  | t => t

/-- An integer part: digits, and a leading zero only when it is the whole of it. -/
def isIntPart (ds : Str) : Bool :=
  ds.all Char.isDigit && !ds.isEmpty && (ds.length == 1 || ds.head? != some '0')

def digitRun (t : Str) : Bool := !t.isEmpty && t.all Char.isDigit

def isExpTail (t : Str) : Bool :=
  match t with
  | '+' :: r => digitRun r
  | '-' :: r => digitRun r
  | r => digitRun r

def isExp (t : Str) : Bool :=
  match t with
  | 'e' :: r => isExpTail r
  | 'E' :: r => isExpTail r
  | _ => false

def isFracExp (t : Str) : Bool :=
  match t with
  | '.' :: r =>
    let e := r.dropWhile Char.isDigit
    digitRun (r.takeWhile Char.isDigit) && (e.isEmpty || isExp e)
  | t => isExp t

def isIntToken (t : Str) : Bool := isIntPart (stripMinus t)

def isFloatToken (t : Str) : Bool :=
  isIntPart ((stripMinus t).takeWhile Char.isDigit) &&
    isFracExp ((stripMinus t).dropWhile Char.isDigit) && t.all isNumChar

def readInt (t : Str) : ℤ :=
  match t with
  | '-' :: r => -(readNat r : ℤ)
  | r => (readNat r : ℤ)

def readExp (t : Str) : ℤ :=
  match t with
  | 'e' :: '+' :: r => readInt r
  | 'E' :: '+' :: r => readInt r
  | 'e' :: r => readInt r
  | 'E' :: r => readInt r
  | _ => 0

def fracDigits (t : Str) : Str :=
  match t with
  | '.' :: r => r.takeWhile Char.isDigit
  | _ => []

def scaledDigits (t : Str) : ℕ × ℤ :=
  let ip := (stripMinus t).takeWhile Char.isDigit
  let r := (stripMinus t).dropWhile Char.isDigit
  let frac := fracDigits r
  (readNat (ip ++ frac), readExp (r.dropWhile fun c => c.isDigit || c == '.') - frac.length)

/-- From half a unit above the greatest double on, `strtod` rounds to infinity. -/
def doubleLimit : ℕ := 2 ^ 1024 - 2 ^ 970

def inDoubleRange (t : Str) : Bool :=
  let (digits, scale) := scaledDigits t
  if 0 ≤ scale then decide (digits * 10 ^ scale.toNat < doubleLimit)
  else decide (digits < doubleLimit * 10 ^ (-scale).toNat)

/-- A finite double, given by its numeral. -/
structure FloatLit where
  text : Str
  wf : isFloatToken text = true
  inRange : inDoubleRange text = true
  deriving DecidableEq

inductive Double where
  | finite (x : FloatLit)
  | nonfinite
  deriving DecidableEq

def FloatLit.trunc (x : FloatLit) : ℤ :=
  let (digits, scale) := scaledDigits x.text
  let magnitude := if 0 ≤ scale then digits * 10 ^ scale.toNat else digits / 10 ^ (-scale).toNat
  if x.text.head? = some '-' then -(magnitude : ℤ) else magnitude

/-- An integer that a double can come near to. -/
structure JsonInt where
  val : ℤ
  inRange : val.natAbs < doubleLimit
  deriving DecidableEq

def toInt64 (i : ℤ) : ℤ := Int.bmod i (2 ^ 64)

theorem natAbs_toInt64_lt (i : ℤ) : (toInt64 i).natAbs < doubleLimit := by
  have hmin := @Int.le_bmod i (2 ^ 64) (by decide)
  have hmax := @Int.bmod_lt i (2 ^ 64) (by decide)
  have hlimit : 2 ^ 64 ≤ doubleLimit := by decide +kernel
  unfold toInt64
  omega

inductive Json where
  | null
  | bool (b : Bool)
  | int (i : JsonInt)
  | float (x : Double)
  | str (s : Str)
  | arr (xs : List Json)
  | obj (fields : List (Str × Json))

abbrev Fields := List (Str × Json)

def Json.ofInt (i : ℤ) : Json := .int ⟨toInt64 i, natAbs_toInt64_lt i⟩

/-- The member a key names: the last one wins. -/
def field (fs : Fields) (key : Str) : Option Json :=
  match fs with
  | [] => none
  | (k, v) :: rest => match field rest key with
    | some w => some w
    | none => if k = key then some v else none

/-- Insertion at the key's place in byte order, overwriting an equal key. -/
def setField (fs : Fields) (key : Str) (v : Json) : Fields :=
  match fs with
  | [] => [(key, v)]
  | (k, w) :: rest =>
    if key < k then (key, v) :: (k, w) :: rest
    else if key = k then (key, v) :: rest
    else (k, w) :: setField rest key v

def hexDigit (n : ℕ) : Char := if n < 10 then Char.ofNat (48 + n) else Char.ofNat (87 + n)

def escapeChar (c : Char) : Str :=
  if c = '"' then ['\\', '"']
  else if c = '\\' then ['\\', '\\']
  else if c.toNat = 0x08 then ['\\', 'b']
  else if c.toNat = 0x09 then ['\\', 't']
  else if c.toNat = 0x0A then ['\\', 'n']
  else if c.toNat = 0x0C then ['\\', 'f']
  else if c.toNat = 0x0D then ['\\', 'r']
  else if c.toNat < 0x20 then ['\\', 'u', '0', '0', hexDigit (c.toNat / 16), hexDigit (c.toNat % 16)]
  else [c]

def escape (s : Str) : Str := s.flatMap escapeChar

def dumpStr (s : Str) : Str := '"' :: (escape s ++ ['"'])

def dumpDouble (x : Double) : Str :=
  match x with
  | .finite x => x.text
  | .nonfinite => "null".toList

mutual
def dumpText (j : Json) : Str :=
  match j with
  | .null => "null".toList
  | .bool true => "true".toList
  | .bool false => "false".toList
  | .int i => intText i.val
  | .float x => dumpDouble x
  | .str s => dumpStr s
  | .arr [] => ['[', ']']
  | .arr (x :: xs) => '[' :: (dumpText x ++ dumpElems xs)
  | .obj [] => ['{', '}']
  | .obj ((k, v) :: fs) => '{' :: (dumpStr k ++ ':' :: (dumpText v ++ dumpMembers fs))
def dumpElems (xs : List Json) : Str :=
  match xs with
  | [] => [']']
  | x :: xs => ',' :: (dumpText x ++ dumpElems xs)
def dumpMembers (fs : List (Str × Json)) : Str :=
  match fs with
  | [] => ['}']
  | (k, v) :: fs => ',' :: (dumpStr k ++ ':' :: (dumpText v ++ dumpMembers fs))
end

mutual
def allLeaves (onStr : Str → Bool) (onDouble : Double → Bool) (j : Json) : Bool :=
  match j with
  | .str s => onStr s
  | .float x => onDouble x
  | .arr xs => allElems onStr onDouble xs
  | .obj fs => allMembers onStr onDouble fs
  | _ => true
def allElems (onStr : Str → Bool) (onDouble : Double → Bool) (xs : List Json) : Bool :=
  match xs with
  | [] => true
  | x :: xs => allLeaves onStr onDouble x && allElems onStr onDouble xs
def allMembers (onStr : Str → Bool) (onDouble : Double → Bool) (fs : List (Str × Json)) : Bool :=
  match fs with
  | [] => true
  | (k, v) :: fs => onStr k && allLeaves onStr onDouble v && allMembers onStr onDouble fs
end

def Double.isFinite (x : Double) : Bool :=
  match x with
  | .finite _ => true
  | .nonfinite => false

def utf8Ok (j : Json) : Bool := allLeaves validUtf8 (fun _ => true) j

def exactOk (j : Json) : Bool := allLeaves validUtf8 Double.isFinite j

/-- Printing; `none` is the exception raised on a string that is not UTF-8. -/
def dump (j : Json) : Option Str := if utf8Ok j then some (dumpText j) else none

theorem dump_eq_some {j : Json} {text : Str} (h : dump j = some text) :
    utf8Ok j = true ∧ text = dumpText j := by
  unfold dump at h
  split_ifs at h with hu
  exact ⟨hu, (Option.some.inj h).symm⟩

def isWs (c : Char) : Bool := c == ' ' || c == '\t' || c == '\n' || c == '\r'

def skipWs (s : Str) : Str := s.dropWhile isWs

/-- Where the string lexer stands: between bytes of text, or inside an escape. -/
inductive StrState where
  | text (u : Utf8State)
  | escape
  | hex (left : ℕ) (acc : ℕ) (high : Option ℕ)
  | lowBackslash (high : ℕ)
  | lowU (high : ℕ)
  deriving DecidableEq, Repr

def hexVal (c : Char) : Option ℕ :=
  if c.isDigit then some (c.toNat - 48)
  else if byteIn 97 102 c then some (c.toNat - 87)
  else if byteIn 65 70 c then some (c.toNat - 55)
  else none

/-- A finished `\u` escape: a code point, or one half of a surrogate pair. -/
def closeHex (cp : ℕ) (high : Option ℕ) : Option (StrState × Str) :=
  match high with
  | some h =>
    if 0xDC00 ≤ cp ∧ cp ≤ 0xDFFF then
      some (.text .accept, utf8Bytes (0x10000 + (h - 0xD800) * 0x400 + (cp - 0xDC00)))
    else none
  | none =>
    if 0xD800 ≤ cp ∧ cp ≤ 0xDBFF then some (.lowBackslash cp, [])
    else if 0xDC00 ≤ cp ∧ cp ≤ 0xDFFF then none
    else some (.text .accept, utf8Bytes cp)

def unescape (c : Char) : Option (StrState × Str) :=
  if c = '"' then some (.text .accept, ['"'])
  else if c = '\\' then some (.text .accept, ['\\'])
  else if c = '/' then some (.text .accept, ['/'])
  else if c = 'b' then some (.text .accept, [Char.ofNat 0x08])
  else if c = 'f' then some (.text .accept, [Char.ofNat 0x0C])
  else if c = 'n' then some (.text .accept, [Char.ofNat 0x0A])
  else if c = 'r' then some (.text .accept, [Char.ofNat 0x0D])
  else if c = 't' then some (.text .accept, [Char.ofNat 0x09])
  else if c = 'u' then some (.hex 4 0 none, [])
  else none

def StrState.step (st : StrState) (c : Char) : Option (StrState × Str) :=
  match st with
  | .text u =>
    if u = .accept ∧ c = '\\' then some (.escape, [])
    else if u = .accept ∧ c.toNat < 0x20 then none
    else match u.next c with
      | none => none
      | some u' => some (.text u', [c])
  | .escape => unescape c
  | .hex left acc high => match hexVal c with
    | none => none
    | some d =>
      if left ≤ 1 then closeHex (16 * acc + d) high
      else some (.hex (left - 1) (16 * acc + d) high, [])
  | .lowBackslash h => if c = '\\' then some (.lowU h, []) else none
  | .lowU h => if c = 'u' then some (.hex 4 0 (some h), []) else none

def scanStr (st : StrState) (s : Str) : Option (Str × Str) :=
  match s with
  | [] => none
  | c :: cs =>
    if st = .text .accept ∧ c = '"' then some ([], cs)
    else match st.step c with
      | none => none
      | some (st', out) => (scanStr st' cs).map fun p => (out ++ p.1, p.2)

/-- A numeral without fraction and exponent is an integer, any other a double; the document is
refused where `strtod` would give infinity. -/
def numberValue (t : Str) : Option Json :=
  if isIntToken t then
    if h : (readInt t).natAbs < doubleLimit then some (.int ⟨readInt t, h⟩) else none
  else if h : isFloatToken t = true ∧ inDoubleRange t = true then
    some (.float (.finite ⟨t, h.1, h.2⟩))
  else none

def scanNumber (s : Str) : Option (Json × Str) :=
  (numberValue (s.takeWhile isNumChar)).map fun j => (j, s.dropWhile isNumChar)

def scanLiteral (word : Str) (j : Json) (s : Str) : Option (Json × Str) :=
  if word.isPrefixOf s then some (j, s.drop word.length) else none

mutual
/-- One value and what follows it; the counter bounds the nesting and the members. -/
def parseValue (fuel : ℕ) (s : Str) : Option (Json × Str) :=
  match fuel with
  | 0 => none
  | n + 1 => match skipWs s with
    | [] => none
    | c :: r =>
      if c = '{' then match skipWs r with
        | '}' :: r' => some (.obj [], r')
        | r' => (parseMembers n r').map fun p => (.obj p.1, p.2)
      else if c = '[' then match skipWs r with
        | ']' :: r' => some (.arr [], r')
        | r' => (parseElems n r').map fun p => (.arr p.1, p.2)
      else if c = '"' then (scanStr (.text .accept) r).map fun p => (.str p.1, p.2)
      else if c = 't' then scanLiteral "true".toList (.bool true) (c :: r)
      else if c = 'f' then scanLiteral "false".toList (.bool false) (c :: r)
      else if c = 'n' then scanLiteral "null".toList .null (c :: r)
      else scanNumber (c :: r)
def parseElems (fuel : ℕ) (s : Str) : Option (List Json × Str) :=
  match fuel with
  | 0 => none
  | n + 1 => match parseValue n s with
    | none => none
    | some (v, r) => match skipWs r with
      | ',' :: r' => (parseElems n r').map fun p => (v :: p.1, p.2)
      | ']' :: r' => some ([v], r')
      | _ => none
def parseMembers (fuel : ℕ) (s : Str) : Option (List (Str × Json) × Str) :=
  match fuel with
  | 0 => none
  | n + 1 => match skipWs s with
    | '"' :: r => match scanStr (.text .accept) r with
      | none => none
      | some (k, r1) => match skipWs r1 with
        | ':' :: r2 => match parseValue n r2 with
          | none => none
          | some (v, r3) => match skipWs r3 with
            | ',' :: r4 => (parseMembers n r4).map fun p => ((k, v) :: p.1, p.2)
            | '}' :: r4 => some ([(k, v)], r4)
            | _ => none
        | _ => none
    | _ => none
end

def dropBom (s : Str) : Option Str :=
  match s with
  | [] => some []
  | c :: r =>
    if c.toNat = 0xEF then
      if "\xBB\xBF".toList.isPrefixOf r then some (r.drop 2) else none
    else some (c :: r)

/-- One value and nothing but white space after it; a zero byte ends the text. -/
def parse (s : Str) : Option Json :=
  match dropBom s with
  | none => none
  | some t => match parseValue (t.length + 1) t with
    | none => none
    | some (v, r) => match skipWs r with
      | [] => some v
      | c :: _ => if c.toNat = 0 then some v else none

end TextCodec
