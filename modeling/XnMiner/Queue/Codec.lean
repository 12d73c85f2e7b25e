import XnMiner.Common

/-! # JSON form of hits

`castInt` is the conversion of a JSON integer to `int`: `toInt32` on the machine,
the identity where integers are taken unbounded. A conversion that fails is an
exception, here `none`.
-/
namespace XnMiner
open TextCodec

def toInt32 (i : ℤ) : ℤ := Int.bmod i (2 ^ 32)

def fitsInt (i : ℤ) : Prop := -2 ^ 31 ≤ i ∧ i < 2 ^ 31

instance (i : ℤ) : Decidable (fitsInt i) := inferInstanceAs (Decidable (_ ∧ _))

theorem fitsInt_toInt32 (i : ℤ) : fitsInt (toInt32 i) := by
  have hmin := @Int.le_bmod i (2 ^ 32) (by decide)
  have hmax := @Int.bmod_lt i (2 ^ 32) (by decide)
  unfold fitsInt toInt32
  omega

@[simp] theorem toInt32_toInt64 (i : ℤ) : toInt32 (toInt64 i) = toInt32 i := by
  have hdvd : 2 ^ 32 ∣ 2 ^ 64 := by decide
  exact Int.bmod_bmod_of_dvd hdvd

@[simp] theorem toInt64_toInt64 (i : ℤ) : toInt64 (toInt64 i) = toInt64 i := Int.bmod_bmod

/-- The integers that an `int` holds are those a cast keeps. -/
theorem toInt32_eq_iff {i : ℤ} : toInt32 i = i ↔ fitsInt i := by
  constructor
  · intro h
    exact h ▸ fitsInt_toInt32 i
  · rintro ⟨hmin, hmax⟩
    exact Int.bmod_eq_of_le (by omega) (by omega)

def getStr (j : Json) : Option Str :=
  match j with
  | .str s => some s
  | _ => none

def getBool (j : Json) : Option Bool :=
  match j with
  | .bool b => some b
  | _ => none

def getInt64 (j : Json) : Option ℤ :=
  match j with
  | .int i => some (toInt64 i.val)
  | .float (.finite x) => some (toInt64 x.trunc)
  | _ => none

/-- `get<int>()`, which also takes booleans. -/
def getInt (castInt : ℤ → ℤ) (j : Json) : Option ℤ :=
  match j with
  | .int i => some (castInt i.val)
  | .float (.finite x) => some (castInt x.trunc)
  | .bool b => some (if b then 1 else 0)
  | _ => none

/-- The double nearest to an integer, by its numeral. -/
def doubleOfInt (i : ℤ) : Double :=
  let t := intText i ++ ".0".toList
  if h : isFloatToken t = true ∧ inDoubleRange t = true then .finite ⟨t, h.1, h.2⟩ else .nonfinite

def getDouble (j : Json) : Option Double :=
  match j with
  | .int i => some (doubleOfInt i.val)
  | .float x => some x
  | _ => none

/-- `j.value(key, default)`: throws when `j` is no object or the member has the wrong type. -/
def value {α : Type} (j : Json) (key : Str) (get : Json → Option α) (default : α) : Option α :=
  match j with
  | .obj fs => match field fs key with
    | none => some default
    | some v => get v
  | _ => none

def member (j : Json) (key : Str) : Option Json :=
  match j with
  | .obj fs => field fs key
  | _ => none

def hitToJson (hit : BlockHit) : Fields :=
  let j := [("key".toList, Json.str hit.key), ("hash_str".toList, .str hit.hashStr),
    ("block_type".toList, .str hit.blockType), ("strategy".toList, .str hit.strategy),
    ("attempts".toList, .ofInt hit.attempts), ("hps".toList, .float hit.hps),
    ("found_at".toList, .str hit.foundAt)].foldl (fun fs kv => setField fs kv.1 kv.2) []
  match hit.memoryCost with
  | some m => setField j "memory_cost".toList (.ofInt m)
  | none => j

/-- An absent or null memory cost is no memory cost. -/
def memoryCostFromJson (castInt : ℤ → ℤ) (j : Json) : Option (Option ℤ) :=
  match j with
  | .obj fs => match field fs "memory_cost".toList with
    | none | some .null => some none
    | some v => (getInt castInt v).map some
  | _ => some none

def hitFromJson (castInt : ℤ → ℤ) (j : Json) : Option BlockHit := do
  let key ← value j "key".toList getStr []
  let hashStr ← value j "hash_str".toList getStr []
  let blockType ← value j "block_type".toList getStr "XNM".toList
  let strategy ← value j "strategy".toList getStr "random".toList
  let attempts ← value j "attempts".toList (getInt castInt) 0
  let hps ← value j "hps".toList getDouble zeroDouble
  let foundAt ← value j "found_at".toList getStr []
  let memoryCost ← memoryCostFromJson castInt j
  some { key, hashStr, blockType, strategy, attempts, hps, foundAt, memoryCost }

def BlockHit.utf8 (hit : BlockHit) : Bool :=
  validUtf8 hit.key && validUtf8 hit.hashStr && validUtf8 hit.blockType &&
    validUtf8 hit.strategy && validUtf8 hit.foundAt

end XnMiner
