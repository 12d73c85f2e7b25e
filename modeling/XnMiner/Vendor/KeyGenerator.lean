import XnMiner.Mining.Argon2Encode
import XnMiner.Vendor.Validation
import XnMiner.Words.Mixing

/-! # Random keys

A key is a prefix with random digits behind it. Keys for a whole batch come from a counter that is
mixed, so that no key occurs twice in a batch.
-/
namespace XnMiner
open TextCodec Mixing Function

def kHexChars : Str := "0123456789abcdef".toList

def hexChar (z : BitVec 64) : Char := kHexChars.getD (z &&& 0x0f).toNat '0'

/-- The first digits of a word, the low ones first, as far as there is room. -/
def hexDigits (n room : ℕ) (z : BitVec 64) : Str :=
  match n, room with
  | n + 1, room + 1 => hexChar z :: hexDigits n room (z >>> 4)
  | _, _ => []

section Digits
variable {σ : Type} (draw : σ → BitVec 64 × σ)

def fillDigits (room : ℕ) (s : σ) : Str × σ :=
  if room = 0 then ([], s)
  else
    let word := draw s
    let rest := fillDigits (room - 16) word.2
    (hexDigits 16 room word.1 ++ rest.1, rest.2)
termination_by room

end Digits

def golden : BitVec 64 := 0x9E3779B97F4A7C15

def splitmix (s : BitVec 64) : BitVec 64 :=
  let z := (s ^^^ s >>> 30) * 0xBF58476D1CE4E5B9
  let z := (z ^^^ z >>> 27) * 0x94D049BB133111EB
  z ^^^ z >>> 31

def nextSplitmix (s : BitVec 64) : BitVec 64 × BitVec 64 := (splitmix (s + golden), s + golden)

/-- The generator of words is one of the standard library, with any seed. -/
structure RandomHexKeyGenerator (G : Type) where
  keyPrefix : Str
  totalLength : ℕ
  generator : G

namespace RandomHexKeyGenerator
variable {G : Type} (next : G → BitVec 32 × G) (r : RandomHexKeyGenerator G)

def setPrefix (newPrefix : Str) : RandomHexKeyGenerator G := { r with keyPrefix := lower newPrefix }

def fillSlots (start : Str) (room count : ℕ) (s : BitVec 64) : List Str :=
  match count with
  | 0 => []
  | n + 1 =>
    let digits := fillDigits nextSplitmix room s
    (start ++ digits.1) :: fillSlots start room n digits.2

def fillMany (count : ℕ) : List Str × RandomHexKeyGenerator G :=
  if count = 0 then ([], r)
  else
    let pre := min r.keyPrefix.length r.totalLength
    let high := next r.generator
    let low := next high.2
    let s := high.1.setWidth 64 <<< 32 ^^^ low.1.setWidth 64 ^^^ BitVec.ofNat 64 count * golden
    (fillSlots (r.keyPrefix.take pre) (r.totalLength - pre) count s, { r with generator := low.2 })

end RandomHexKeyGenerator

/-- A start of the prefix, and lower hex digits up to the length. -/
def IsKey (keyPrefix : Str) (totalLength : ℕ) (key : Str) : Prop :=
  key.length = totalLength ∧ ∃ digits, key = keyPrefix.take totalLength ++ digits ∧
    ∀ c ∈ digits, c ∈ kHexChars

theorem hexChar_mem (z : BitVec 64) : hexChar z ∈ kHexChars := by
  have hlt : (z &&& 0x0f).toNat < kHexChars.length := by
    rw [BitVec.toNat_and]
    exact lt_of_le_of_lt Nat.and_le_right (by decide)
  rw [hexChar, List.getD_eq_getElem _ _ hlt]
  exact List.getElem_mem hlt

theorem hexDigits_spec (n room : ℕ) (z : BitVec 64) :
    (hexDigits n room z).length = min n room ∧ ∀ c ∈ hexDigits n room z, c ∈ kHexChars := by
  induction n generalizing room z with
  | zero => simp [hexDigits]
  | succ n ih =>
    cases room with
    | zero => simp [hexDigits]
    | succ room =>
      obtain ⟨hlength, hmem⟩ := ih room (z >>> 4)
      refine ⟨by rw [hexDigits, List.length_cons, hlength, Nat.add_min_add_right], ?_⟩
      rw [hexDigits, List.forall_mem_cons]
      exact ⟨hexChar_mem z, hmem⟩

theorem fillDigits_spec {σ : Type} (draw : σ → BitVec 64 × σ) (room : ℕ) (s : σ) :
    (fillDigits draw room s).1.length = room ∧
      ∀ c ∈ (fillDigits draw room s).1, c ∈ kHexChars := by
  induction room, s using fillDigits.induct draw with
  | case1 s => simp [fillDigits]
  | case2 room s hpos word ih =>
    obtain ⟨hlength, hmem⟩ := ih
    obtain ⟨hword, hdigits⟩ := hexDigits_spec 16 room word.1
    rw [fillDigits, if_neg hpos]
    refine ⟨?_, ?_⟩
    · rw [List.length_append, hword, hlength]
      omega
    · exact fun c hc => (List.mem_append.mp hc).elim (hdigits c) (hmem c)

theorem isKey_of_digits {keyPrefix digits : Str} {total : ℕ}
    (hlength : digits.length = total - min keyPrefix.length total)
    (hdigits : ∀ c ∈ digits, c ∈ kHexChars) :
    IsKey keyPrefix total (keyPrefix.take (min keyPrefix.length total) ++ digits) := by
  have htake : keyPrefix.take (min keyPrefix.length total) = keyPrefix.take total := by
    rcases Nat.le_total keyPrefix.length total with hle | hle
    · rw [Nat.min_eq_left hle, List.take_length, List.take_of_length_le hle]
    · rw [Nat.min_eq_right hle]
  refine ⟨?_, digits, by rw [htake], hdigits⟩
  rw [List.length_append, List.length_take, hlength]
  omega

/-- The keys of a prefix of hex digits are keys that the miner hands on. -/
theorem IsKey.isHex64Key {keyPrefix key : Str} (h : IsKey keyPrefix 64 key)
    (hhex : HashApi.isHexString keyPrefix = true) : isHex64Key key = true := by
  obtain ⟨hlength, digits, rfl, hdigits⟩ := h
  have hlower : kHexChars.all isXDigit = true := by decide
  rw [XnMiner.isHex64Key, hlength, List.all_append, Bool.and_eq_true, Bool.and_eq_true]
  refine ⟨decide_eq_true rfl, ?_, ?_⟩
  · exact List.all_eq_true.mpr fun c hc => List.all_eq_true.mp hhex c (List.mem_of_mem_take hc)
  · exact List.all_eq_true.mpr fun c hc => List.all_eq_true.mp hlower c (hdigits c hc)

namespace RandomHexKeyGenerator
variable {G : Type} {next : G → BitVec 32 × G} {r : RandomHexKeyGenerator G}

/-- After `n` draws the counter has made as many steps. -/
theorem fillDigits_splitmix (room : ℕ) (s : BitVec 64) :
    (fillDigits nextSplitmix room s).2 = counter s golden ((room + 15) / 16) := by
  induction room, s using fillDigits.induct nextSplitmix with
  | case1 s =>
    rw [fillDigits, if_pos rfl, counter]
    simp
  | case2 room s hpos word ih =>
    have hword : word.2 = counter s golden 1 := (congrArg (s + ·) (BitVec.one_mul golden)).symm
    have hsteps : (room + 15) / 16 = 1 + (room - 16 + 15) / 16 := by omega
    rw [fillDigits, if_neg hpos, hsteps, ← counter_add, ← hword]
    exact ih

/-- Each slot starts where the counter stands after the slots before it. -/
theorem fillSlots_eq (start : Str) (room count : ℕ) (s : BitVec 64) :
    fillSlots start room count s = (List.range count).map fun i =>
      start ++ (fillDigits nextSplitmix room (counter s golden (i * ((room + 15) / 16)))).1 := by
  induction count generalizing s with
  | zero => rfl
  | succ n ih =>
    rw [List.range_succ_eq_map, List.map_cons, List.map_map]
    have hstart : counter s golden (0 * ((room + 15) / 16)) = s := by simp [counter]
    rw [hstart]
    refine congrArg (List.cons _) ?_
    rw [ih]
    refine List.map_congr_left fun i _ => ?_
    rw [comp_apply, fillDigits_splitmix, counter_add, Nat.succ_mul, Nat.add_comm]

theorem fillMany_isKey {count : ℕ} {key : Str} (h : key ∈ (r.fillMany next count).1) :
    IsKey r.keyPrefix r.totalLength key := by
  unfold fillMany at h
  split at h
  next => cases h
  next =>
    simp only [fillSlots_eq] at h
    obtain ⟨i, -, rfl⟩ := List.mem_map.mp h
    obtain ⟨hlength, hdigits⟩ := fillDigits_spec nextSplitmix
      (r.totalLength - min r.keyPrefix.length r.totalLength) _
    exact isKey_of_digits hlength hdigits

theorem length_fillMany (next : G → BitVec 32 × G) (r : RandomHexKeyGenerator G) (count : ℕ) :
    (r.fillMany next count).1.length = count := by
  unfold fillMany
  split
  next hzero => exact hzero.symm
  next => simp only [fillSlots_eq, List.length_map, List.length_range]

end RandomHexKeyGenerator

theorem golden_inverse : golden * 0xf1de83e19937733d = 1#64 := by decide

theorem splitmix_injective : Injective splitmix := by
  have h₁ := xor_ushiftRight_injective (w := 64) (k := 30) (by decide)
  have h₂ := mul_injective (a := (0xBF58476D1CE4E5B9 : BitVec 64)) (b := 0x96de1b173f119089)
    (by decide)
  have h₃ := xor_ushiftRight_injective (w := 64) (k := 27) (by decide)
  have h₄ := mul_injective (a := (0x94D049BB133111EB : BitVec 64)) (b := 0x319642b2d24d8ec3)
    (by decide)
  have h₅ := xor_ushiftRight_injective (w := 64) (k := 31) (by decide)
  exact h₅.comp (h₄.comp (h₃.comp (h₂.comp h₁)))

theorem hexChar_inj {z z' : BitVec 64} (h : hexChar z = hexChar z') :
    z.toNat % 16 = z'.toNat % 16 := by
  have hdigits : ∀ i < 16, ∀ j < 16, kHexChars.getD i '0' = kHexChars.getD j '0' → i = j := by
    decide
  have hlow : ∀ x : BitVec 64, (x &&& 0x0f).toNat = x.toNat % 16 := fun x => by
    rw [BitVec.toNat_and]
    exact Nat.and_two_pow_sub_one_eq_mod x.toNat 4
  rw [hexChar, hexChar, hlow, hlow] at h
  exact hdigits _ (Nat.mod_lt _ (by decide)) _ (Nat.mod_lt _ (by decide)) h

theorem hexDigits_inj {n room : ℕ} (hroom : n ≤ room) {z z' : BitVec 64}
    (h : hexDigits n room z = hexDigits n room z') : z.toNat % 16 ^ n = z'.toNat % 16 ^ n := by
  induction n generalizing room z z' with
  | zero => rw [pow_zero, Nat.mod_one, Nat.mod_one]
  | succ n ih =>
    obtain ⟨room, rfl⟩ := Nat.exists_eq_succ_of_ne_zero (Nat.ne_of_gt (Nat.lt_of_lt_of_le n.succ_pos hroom))
    rw [hexDigits, hexDigits, List.cons.injEq] at h
    have hrest := ih (Nat.le_of_succ_le_succ hroom) h.2
    rw [BitVec.toNat_ushiftRight, BitVec.toNat_ushiftRight, Nat.shiftRight_eq_div_pow,
      Nat.shiftRight_eq_div_pow] at hrest
    rw [pow_succ', Nat.mod_mul, Nat.mod_mul, hexChar_inj h.1]
    exact congrArg _ (congrArg _ hrest)

/-- Sixteen digits tell the word, and the word tells the counter. -/
theorem fillDigits_inj {room : ℕ} (hroom : 16 ≤ room) {s s' : BitVec 64}
    (h : (fillDigits nextSplitmix room s).1 = (fillDigits nextSplitmix room s').1) : s = s' := by
  have hfirst : ∀ t : BitVec 64, (fillDigits nextSplitmix room t).1.take 16 =
      hexDigits 16 room (splitmix (t + golden)) := by
    intro t
    have hword := (hexDigits_spec 16 room (splitmix (t + golden))).1
    rw [Nat.min_eq_left hroom] at hword
    rw [fillDigits, if_neg (by omega)]
    exact List.take_left' hword
  have hdigits : hexDigits 16 room (splitmix (s + golden)) =
      hexDigits 16 room (splitmix (s' + golden)) := by
    rw [← hfirst, ← hfirst, h]
  have hword := hexDigits_inj hroom hdigits
  rw [show (16 : ℕ) ^ 16 = 2 ^ 64 by norm_num, Nat.mod_eq_of_lt (BitVec.isLt _),
    Nat.mod_eq_of_lt (BitVec.isLt _)] at hword
  exact BitVec.add_left_inj _ |>.mp (splitmix_injective (BitVec.eq_of_toNat_eq hword))

/-- Where a word of digits is free, the keys of a batch differ from each other, unless the batch
uses up all values of the counter. -/
theorem RandomHexKeyGenerator.nodup_fillMany {G : Type} (next : G → BitVec 32 × G)
    (r : RandomHexKeyGenerator G) {count : ℕ} (hroom : r.keyPrefix.length + 16 ≤ r.totalLength)
    (hcount : count * ((r.totalLength - r.keyPrefix.length + 15) / 16) ≤ 2 ^ 64) :
    (r.fillMany next count).1.Nodup := by
  have hpre : min r.keyPrefix.length r.totalLength = r.keyPrefix.length := Nat.min_eq_left (by omega)
  unfold fillMany
  split
  next => exact List.nodup_nil
  next =>
    simp only [fillSlots_eq, hpre]
    obtain ⟨words, hwords⟩ : ∃ n, n = (r.totalLength - r.keyPrefix.length + 15) / 16 := ⟨_, rfl⟩
    have hpos : 0 < words := by omega
    rw [← hwords] at hcount ⊢
    refine List.nodup_range.map_on fun i hi j hj h => ?_
    rw [List.mem_range] at hi hj
    have hlt : ∀ k < count, k * words < 2 ^ 64 := fun k hk =>
      Nat.lt_of_lt_of_le (Nat.mul_lt_mul_of_pos_right hk hpos) hcount
    have hcounter := fillDigits_inj (by omega) (List.append_cancel_left h)
    exact Nat.eq_of_mul_eq_mul_right hpos
      (counter_injective golden_inverse (hlt i hi) (hlt j hj) hcounter)

theorem RandomHexKeyGenerator.nodup_fillMany_four : (RandomHexKeyGenerator.fillMany
    (fun g : BitVec 32 => (g, g + 1)) ⟨"abc".toList, 64, 0⟩ 4).1.Nodup :=
  nodup_fillMany _ _ (by decide) (by decide)

end XnMiner
