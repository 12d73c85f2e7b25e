import XnMiner.Text.JsonRoundTrip

/-! # What is parsed can be printed

The string lexer follows the UTF-8 decoder between the escapes, and an escape stands for the
bytes of a code point. So every string of a parsed value is valid UTF-8, and its doubles are
finite.
-/
namespace TextCodec

theorem byte_toNat {n : ℕ} (h : n < 256) : (Char.ofNat n).toNat = n := by
  have hvalid : n.isValidChar := .inl (by omega)
  rw [Char.ofNat, dif_pos hvalid]
  rfl

theorem validFrom_cons {u u' : Utf8State} {c : Char} (h : u.next c = some u') (cs : Str) :
    validFrom u (c :: cs) = validFrom u' cs := by
  rw [validFrom, h]

theorem Utf8State.next_tail {n : ℕ} (h : n < 0x40) :
    Utf8State.tail1.next (Char.ofNat (0x80 + n)) = some .accept ∧
      Utf8State.tail2.next (Char.ofNat (0x80 + n)) = some .tail1 ∧
      Utf8State.tail3.next (Char.ofNat (0x80 + n)) = some .tail2 := by
  have hin : byteIn 0x80 0xBF (Char.ofNat (0x80 + n)) = true := by
    rw [byteIn_iff, byte_toNat (by omega)]
    omega
  simp only [Utf8State.next, if_pos hin, and_self]

theorem Utf8State.next_lead_two : ∀ q < 0x20, 2 ≤ q →
    Utf8State.accept.next (Char.ofNat (0xC0 + q)) = some .tail1 := by decide

theorem Utf8State.next_lead_three : ∀ q < 0x10, Utf8State.accept.next (Char.ofNat (0xE0 + q)) =
    some (if q = 0 then .afterE0 else if q = 0xD then .afterED else .tail2) := by decide

theorem Utf8State.next_lead_four : ∀ q ≤ 4, Utf8State.accept.next (Char.ofNat (0xF0 + q)) =
    some (if q = 0 then .afterF0 else if q = 4 then .afterF4 else .tail3) := by decide

/-- The second byte after a lead that restricts it. -/
theorem Utf8State.next_second : ∀ r < 0x40,
    (0x20 ≤ r → Utf8State.afterE0.next (Char.ofNat (0x80 + r)) = some .tail1) ∧
    (r < 0x20 → Utf8State.afterED.next (Char.ofNat (0x80 + r)) = some .tail1) ∧
    (0x10 ≤ r → Utf8State.afterF0.next (Char.ofNat (0x80 + r)) = some .tail2) ∧
    (r < 0x10 → Utf8State.afterF4.next (Char.ofNat (0x80 + r)) = some .tail2) := by decide

theorem Utf8State.next_three {cp : ℕ} (hmin : 0x800 ≤ cp) (hmax : cp < 0x10000)
    (hpair : ¬(0xD800 ≤ cp ∧ cp ≤ 0xDFFF)) :
    ∃ u, Utf8State.accept.next (Char.ofNat (0xE0 + cp / 0x1000)) = some u ∧
      u.next (Char.ofNat (0x80 + cp / 0x40 % 0x40)) = some .tail1 := by
  have hsmall : cp / 0x40 % 0x40 < 0x40 := Nat.mod_lt _ (by decide)
  refine ⟨_, Utf8State.next_lead_three (cp / 0x1000) (by omega), ?_⟩
  by_cases hzero : cp / 0x1000 = 0
  · rw [if_pos hzero]
    exact (Utf8State.next_second _ hsmall).1 (by omega)
  · rw [if_neg hzero]
    by_cases hpairs : cp / 0x1000 = 0xD
    · rw [if_pos hpairs]
      exact (Utf8State.next_second _ hsmall).2.1 (by omega)
    · rw [if_neg hpairs]
      exact (Utf8State.next_tail hsmall).2.1

theorem Utf8State.next_four {cp : ℕ} (hmin : 0x10000 ≤ cp) (hmax : cp < 0x110000) :
    ∃ u, Utf8State.accept.next (Char.ofNat (0xF0 + cp / 0x40000)) = some u ∧
      u.next (Char.ofNat (0x80 + cp / 0x1000 % 0x40)) = some .tail2 := by
  have hsmall : cp / 0x1000 % 0x40 < 0x40 := Nat.mod_lt _ (by decide)
  refine ⟨_, Utf8State.next_lead_four (cp / 0x40000) (by omega), ?_⟩
  by_cases hzero : cp / 0x40000 = 0
  · rw [if_pos hzero]
    exact (Utf8State.next_second _ hsmall).2.2.1 (by omega)
  · rw [if_neg hzero]
    by_cases hlast : cp / 0x40000 = 4
    · rw [if_pos hlast]
      exact (Utf8State.next_second _ hsmall).2.2.2 (by omega)
    · rw [if_neg hlast]
      exact (Utf8State.next_tail hsmall).2.2

/-- The bytes of a code point lead the decoder back to where it accepts. -/
theorem validFrom_utf8Bytes {cp : ℕ} (hmax : cp < 0x110000)
    (hpair : ¬(0xD800 ≤ cp ∧ cp ≤ 0xDFFF)) (t : Str) :
    validFrom .accept (utf8Bytes cp ++ t) = validFrom .accept t := by
  have hlast := (Utf8State.next_tail (n := cp % 0x40) (by omega)).1
  have hmiddle := Utf8State.next_tail (n := cp / 0x40 % 0x40) (by omega)
  unfold utf8Bytes
  split_ifs with h1 h2 h3
  · exact validFrom_cons (Utf8State.next_accept_ascii (by rwa [byte_toNat (by omega)])) t
  · have hlead : Utf8State.accept.next (Char.ofNat (0xC0 + cp / 0x40)) = some .tail1 :=
      Utf8State.next_lead_two _ (by omega) (by omega)
    rw [List.cons_append, validFrom_cons hlead, List.cons_append, validFrom_cons hlast,
      List.nil_append]
  · obtain ⟨u, hlead, hnext⟩ := Utf8State.next_three (by omega) h3 hpair
    rw [List.cons_append, validFrom_cons hlead, List.cons_append, validFrom_cons hnext,
      List.cons_append, validFrom_cons hlast, List.nil_append]
  · obtain ⟨u, hlead, hnext⟩ := Utf8State.next_four (by omega) hmax
    rw [List.cons_append, validFrom_cons hlead, List.cons_append, validFrom_cons hnext,
      List.cons_append, validFrom_cons hmiddle.2.1, List.cons_append, validFrom_cons hlast,
      List.nil_append]

def StrState.utf8 (st : StrState) : Utf8State :=
  match st with
  | .text u => u
  | .escape | .hex _ _ _ | .lowBackslash _ | .lowU _ => .accept

def isHighSurrogate (cp : ℕ) : Prop := 0xD800 ≤ cp ∧ cp ≤ 0xDBFF

/-- The digits read so far fit the digits that are left, and a first half is a first half. -/
def StrState.sound (st : StrState) : Prop :=
  match st with
  | .text _ | .escape => True
  | .hex left acc high => 1 ≤ left ∧ (acc + 1) * 16 ^ left ≤ 0x10000 ∧ ∀ h ∈ high, isHighSurrogate h
  | .lowBackslash h | .lowU h => isHighSurrogate h

theorem hexVal_lt {c : Char} {d : ℕ} (h : hexVal c = some d) : d < 16 := by
  unfold hexVal at h
  split_ifs at h with hdigit hlower hupper
  · have hrange := Char.isDigit_iff_toNat.mp hdigit
    have hnine : '9'.toNat = 57 := rfl
    have hd := Option.some.inj h
    omega
  · have hrange := byteIn_iff.mp hlower
    have hd := Option.some.inj h
    omega
  · have hrange := byteIn_iff.mp hupper
    have hd := Option.some.inj h
    omega

theorem closeHex_sound {cp : ℕ} {high : Option ℕ} {st' : StrState} {out : Str}
    (hcp : cp < 0x10000) (hhigh : ∀ h ∈ high, isHighSurrogate h)
    (h : closeHex cp high = some (st', out)) :
    st'.sound ∧ ∀ t, validFrom st'.utf8 t = true → validFrom .accept (out ++ t) = true := by
  cases high with
  | none =>
    simp only [closeHex] at h
    split_ifs at h with hfirst hsecond
    · obtain ⟨rfl, rfl⟩ := Prod.mk.inj (Option.some.inj h)
      exact ⟨hfirst, fun t ht => ht⟩
    · obtain ⟨rfl, rfl⟩ := Prod.mk.inj (Option.some.inj h)
      refine ⟨trivial, fun t ht => ?_⟩
      rwa [validFrom_utf8Bytes (by omega) (by omega)]
  | some first =>
    have hrange := hhigh first rfl
    unfold isHighSurrogate at hrange
    simp only [closeHex] at h
    split_ifs at h with hsecond
    obtain ⟨rfl, rfl⟩ := Prod.mk.inj (Option.some.inj h)
    refine ⟨trivial, fun t ht => ?_⟩
    rwa [validFrom_utf8Bytes (by omega) (by omega)]

theorem of_ite_some {α : Type*} {Q : α → Prop} {p : Prop} [Decidable p] {a b : α} {rest : Option α}
    (h : (if p then some a else rest) = some b) (ha : Q a) (hrest : rest = some b → Q b) : Q b := by
  split_ifs at h with hp
  · exact Option.some.inj h ▸ ha
  · exact hrest h

theorem unescape_cases {c : Char} {st' : StrState} {out : Str}
    (h : unescape c = some (st', out)) :
    (st' = .hex 4 0 none ∧ out = []) ∨ ∃ d, d.toNat < 0x80 ∧ st' = .text .accept ∧ out = [d] := by
  let Q (r : StrState × Str) : Prop := (r.1 = .hex 4 0 none ∧ r.2 = []) ∨
    ∃ d, d.toNat < 0x80 ∧ r.1 = .text .accept ∧ r.2 = [d]
  have hchar : ∀ d : Char, d.toNat < 0x80 → Q (.text .accept, [d]) :=
    fun d hd => .inr ⟨d, hd, rfl, rfl⟩
  show Q (st', out)
  refine of_ite_some h (hchar _ (by decide)) fun h => ?_
  refine of_ite_some h (hchar _ (by decide)) fun h => ?_
  refine of_ite_some h (hchar _ (by decide)) fun h => ?_
  refine of_ite_some h (hchar _ (by decide)) fun h => ?_
  refine of_ite_some h (hchar _ (by decide)) fun h => ?_
  refine of_ite_some h (hchar _ (by decide)) fun h => ?_
  refine of_ite_some h (hchar _ (by decide)) fun h => ?_
  refine of_ite_some h (hchar _ (by decide)) fun h => ?_
  exact of_ite_some h (.inl ⟨rfl, rfl⟩) nofun

/-- One byte: what it stands for leads the decoder from the old state to the new one. -/
theorem StrState.step_sound {st st' : StrState} {c : Char} {out : Str} (hst : st.sound)
    (h : st.step c = some (st', out)) :
    st'.sound ∧ ∀ t, validFrom st'.utf8 t = true → validFrom st.utf8 (out ++ t) = true := by
  cases st with
  | text u =>
    simp only [StrState.step] at h
    split_ifs at h with hescape hcontrol
    · obtain ⟨rfl, rfl⟩ := Prod.mk.inj (Option.some.inj h)
      exact ⟨trivial, fun t ht => hescape.1 ▸ ht⟩
    · cases hnext : u.next c with
      | none => simp [hnext] at h
      | some u' =>
        simp only [hnext] at h
        obtain ⟨rfl, rfl⟩ := Prod.mk.inj (Option.some.inj h)
        exact ⟨trivial, fun t ht => (validFrom_cons hnext t).trans ht⟩
  | escape =>
    rcases unescape_cases h with ⟨rfl, rfl⟩ | ⟨d, hd, rfl, rfl⟩
    · exact ⟨⟨by decide, by decide, by simp⟩, fun t ht => ht⟩
    · refine ⟨trivial, fun t ht => ?_⟩
      exact (validFrom_cons (Utf8State.next_accept_ascii hd) t).trans ht
  | hex left acc high =>
    obtain ⟨hleft, hacc, hhigh⟩ := hst
    cases hdigit : hexVal c with
    | none => simp [StrState.step, hdigit] at h
    | some d =>
      have hd := hexVal_lt hdigit
      simp only [StrState.step, hdigit] at h
      split_ifs at h with hlast
      · obtain rfl : left = 1 := by omega
        exact closeHex_sound (by omega) hhigh h
      · obtain ⟨rfl, rfl⟩ := Prod.mk.inj (Option.some.inj h)
        refine ⟨⟨by omega, ?_, hhigh⟩, fun t ht => ht⟩
        obtain ⟨k, rfl⟩ : ∃ k, left = k + 1 := ⟨left - 1, by omega⟩
        calc (16 * acc + d + 1) * 16 ^ (k + 1 - 1) ≤ (acc + 1) * 16 * 16 ^ k := by
              rw [Nat.add_sub_cancel]
              exact Nat.mul_le_mul_right _ (by omega)
          _ = (acc + 1) * 16 ^ (k + 1) := by rw [mul_assoc, ← Nat.pow_succ']
          _ ≤ 0x10000 := hacc
  | lowBackslash first =>
    simp only [StrState.step] at h
    split_ifs at h
    obtain ⟨rfl, rfl⟩ := Prod.mk.inj (Option.some.inj h)
    exact ⟨hst, fun t ht => ht⟩
  | lowU first =>
    simp only [StrState.step] at h
    split_ifs at h
    obtain ⟨rfl, rfl⟩ := Prod.mk.inj (Option.some.inj h)
    refine ⟨⟨by decide, by decide, fun high hhigh => ?_⟩, fun t ht => ht⟩
    exact Option.mem_some_iff.mp hhigh ▸ hst

/-- The body of a string, from wherever the lexer stands. -/
theorem scanStr_utf8 {st : StrState} {s a r : Str} (hst : st.sound)
    (h : scanStr st s = some (a, r)) : validFrom st.utf8 a = true := by
  induction s generalizing st a with
  | nil => cases h
  | cons c cs ih =>
    rw [scanStr] at h
    split_ifs at h with hquote
    · obtain ⟨rfl, -⟩ := Prod.mk.inj (Option.some.inj h)
      rw [hquote.1]
      rfl
    · cases hstep : st.step c with
      | none => simp [hstep] at h
      | some p =>
        obtain ⟨st', out⟩ := p
        simp only [hstep] at h
        obtain ⟨⟨rest, r'⟩, hrest, hpair⟩ := Option.map_eq_some_iff.mp h
        obtain ⟨rfl, rfl⟩ := Prod.mk.inj hpair
        obtain ⟨hsound, hout⟩ := StrState.step_sound hst hstep
        exact hout rest (ih hsound hrest)

theorem scanStr_validUtf8 {s a r : Str} (h : scanStr (.text .accept) s = some (a, r)) :
    validUtf8 a = true := by
  have hst : (StrState.text .accept).sound := trivial
  exact scanStr_utf8 hst h

theorem numberValue_exactOk {t : Str} {j : Json} (h : numberValue t = some j) :
    exactOk j = true := by
  unfold numberValue at h
  split_ifs at h <;> obtain rfl := Option.some.inj h <;> rfl

theorem scanNumber_exactOk {s r : Str} {j : Json} (h : scanNumber s = some (j, r)) :
    exactOk j = true := by
  obtain ⟨v, hv, hpair⟩ := Option.map_eq_some_iff.mp h
  obtain ⟨rfl, -⟩ := Prod.mk.inj hpair
  exact numberValue_exactOk hv

theorem scanLiteral_eq {word s r : Str} {j v : Json} (h : scanLiteral word j s = some (v, r)) :
    v = j := by
  unfold scanLiteral at h
  split_ifs at h
  exact (Prod.mk.inj (Option.some.inj h)).1.symm

/-- What the three parsers return at one fuel value. -/
structure ParsesExact (n : ℕ) : Prop where
  value : ∀ {s v r}, parseValue n s = some (v, r) → exactOk v = true
  elems : ∀ {s vs r}, parseElems n s = some (vs, r) → allElems validUtf8 Double.isFinite vs = true
  members : ∀ {s fs r}, parseMembers n s = some (fs, r) →
    allMembers validUtf8 Double.isFinite fs = true

theorem ParsesExact.value_succ {n : ℕ} (ih : ParsesExact n) {s r : Str} {v : Json}
    (h : parseValue (n + 1) s = some (v, r)) : exactOk v = true := by
  rw [parseValue] at h
  cases hs : skipWs s with
  | nil => simp [hs] at h
  | cons c cs =>
    simp only [hs] at h
    split_ifs at h
    · split at h
      · obtain ⟨rfl, -⟩ := Prod.mk.inj (Option.some.inj h)
        rfl
      · obtain ⟨⟨fs, r'⟩, hmembers, hpair⟩ := Option.map_eq_some_iff.mp h
        obtain ⟨rfl, -⟩ := Prod.mk.inj hpair
        exact ih.members hmembers
    · split at h
      · obtain ⟨rfl, -⟩ := Prod.mk.inj (Option.some.inj h)
        rfl
      · obtain ⟨⟨xs, r'⟩, helems, hpair⟩ := Option.map_eq_some_iff.mp h
        obtain ⟨rfl, -⟩ := Prod.mk.inj hpair
        exact ih.elems helems
    · obtain ⟨⟨a, r'⟩, hscan, hpair⟩ := Option.map_eq_some_iff.mp h
      obtain ⟨rfl, -⟩ := Prod.mk.inj hpair
      exact scanStr_validUtf8 hscan
    · obtain rfl := scanLiteral_eq h
      rfl
    · obtain rfl := scanLiteral_eq h
      rfl
    · obtain rfl := scanLiteral_eq h
      rfl
    · exact scanNumber_exactOk h

theorem ParsesExact.elems_succ {n : ℕ} (ih : ParsesExact n) {s r : Str} {vs : List Json}
    (h : parseElems (n + 1) s = some (vs, r)) :
    allElems validUtf8 Double.isFinite vs = true := by
  rw [parseElems] at h
  cases hv : parseValue n s with
  | none => simp [hv] at h
  | some p =>
    obtain ⟨v, r1⟩ := p
    have hvalue : allLeaves validUtf8 Double.isFinite v = true := ih.value hv
    simp only [hv] at h
    split at h
    · obtain ⟨⟨xs, r'⟩, hrest, hpair⟩ := Option.map_eq_some_iff.mp h
      obtain ⟨rfl, -⟩ := Prod.mk.inj hpair
      rw [allElems, hvalue, ih.elems hrest]
      rfl
    · obtain ⟨rfl, -⟩ := Prod.mk.inj (Option.some.inj h)
      rw [allElems, hvalue]
      rfl
    · cases h

theorem ParsesExact.members_succ {n : ℕ} (ih : ParsesExact n) {s r : Str} {fs : Fields}
    (h : parseMembers (n + 1) s = some (fs, r)) :
    allMembers validUtf8 Double.isFinite fs = true := by
  rw [parseMembers] at h
  split at h
  · split at h
    · cases h
    · rename_i k r1 hkey
      have hk := scanStr_validUtf8 hkey
      split at h
      · split at h
        · cases h
        · rename_i v r3 hval
          have hvalue : allLeaves validUtf8 Double.isFinite v = true := ih.value hval
          split at h
          · obtain ⟨⟨rest, r'⟩, hrest, hpair⟩ := Option.map_eq_some_iff.mp h
            obtain ⟨rfl, -⟩ := Prod.mk.inj hpair
            rw [allMembers, hk, hvalue, ih.members hrest]
            rfl
          · obtain ⟨rfl, -⟩ := Prod.mk.inj (Option.some.inj h)
            rw [allMembers, hk, hvalue]
            rfl
          · cases h
      · cases h
  · cases h

theorem parsesExact (n : ℕ) : ParsesExact n := by
  induction n with
  | zero =>
    constructor
    · intro s v r h; simp [parseValue] at h
    · intro s vs r h; simp [parseElems] at h
    · intro s fs r h; simp [parseMembers] at h
  | succ n ih => exact ⟨ih.value_succ, ih.elems_succ, ih.members_succ⟩

/-- Whatever the text, a parsed value can be printed and parsed again. -/
theorem exactOk_of_parse {s : Str} {j : Json} (h : parse s = some j) : exactOk j = true := by
  unfold parse at h
  split at h
  · cases h
  · split at h
    · cases h
    · rename_i v r hv
      have hvalue := (parsesExact _).value hv
      split at h
      · exact Option.some.inj h ▸ hvalue
      · split_ifs at h
        exact Option.some.inj h ▸ hvalue

theorem utf8Ok_of_parse {s : Str} {j : Json} (h : parse s = some j) : utf8Ok j = true :=
  utf8Ok_of_exactOk j (exactOk_of_parse h)

end TextCodec
