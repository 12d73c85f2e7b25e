import XnMiner.Text.JsonRoundTrip

/-! # Torn texts are rejected

A parse that ends before the end of its input does not look further: it succeeds
in the same way on every longer input. Hence no proper prefix of a printed object
parses, and a printed value spans a single line.
-/
namespace TextCodec

theorem skipWs_append {s r : Str} {c : Char} (h : skipWs s = c :: r) (t : Str) :
    skipWs (s ++ t) = c :: (r ++ t) := by
  rw [skipWs, List.dropWhile_append, ← skipWs, h]
  simp

theorem scanStr_append {st : StrState} {s a r : Str} (h : scanStr st s = some (a, r)) (t : Str) :
    scanStr st (s ++ t) = some (a, r ++ t) := by
  induction s generalizing st a with
  | nil => simp [scanStr] at h
  | cons c cs ih =>
    rw [scanStr] at h
    rw [List.cons_append, scanStr]
    by_cases hq : st = .text .accept ∧ c = '"'
    · rw [if_pos hq] at h ⊢
      simp only [Option.some.injEq, Prod.mk.injEq] at h
      simp [← h.1, ← h.2]
    · rw [if_neg hq] at h ⊢
      cases hs : st.step c with
      | none => simp [hs] at h
      | some p =>
        obtain ⟨st', out⟩ := p
        simp only [hs, Option.map_eq_some_iff, Prod.mk.injEq, Prod.exists] at h ⊢
        obtain ⟨a', r', hrec, rfl, rfl⟩ := h
        exact ⟨a', r' ++ t, ih hrec, rfl, rfl⟩

theorem scanLiteral_append {word s r : Str} {j v : Json} (h : scanLiteral word j s = some (v, r))
    (t : Str) : scanLiteral word j (s ++ t) = some (v, r ++ t) := by
  unfold scanLiteral at h ⊢
  split at h
  · rename_i hp
    simp only [Option.some.injEq, Prod.mk.injEq] at h
    obtain ⟨u, rfl⟩ := List.isPrefixOf_iff_prefix.mp hp
    have hpre : word.isPrefixOf (word ++ u ++ t) = true :=
      List.isPrefixOf_iff_prefix.mpr ⟨u ++ t, by simp⟩
    obtain ⟨rfl, rfl⟩ := h
    rw [if_pos hpre]
    simp
  · cases h

def Json.isNumber (j : Json) : Bool :=
  match j with
  | .int _ | .float _ => true
  | _ => false

theorem scanNumber_append {s r : Str} {v : Json} (h : scanNumber s = some (v, r)) (hr : r ≠ [])
    (t : Str) : scanNumber (s ++ t) = some (v, r ++ t) := by
  simp only [scanNumber, Option.map_eq_some_iff, Prod.mk.injEq] at h ⊢
  obtain ⟨j, hj, rfl, rfl⟩ := h
  have hstop : s.dropWhile isNumChar ≠ [] := hr
  refine ⟨j, ?_, rfl, ?_⟩
  · rw [List.takeWhile_append, if_neg, hj]
    intro hlen
    have hwhole := (List.takeWhile_prefix isNumChar (l := s)).eq_of_length hlen
    exact hstop (by simpa [hwhole] using List.takeWhile_append_dropWhile (p := isNumChar) (l := s))
  · rw [List.dropWhile_append]
    simp [hstop]

theorem numberValue_isNumber {t : Str} {v : Json} (h : numberValue t = some v) :
    v.isNumber = true := by
  unfold numberValue at h
  split_ifs at h with h1 h2
  · cases h; rfl
  · cases h; rfl

theorem scanNumber_isNumber {s r : Str} {v : Json} (h : scanNumber s = some (v, r)) :
    v.isNumber = true := by
  simp only [scanNumber, Option.map_eq_some_iff, Prod.mk.injEq] at h
  obtain ⟨j, hj, rfl, -⟩ := h
  exact numberValue_isNumber hj

/-- The three parsers at one fuel value are stable under more fuel and longer input. -/
structure Stable (n : ℕ) : Prop where
  value : ∀ {s v r}, parseValue n s = some (v, r) → (r ≠ [] ∨ v.isNumber = false) →
    ∀ {m}, n ≤ m → ∀ t, parseValue m (s ++ t) = some (v, r ++ t)
  elems : ∀ {s vs r}, parseElems n s = some (vs, r) →
    ∀ {m}, n ≤ m → ∀ t, parseElems m (s ++ t) = some (vs, r ++ t)
  members : ∀ {s fs r}, parseMembers n s = some (fs, r) →
    ∀ {m}, n ≤ m → ∀ t, parseMembers m (s ++ t) = some (fs, r ++ t)

theorem Stable.value_succ {n : ℕ} (ih : Stable n) {s r : Str} {v : Json}
    (h : parseValue (n + 1) s = some (v, r)) (hv : r ≠ [] ∨ v.isNumber = false)
    {m : ℕ} (hm : n ≤ m) (t : Str) : parseValue (m + 1) (s ++ t) = some (v, r ++ t) := by
  rw [parseValue] at h
  cases hs : skipWs s with
  | nil => simp [hs] at h
  | cons c cs =>
    simp only [hs] at h
    simp only [parseValue, skipWs_append hs t]
    split_ifs at h ⊢ with h1 h2 h3 h4 h5 h6
    · split at h
      · rename_i r' hb
        simp only [Option.some.injEq, Prod.mk.injEq] at h
        obtain ⟨rfl, rfl⟩ := h
        simp only [skipWs_append hb]
      · rename_i hb
        simp only [Option.map_eq_some_iff, Prod.mk.injEq, Prod.exists] at h
        obtain ⟨fs, r', hmem, rfl, rfl⟩ := h
        cases hk : skipWs cs with
        | nil =>
          rw [hk] at hmem
          cases n <;> simp [parseMembers, skipWs] at hmem
        | cons d ds =>
          have hd : d ≠ '}' := by rintro rfl; exact hb ds hk
          rw [hk] at hmem
          have hmem' := ih.members hmem hm t
          rw [List.cons_append] at hmem'
          rw [skipWs_append hk t]
          split
          · rename_i heq
            exact absurd (List.cons.inj heq).1 hd
          · simp [hmem']
    · split at h
      · rename_i r' hb
        simp only [Option.some.injEq, Prod.mk.injEq] at h
        obtain ⟨rfl, rfl⟩ := h
        simp only [skipWs_append hb]
      · rename_i hb
        simp only [Option.map_eq_some_iff, Prod.mk.injEq, Prod.exists] at h
        obtain ⟨xs, r', helems, rfl, rfl⟩ := h
        cases hk : skipWs cs with
        | nil =>
          rw [hk] at helems
          rcases n with _ | _ | k
          · simp [parseElems] at helems
          · simp [parseElems, parseValue] at helems
          · simp [parseElems, parseValue, skipWs] at helems
        | cons d ds =>
          have hd : d ≠ ']' := by rintro rfl; exact hb ds hk
          rw [hk] at helems
          have helems' := ih.elems helems hm t
          rw [List.cons_append] at helems'
          rw [skipWs_append hk t]
          split
          · rename_i heq
            exact absurd (List.cons.inj heq).1 hd
          · simp [helems']
    · simp only [Option.map_eq_some_iff, Prod.mk.injEq, Prod.exists] at h ⊢
      obtain ⟨a, r', hscan, rfl, rfl⟩ := h
      exact ⟨a, r' ++ t, scanStr_append hscan t, rfl, rfl⟩
    · exact scanLiteral_append h t
    · exact scanLiteral_append h t
    · exact scanLiteral_append h t
    · rcases hv with hr | hnum
      · exact scanNumber_append h hr t
      · simp [scanNumber_isNumber h] at hnum

theorem Stable.elems_succ {n : ℕ} (ih : Stable n) {s r : Str} {vs : List Json}
    (h : parseElems (n + 1) s = some (vs, r)) {m : ℕ} (hm : n ≤ m) (t : Str) :
    parseElems (m + 1) (s ++ t) = some (vs, r ++ t) := by
  rw [parseElems] at h
  cases hv : parseValue n s with
  | none => simp [hv] at h
  | some p =>
    obtain ⟨v, r1⟩ := p
    simp only [hv] at h
    have hne : skipWs r1 ≠ [] → r1 ≠ [] := by rintro h0 rfl; exact h0 rfl
    cases hk : skipWs r1 with
    | nil => simp [hk] at h
    | cons c cs =>
      have hv' := ih.value hv (.inl (hne (by simp [hk]))) hm t
      have hk' := skipWs_append hk t
      simp only [hk] at h
      rw [parseElems]
      simp only [hv', hk']
      split at h
      · rename_i heq
        obtain ⟨rfl, rfl⟩ := List.cons.inj heq
        simp only [Option.map_eq_some_iff, Prod.mk.injEq, Prod.exists] at h ⊢
        obtain ⟨xs, r', hrec, rfl, rfl⟩ := h
        exact ⟨xs, r' ++ t, ih.elems hrec hm t, rfl, rfl⟩
      · rename_i heq
        obtain ⟨rfl, rfl⟩ := List.cons.inj heq
        simp only [Option.some.injEq, Prod.mk.injEq] at h
        simp [← h.1, ← h.2]
      · cases h

theorem Stable.members_succ {n : ℕ} (ih : Stable n) {s r : Str} {fs : Fields}
    (h : parseMembers (n + 1) s = some (fs, r)) {m : ℕ} (hm : n ≤ m) (t : Str) :
    parseMembers (m + 1) (s ++ t) = some (fs, r ++ t) := by
  rw [parseMembers] at h
  split at h
  · rename_i r0 hq
    split at h
    · cases h
    · rename_i k r1 hkey
      split at h
      · rename_i r2 hcolon
        split at h
        · cases h
        · rename_i v r3 hval
          have hne : skipWs r3 ≠ [] → r3 ≠ [] := by rintro h0 rfl; exact h0 rfl
          cases hk : skipWs r3 with
          | nil => simp [hk] at h
          | cons c cs =>
            have hval' := ih.value hval (.inl (hne (by simp [hk]))) hm t
            rw [parseMembers]
            simp only [skipWs_append hq t, scanStr_append hkey t, skipWs_append hcolon t, hval',
              skipWs_append hk t]
            simp only [hk] at h
            split at h
            · rename_i heq
              obtain ⟨rfl, rfl⟩ := List.cons.inj heq
              simp only [Option.map_eq_some_iff, Prod.mk.injEq, Prod.exists] at h ⊢
              obtain ⟨xs, r', hrec, rfl, rfl⟩ := h
              exact ⟨xs, r' ++ t, ih.members hrec hm t, rfl, rfl⟩
            · rename_i heq
              obtain ⟨rfl, rfl⟩ := List.cons.inj heq
              simp only [Option.some.injEq, Prod.mk.injEq] at h
              simp [← h.1, ← h.2]
            · cases h
      · cases h
  · cases h

theorem stable (n : ℕ) : Stable n := by
  induction n with
  | zero =>
    constructor
    · intro s v r h; simp [parseValue] at h
    · intro s vs r h; simp [parseElems] at h
    · intro s fs r h; simp [parseMembers] at h
  | succ n ih =>
    constructor
    · intro s v r h hv m hm t
      obtain ⟨m, rfl⟩ : ∃ k, m = k + 1 := ⟨m - 1, by omega⟩
      exact ih.value_succ h hv (by omega) t
    · intro s vs r h m hm t
      obtain ⟨m, rfl⟩ : ∃ k, m = k + 1 := ⟨m - 1, by omega⟩
      exact ih.elems_succ h (by omega) t
    · intro s fs r h m hm t
      obtain ⟨m, rfl⟩ : ∃ k, m = k + 1 := ⟨m - 1, by omega⟩
      exact ih.members_succ h (by omega) t

theorem dumpText_obj_head (fs : Fields) : ∃ cs, dumpText (.obj fs) = '{' :: cs := by
  match fs with
  | [] => exact ⟨_, rfl⟩
  | (k, v) :: fs => exact ⟨_, by rw [dumpText]⟩

/-- What starts with a brace parses to an object, if at all. -/
theorem parseValue_brace {n : ℕ} {cs r : Str} {v : Json}
    (h : parseValue n ('{' :: cs) = some (v, r)) : v.isNumber = false := by
  cases n with
  | zero => simp [parseValue] at h
  | succ n =>
    have hskip : skipWs ('{' :: cs) = '{' :: cs := by simp [skipWs, isWs]
    simp only [parseValue, hskip, if_true] at h
    split at h
    · simp only [Option.some.injEq, Prod.mk.injEq] at h
      rw [← h.1]; rfl
    · simp only [Option.map_eq_some_iff, Prod.mk.injEq] at h
      obtain ⟨p, -, rfl, -⟩ := h
      rfl

/-- A proper prefix of a printed object does not parse. -/
theorem parse_torn {fs : Fields} (hok : exactOk (.obj fs) = true) {p : Str}
    (hp : p <+: dumpText (.obj fs)) (hne : p ≠ dumpText (.obj fs)) : parse p = none := by
  obtain ⟨s, hs⟩ := hp
  cases p with
  | nil => rfl
  | cons c cs =>
    obtain ⟨ds, hd⟩ := dumpText_obj_head fs
    obtain rfl : c = '{' := by
      rw [hd] at hs
      exact (List.cons.inj hs).1
    have hbom : dropBom ('{' :: cs) = some ('{' :: cs) := rfl
    cases hv : parseValue (('{' :: cs).length + 1) ('{' :: cs) with
    | none => simp only [parse, hbom, hv]
    | some q =>
      obtain ⟨v, r⟩ := q
      exfalso
      have hlen : ('{' :: cs).length + 1 ≤ (dumpText (.obj fs)).length + 1 := by
        rw [← hs, List.length_append]
        omega
      have hlong := (stable _).value hv (.inr (parseValue_brace hv)) hlen s
      have hwhole := parseValue_dumpText (.obj fs) ((dumpText (.obj fs)).length + 1) [] hok
        (by omega) delimited_nil
      rw [List.append_nil, ← hs] at hwhole
      rw [← hs, hwhole] at hlong
      simp only [Option.some.injEq, Prod.mk.injEq, List.nil_eq, List.append_eq_nil_iff] at hlong
      exact hne (by rw [← hs, hlong.2.2, List.append_nil])

/-- The same for an object whose doubles need not be finite. -/
theorem parse_of_torn_dump {fs : Fields} {text p : Str} (h : dump (.obj fs) = some text)
    (hp : p <+: text) (hne : p ≠ text) : parse p = none := by
  obtain ⟨hu, rfl⟩ := dump_eq_some h
  rw [← dumpText_readBack] at hp hne
  exact parse_torn (exactOk_readBack (.obj fs) hu) hp hne

theorem newline_not_mem_escapeChar (c : Char) : '\n' ∉ escapeChar c := by
  have hhex : ∀ d < 16, hexDigit d ≠ '\n' := by decide
  have hesc := escapes_escapeChar c
  generalize escapeChar c = s at hesc
  intro hmem
  cases hesc with
  | short e hascii he =>
    obtain rfl : '\n' = e := by simpa using hmem
    cases he
  | control hc =>
    simp only [List.mem_cons, List.not_mem_nil, or_false] at hmem
    rcases hmem with h | h | h | h | h | h
    · exact absurd h (by decide)
    · exact absurd h (by decide)
    · exact absurd h (by decide)
    · exact absurd h (by decide)
    · exact hhex _ (by omega) h.symm
    · exact hhex _ (by omega) h.symm
  | plain hq hb hctl =>
    obtain rfl : '\n' = c := by simpa using hmem
    exact absurd hctl (by decide)

theorem newline_not_mem_dumpStr (s : Str) : '\n' ∉ dumpStr s := by
  have hesc : '\n' ∉ escape s := by
    simp only [escape, List.mem_flatMap, not_exists, not_and]
    exact fun c _ => newline_not_mem_escapeChar c
  simp [dumpStr, hesc]

theorem newline_not_mem_number {t : Str} (h : ∀ c ∈ t, isNumChar c = true) : '\n' ∉ t := by
  intro hmem
  exact absurd (h _ hmem) (by decide)

mutual
theorem newline_not_mem_dumpText : ∀ j : Json, '\n' ∉ dumpText j
  | .null | .bool true | .bool false => by simp [dumpText]
  | .int i => newline_not_mem_number (isNumChar_intText i.val)
  | .float (.finite x) => newline_not_mem_number x.isNumChar_text
  | .float .nonfinite => by simp [dumpText, dumpDouble]
  | .str s => newline_not_mem_dumpStr s
  | .arr [] => by simp [dumpText]
  | .arr (x :: xs) => by
    simp [dumpText, newline_not_mem_dumpText x, newline_not_mem_dumpElems xs]
  | .obj [] => by simp [dumpText]
  | .obj ((k, v) :: fs) => by
    simp [dumpText, newline_not_mem_dumpStr k, newline_not_mem_dumpText v,
      newline_not_mem_dumpMembers fs]
theorem newline_not_mem_dumpElems : ∀ xs : List Json, '\n' ∉ dumpElems xs
  | [] => by simp [dumpElems]
  | x :: xs => by simp [dumpElems, newline_not_mem_dumpText x, newline_not_mem_dumpElems xs]
theorem newline_not_mem_dumpMembers : ∀ fs : List (Str × Json), '\n' ∉ dumpMembers fs
  | [] => by simp [dumpMembers]
  | (k, v) :: fs => by
    simp [dumpMembers, newline_not_mem_dumpStr k, newline_not_mem_dumpText v,
      newline_not_mem_dumpMembers fs]
end

end TextCodec
