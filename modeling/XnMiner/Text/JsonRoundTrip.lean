import XnMiner.Text.Json

/-! # Printing then parsing is the identity

The string lexer undoes the escapes byte by byte, whatever UTF-8 state it is in;
the value parser then follows the shape of the printed value.
-/
namespace TextCodec

theorem byteIn_iff {lo hi : ℕ} {c : Char} : byteIn lo hi c = true ↔ lo ≤ c.toNat ∧ c.toNat ≤ hi := by
  simp [byteIn]

theorem char_eq_of_toNat {c d : Char} (h : c.toNat = d.toNat) : c = d :=
  Char.toNat_inj.mp h

/-- Below `0x80` the decoder only accepts between characters. -/
theorem Utf8State.next_ascii {u u' : Utf8State} {c : Char} (h : u.next c = some u')
    (hc : c.toNat < 0x80) : u = .accept ∧ u' = .accept := by
  cases u with
  | accept =>
    have hin : byteIn 0 0x7F c = true := by simp [byteIn]; omega
    simp only [next, hin, if_true, Option.some.injEq] at h
    exact ⟨rfl, h.symm⟩
  | tail1 | tail2 | tail3 | afterE0 | afterED | afterF0 | afterF4 =>
    simp only [next] at h
    split at h
    · rename_i hb
      have := (byteIn_iff.mp hb).1
      omega
    · cases h

theorem Utf8State.next_accept_ascii {c : Char} (hc : c.toNat < 0x80) :
    Utf8State.accept.next c = some .accept := by
  have hin : byteIn 0 0x7F c = true := by simp [byteIn]; omega
  simp only [next, hin, if_true]

theorem validUtf8_ascii_append {xs : Str} (h : ∀ c ∈ xs, c.toNat < 0x80) (ys : Str) :
    validUtf8 (xs ++ ys) = validUtf8 ys := by
  induction xs with
  | nil => rfl
  | cons c cs ih =>
    have hc := Utf8State.next_accept_ascii (h c (.head _))
    rw [← ih fun d hd => h d (.tail _ hd), List.cons_append, validUtf8, validFrom, hc, validUtf8]

theorem hexVal_hexDigit : ∀ d < 16, hexVal (hexDigit d) = some d := by decide

theorem scanStr_step {st : StrState} {c : Char} {cs : Str} (st' : StrState) (out : Str)
    (hq : ¬(st = .text .accept ∧ c = '"')) (h : st.step c = some (st', out)) :
    scanStr st (c :: cs) = (scanStr st' cs).map fun p => (out ++ p.1, p.2) := by
  rw [scanStr, if_neg hq]
  simp only [h]

theorem scanStr_escape_short {e c : Char} (he : unescape e = some (.text .accept, [c])) (t : Str) :
    scanStr (.text .accept) ('\\' :: e :: t) =
      (scanStr (.text .accept) t).map fun p => (c :: p.1, p.2) := by
  rw [scanStr_step .escape [] (by simp) (by simp [StrState.step])]
  rw [scanStr_step (.text .accept) [c] (by simp) (by simpa [StrState.step] using he)]
  simp [Option.map_map, Function.comp_def]

theorem closeHex_control {n : ℕ} (hn : n < 0x20) :
    closeHex n none = some (.text .accept, [Char.ofNat n]) := by
  have h1 : ¬(0xD800 ≤ n ∧ n ≤ 0xDBFF) := by omega
  have h2 : ¬(0xDC00 ≤ n ∧ n ≤ 0xDFFF) := by omega
  have h3 : n < 0x80 := by omega
  simp only [closeHex, h1, h2, if_false, utf8Bytes, h3, if_true]

/-- A six-byte escape stands for its control character. -/
theorem scanStr_escape_control {c : Char} (hc : c.toNat < 0x20) (t : Str) :
    scanStr (.text .accept)
        ('\\' :: 'u' :: '0' :: '0' :: hexDigit (c.toNat / 16) :: hexDigit (c.toNat % 16) :: t) =
      (scanStr (.text .accept) t).map fun p => (c :: p.1, p.2) := by
  have hhi := hexVal_hexDigit (c.toNat / 16) (by omega)
  have hlo := hexVal_hexDigit (c.toNat % 16) (by omega)
  have hsum : 16 * (c.toNat / 16) + c.toNat % 16 = c.toNat := by omega
  have hzero : hexVal '0' = some 0 := by decide
  rw [scanStr_step .escape [] (by simp) (by simp [StrState.step])]
  rw [scanStr_step (.hex 4 0 none) [] (by simp) (by simp [StrState.step, unescape])]
  rw [scanStr_step (.hex 3 0 none) [] (by simp) (by simp [StrState.step, hzero])]
  rw [scanStr_step (.hex 2 0 none) [] (by simp) (by simp [StrState.step, hzero])]
  rw [scanStr_step (.hex 1 (c.toNat / 16) none) [] (by simp)
    (by simp [StrState.step, hhi])]
  rw [scanStr_step (.text .accept) [c] (by simp)
    (by simp [StrState.step, hlo, hsum, closeHex_control hc])]
  simp [Option.map_map, Function.comp_def]

theorem scanStr_plain {u u' : Utf8State} {c : Char} (h : u.next c = some u')
    (hq : c ≠ '"') (hb : c ≠ '\\') (hctl : 0x20 ≤ c.toNat) (t : Str) :
    scanStr (.text u) (c :: t) = (scanStr (.text u') t).map fun p => (c :: p.1, p.2) := by
  have hstep : (StrState.text u).step c = some (.text u', [c]) := by
    have hlt : ¬ c.toNat < 0x20 := by omega
    simp [StrState.step, hb, hlt, h]
  rw [scanStr_step _ _ (by simp [hq]) hstep]
  rfl

/-- What a byte is printed as: a two-byte escape that stands for it, the six-byte escape of a
control character, or the byte itself. -/
inductive Escapes (c : Char) : Str → Prop where
  | short (e : Char) (hascii : c.toNat < 0x80) (he : unescape e = some (.text .accept, [c])) :
    Escapes c ['\\', e]
  | control (hc : c.toNat < 0x20) :
    Escapes c ['\\', 'u', '0', '0', hexDigit (c.toNat / 16), hexDigit (c.toNat % 16)]
  | plain (hq : c ≠ '"') (hb : c ≠ '\\') (hctl : 0x20 ≤ c.toNat) : Escapes c [c]

theorem escapes_escapeChar (c : Char) : Escapes c (escapeChar c) := by
  refine iteInduction (fun h => ?_) fun hq => ?_
  · subst h
    exact .short '"' (by decide) (by decide)
  refine iteInduction (fun h => ?_) fun hb => ?_
  · subst h
    exact .short '\\' (by decide) (by decide)
  refine iteInduction (fun h => ?_) fun _ => ?_
  · obtain rfl : c = Char.ofNat 8 := char_eq_of_toNat h
    exact .short 'b' (by decide) (by decide)
  refine iteInduction (fun h => ?_) fun _ => ?_
  · obtain rfl : c = Char.ofNat 9 := char_eq_of_toNat h
    exact .short 't' (by decide) (by decide)
  refine iteInduction (fun h => ?_) fun _ => ?_
  · obtain rfl : c = Char.ofNat 10 := char_eq_of_toNat h
    exact .short 'n' (by decide) (by decide)
  refine iteInduction (fun h => ?_) fun _ => ?_
  · obtain rfl : c = Char.ofNat 12 := char_eq_of_toNat h
    exact .short 'f' (by decide) (by decide)
  refine iteInduction (fun h => ?_) fun _ => ?_
  · obtain rfl : c = Char.ofNat 13 := char_eq_of_toNat h
    exact .short 'r' (by decide) (by decide)
  exact iteInduction .control fun hctl => .plain hq hb (not_lt.mp hctl)

/-- The lexer undoes the escape of one byte, in any decoder state that takes it. -/
theorem scanStr_escapeChar {u u' : Utf8State} {c : Char} (h : u.next c = some u') (t : Str) :
    scanStr (.text u) (escapeChar c ++ t) =
      (scanStr (.text u') t).map fun p => (c :: p.1, p.2) := by
  have hesc := escapes_escapeChar c
  generalize escapeChar c = s at hesc
  cases hesc with
  | short e hascii he =>
    obtain ⟨rfl, rfl⟩ := Utf8State.next_ascii h hascii
    exact scanStr_escape_short he t
  | control hc =>
    obtain ⟨rfl, rfl⟩ := Utf8State.next_ascii h (by omega)
    exact scanStr_escape_control hc t
  | plain hq hb hctl => exact scanStr_plain h hq hb hctl t

theorem scanStr_escape {s : Str} {u : Utf8State} (h : validFrom u s = true) (r : Str) :
    scanStr (.text u) (escape s ++ '"' :: r) = some (s, r) := by
  induction s generalizing u with
  | nil =>
    obtain rfl : u = .accept := by simpa [validFrom] using h
    simp [escape, scanStr]
  | cons c cs ih =>
    cases hn : u.next c with
    | none => simp [validFrom, hn] at h
    | some u' =>
      have htail : validFrom u' cs = true := by simpa [validFrom, hn] using h
      have hsplit : escape (c :: cs) ++ '"' :: r = escapeChar c ++ (escape cs ++ '"' :: r) := by
        simp [escape]
      rw [hsplit, scanStr_escapeChar hn, ih htail]
      rfl

def Delimited (r : Str) : Prop := ∀ c ∈ r.head?, isNumChar c = false

theorem delimited_nil : Delimited [] := by simp [Delimited]

theorem delimited_cons {c : Char} {r : Str} (h : isNumChar c = false) : Delimited (c :: r) := by
  intro d hd
  obtain rfl : c = d := by simpa using hd
  exact h

theorem isNumChar_of_isDigit {c : Char} (h : c.isDigit = true) : isNumChar c = true := by
  simp [isNumChar, h]

theorem stripMinus_of_digits {t : Str} (h : ∀ c ∈ t, c.isDigit = true) : stripMinus t = t := by
  unfold stripMinus
  split
  · have := h '-' (by simp)
    exact absurd this (by decide)
  · rfl

theorem readInt_of_digits {t : Str} (h : ∀ c ∈ t, c.isDigit = true) : readInt t = readNat t := by
  unfold readInt
  split
  · have := h '-' (by simp)
    exact absurd this (by decide)
  · rfl

theorem isIntPart_natText (n : ℕ) : isIntPart (natText n) = true := by
  have hall : (natText n).all Char.isDigit = true :=
    List.all_eq_true.mpr fun c hc => isDigit_of_mem_natText hc
  cases ht : natText n with
  | nil => exact absurd ht (natText_ne_nil n)
  | cons c cs =>
    rw [ht] at hall
    by_cases hn : n = 0
    · subst hn
      obtain ⟨rfl, rfl⟩ : c = '0' ∧ cs = [] := by
        have h0 : natText 0 = ['0'] := by decide
        rw [h0] at ht
        simpa using ht.symm
      decide
    · have hc := natText_head hn ht
      simp [isIntPart, hall, hc]

theorem intToken_intText (i : ℤ) : isIntToken (intText i) = true ∧ readInt (intText i) = i := by
  cases i with
  | ofNat n =>
    have hd : ∀ c ∈ natText n, c.isDigit = true := fun c hc => isDigit_of_mem_natText hc
    refine ⟨?_, ?_⟩
    · simp only [isIntToken, intText, stripMinus_of_digits hd, isIntPart_natText]
    · simp [intText, readInt_of_digits hd]
  | negSucc n =>
    refine ⟨?_, ?_⟩
    · simp only [isIntToken, intText, stripMinus, isIntPart_natText]
    · simp [intText, readInt, Int.negSucc_eq]

theorem numberValue_intText (i : JsonInt) : numberValue (intText i.val) = some (.int i) := by
  obtain ⟨hint, hread⟩ := intToken_intText i.val
  rw [numberValue, if_pos hint]
  simp only [hread, i.inRange, dif_pos]

theorem isIntToken_eq_false_of_float {t : Str} (h : isFloatToken t = true) :
    isIntToken t = false := by
  by_contra hint
  simp only [isIntToken, isIntPart, Bool.and_eq_true, Bool.not_eq_false] at hint
  have hdrop : (stripMinus t).dropWhile Char.isDigit = [] := by
    have hstop := dropWhile_append_stop (r := []) (List.all_eq_true.mp hint.1.1) (by simp)
    simpa using hstop
  simp [isFloatToken, hdrop, isFracExp, isExp] at h

theorem numberValue_float (x : FloatLit) : numberValue x.text = some (.float (.finite x)) := by
  rw [numberValue, isIntToken_eq_false_of_float x.wf]
  simp [x.wf, x.inRange]

theorem FloatLit.text_ne_nil (x : FloatLit) : x.text ≠ [] := by
  intro h
  have := x.wf
  rw [h] at this
  exact absurd this (by decide)

theorem FloatLit.isNumChar_text (x : FloatLit) : ∀ c ∈ x.text, isNumChar c = true := by
  have h := x.wf
  simp only [isFloatToken, Bool.and_eq_true] at h
  exact List.all_eq_true.mp h.2

theorem intText_ne_nil (i : ℤ) : intText i ≠ [] := by
  cases i <;> simp [intText]

theorem isNumChar_intText (i : ℤ) : ∀ c ∈ intText i, isNumChar c = true := by
  intro c hc
  cases i with
  | ofNat n => exact isNumChar_of_isDigit (isDigit_of_mem_natText hc)
  | negSucc n =>
    rcases List.mem_cons.mp hc with rfl | hc
    · decide
    · exact isNumChar_of_isDigit (isDigit_of_mem_natText hc)

/-- A numeral is neither white space nor the start of another kind of value. -/
theorem isNumChar_kind {c : Char} (h : isNumChar c = true) :
    isWs c = false ∧ c ≠ '{' ∧ c ≠ '[' ∧ c ≠ '"' ∧ c ≠ 't' ∧ c ≠ 'f' ∧ c ≠ 'n' ∧ c ≠ '}' ∧
      c ≠ ']' ∧ c.toNat ≠ 0xEF := by
  refine ⟨?_, ?_, ?_, ?_, ?_, ?_, ?_, ?_, ?_, ?_⟩
  · by_contra hw
    simp only [isWs, Bool.not_eq_false, Bool.or_eq_true, beq_iff_eq] at hw
    rcases hw with ((rfl | rfl) | rfl) | rfl <;> exact absurd h (by decide)
  case refine_10 =>
    intro hc
    obtain rfl : c = Char.ofNat 0xEF := char_eq_of_toNat hc
    exact absurd h (by decide)
  all_goals
    rintro rfl
    exact absurd h (by decide)

theorem parseValue_number {t : Str} (hne : t ≠ []) (hall : ∀ c ∈ t, isNumChar c = true)
    {j : Json} (hv : numberValue t = some j) (n : ℕ) {r : Str} (hr : Delimited r) :
    parseValue (n + 1) (t ++ r) = some (j, r) := by
  obtain ⟨c, cs, rfl⟩ := List.exists_cons_of_ne_nil hne
  obtain ⟨hws, h1, h2, h3, h4, h5, h6, -, -, -⟩ := isNumChar_kind (hall c (by simp))
  have hskip : skipWs (c :: cs ++ r) = c :: (cs ++ r) := by simp [skipWs, hws]
  have hscan : scanNumber (c :: (cs ++ r)) = some (j, r) := by
    rw [scanNumber, ← List.cons_append, takeWhile_append_stop hall hr,
      dropWhile_append_stop hall hr, hv]
    rfl
  rw [parseValue, hskip]
  simp only [h1, h2, h3, h4, h5, h6, if_false, hscan]

theorem dumpText_ne_nil (j : Json) : dumpText j ≠ [] := by
  match j with
  | .null | .bool true | .bool false => simp [dumpText]
  | .int i => simpa [dumpText] using intText_ne_nil i.val
  | .float (.finite x) => simpa [dumpText, dumpDouble] using x.text_ne_nil
  | .float .nonfinite => simp [dumpText, dumpDouble]
  | .str s => simp [dumpText, dumpStr]
  | .arr [] | .arr (_ :: _) | .obj [] | .obj (_ :: _) => simp [dumpText]

/-- A printed value starts with neither white space, a closing bracket nor a byte-order mark. -/
theorem dumpText_head {j : Json} {c : Char} {cs : Str} (h : dumpText j = c :: cs) :
    isWs c = false ∧ c ≠ ']' ∧ c ≠ '}' ∧ c.toNat ≠ 0xEF := by
  have hnum : ∀ t : Str, (∀ d ∈ t, isNumChar d = true) → t = c :: cs →
      isWs c = false ∧ c ≠ ']' ∧ c ≠ '}' ∧ c.toNat ≠ 0xEF := by
    rintro t ht rfl
    obtain ⟨hws, -, -, -, -, -, -, h7, h8, h9⟩ := isNumChar_kind (ht c (by simp))
    exact ⟨hws, h8, h7, h9⟩
  match j with
  | .null | .bool true | .bool false | .float .nonfinite =>
    simp [dumpText, dumpDouble] at h
    rw [← h.1]
    decide
  | .int i => exact hnum _ (isNumChar_intText i.val) (by simpa [dumpText] using h)
  | .float (.finite x) => exact hnum _ x.isNumChar_text (by simpa [dumpText, dumpDouble] using h)
  | .str s =>
    simp [dumpText, dumpStr] at h
    rw [← h.1]
    decide
  | .arr [] | .arr (_ :: _) | .obj [] | .obj (_ :: _) =>
    simp [dumpText] at h
    rw [← h.1]
    decide

theorem skipWs_dumpText (j : Json) (r : Str) : skipWs (dumpText j ++ r) = dumpText j ++ r := by
  cases h : dumpText j with
  | nil => exact absurd h (dumpText_ne_nil j)
  | cons c cs => simp [skipWs, (dumpText_head h).1]

mutual
/-- A printed value parses back to itself and leaves what follows it. -/
theorem parseValue_dumpText : ∀ (j : Json) (n : ℕ) (r : Str), exactOk j = true →
    (dumpText j).length ≤ n → Delimited r → parseValue n (dumpText j ++ r) = some (j, r)
  | .null, n + 1, r, _, _, _ => by simp [dumpText, parseValue, skipWs, isWs, scanLiteral]
  | .bool true, n + 1, r, _, _, _ => by simp [dumpText, parseValue, skipWs, isWs, scanLiteral]
  | .bool false, n + 1, r, _, _, _ => by simp [dumpText, parseValue, skipWs, isWs, scanLiteral]
  | .int i, n + 1, r, _, _, hr =>
    parseValue_number (intText_ne_nil i.val) (isNumChar_intText i.val) (numberValue_intText i) n hr
  | .float (.finite x), n + 1, r, _, _, hr =>
    parseValue_number x.text_ne_nil x.isNumChar_text (numberValue_float x) n hr
  | .float .nonfinite, _, _, h, _, _ => by simp [exactOk, allLeaves, Double.isFinite] at h
  | .str s, n + 1, r, h, _, _ => by
    have hs : validUtf8 s = true := by simpa [exactOk, allLeaves] using h
    have hscan := scanStr_escape (u := .accept) hs r
    simp [dumpText, dumpStr, parseValue, skipWs, isWs, hscan]
  | .arr [], n + 1, r, _, _, _ => by simp [dumpText, parseValue, skipWs, isWs]
  | .arr (x :: xs), n + 1, r, h, hn, _ => by
    simp only [exactOk, allLeaves, allElems, Bool.and_eq_true] at h
    simp only [dumpText, List.length_cons, List.length_append] at hn
    have helems := parseElems_dumpText x xs n r h.1 h.2 (by simp only [List.length_append]; omega)
    cases hx : dumpText x with
    | nil => exact absurd hx (dumpText_ne_nil x)
    | cons c cs =>
      have hsk := skipWs_dumpText x (dumpElems xs ++ r)
      obtain ⟨-, hbr, -, -⟩ := dumpText_head hx
      rw [hx] at helems hsk
      simp only [List.append_assoc] at helems
      have htop : skipWs ('[' :: (c :: cs ++ (dumpElems xs ++ r))) =
          '[' :: (c :: cs ++ (dumpElems xs ++ r)) := by simp [skipWs, isWs]
      simp only [dumpText, hx, List.cons_append, List.append_assoc] at htop hsk helems ⊢
      simp only [parseValue, htop, hsk]
      simp [hbr, helems]
  | .obj [], n + 1, r, _, _, _ => by simp [dumpText, parseValue, skipWs, isWs]
  | .obj ((k, v) :: fs), n + 1, r, h, hn, _ => by
    simp only [exactOk, allLeaves, allMembers, Bool.and_eq_true] at h
    simp only [dumpText, dumpStr, List.length_cons, List.length_append] at hn
    have hmem := parseMembers_dumpText k v fs n r h.1.1 h.1.2 h.2
      (by simp only [dumpStr, List.length_cons, List.length_append]; omega)
    have htop : ∀ t, skipWs ('{' :: t) = '{' :: t := by intro t; simp [skipWs, isWs]
    have hquote : ∀ t, skipWs ('"' :: t) = '"' :: t := by intro t; simp [skipWs, isWs]
    simp only [dumpText, dumpStr, List.cons_append, List.append_assoc, List.nil_append] at hmem ⊢
    simp only [parseValue, htop, hquote]
    simp [hmem]
  | .null, 0, _, _, h, _ | .bool true, 0, _, _, h, _ | .bool false, 0, _, _, h, _
  | .str _, 0, _, _, h, _ | .arr [], 0, _, _, h, _ | .arr (_ :: _), 0, _, _, h, _
  | .obj [], 0, _, _, h, _ | .obj (_ :: _), 0, _, _, h, _ => by simp [dumpText, dumpStr] at h
  | .int i, 0, _, _, h, _ => by simp [dumpText, intText_ne_nil] at h
  | .float (.finite x), 0, _, _, h, _ => by simp [dumpText, dumpDouble, x.text_ne_nil] at h
theorem parseElems_dumpText : ∀ (x : Json) (xs : List Json) (n : ℕ) (r : Str),
    allLeaves validUtf8 Double.isFinite x = true → allElems validUtf8 Double.isFinite xs = true →
    (dumpText x ++ dumpElems xs).length ≤ n →
    parseElems n (dumpText x ++ dumpElems xs ++ r) = some (x :: xs, r)
  | x, [], n + 1, r, hx, _, hn => by
    simp only [dumpElems, List.length_append, List.length_cons, List.length_nil] at hn
    have hv := parseValue_dumpText x n (']' :: r) hx (by omega) (delimited_cons (by decide))
    simp [parseElems, dumpElems, hv, skipWs, isWs]
  | x, y :: ys, n + 1, r, hx, hys, hn => by
    simp only [allElems, Bool.and_eq_true] at hys
    simp only [dumpElems, List.length_append, List.length_cons] at hn
    have hv := parseValue_dumpText x n (',' :: (dumpText y ++ dumpElems ys ++ r)) hx (by omega)
      (delimited_cons (by decide))
    have hrest := parseElems_dumpText y ys n r hys.1 hys.2 (by simp only [List.length_append]; omega)
    simp only [dumpElems, List.append_assoc, List.cons_append] at hv hrest ⊢
    have hcomma : ∀ t, skipWs (',' :: t) = ',' :: t := by intro t; simp [skipWs, isWs]
    simp only [parseElems, hv, hcomma, hrest]
    simp
  | x, [], 0, _, _, _, hn | x, _ :: _, 0, _, _, _, hn => by simp [dumpText_ne_nil] at hn
theorem parseMembers_dumpText : ∀ (k : Str) (v : Json) (fs : List (Str × Json)) (n : ℕ) (r : Str),
    validUtf8 k = true → allLeaves validUtf8 Double.isFinite v = true →
    allMembers validUtf8 Double.isFinite fs = true →
    (dumpStr k ++ ':' :: (dumpText v ++ dumpMembers fs)).length ≤ n →
    parseMembers n (dumpStr k ++ ':' :: (dumpText v ++ dumpMembers fs) ++ r) = some ((k, v) :: fs, r)
  | k, v, [], n + 1, r, hk, hv, _, hn => by
    simp only [dumpStr, dumpMembers, List.length_append, List.length_cons, List.length_nil] at hn
    have hval := parseValue_dumpText v n ('}' :: r) hv (by omega) (delimited_cons (by decide))
    have hscan := scanStr_escape (u := .accept) hk (':' :: (dumpText v ++ '}' :: r))
    have hquote : ∀ t, skipWs ('"' :: t) = '"' :: t := by intro t; simp [skipWs, isWs]
    have hcolon : ∀ t, skipWs (':' :: t) = ':' :: t := by intro t; simp [skipWs, isWs]
    have hbrace : skipWs ('}' :: r) = '}' :: r := by simp [skipWs, isWs]
    simp only [dumpStr, dumpMembers, List.cons_append, List.append_assoc, List.nil_append] at hscan ⊢
    simp only [parseMembers, hquote, hscan, hcolon, hval, hbrace]
  | k, v, (k', v') :: fs, n + 1, r, hk, hv, hfs, hn => by
    simp only [allMembers, Bool.and_eq_true] at hfs
    simp only [dumpStr, dumpMembers, List.length_append, List.length_cons, List.length_nil] at hn
    have hrest := parseMembers_dumpText k' v' fs n r hfs.1.1 hfs.1.2 hfs.2
      (by simp only [dumpStr, List.length_append, List.length_cons, List.length_nil]; omega)
    have hval := parseValue_dumpText v n
      (',' :: (dumpStr k' ++ ':' :: (dumpText v' ++ dumpMembers fs) ++ r)) hv (by omega)
      (delimited_cons (by decide))
    have hscan := scanStr_escape (u := .accept) hk
      (':' :: (dumpText v ++ ',' :: (dumpStr k' ++ ':' :: (dumpText v' ++ dumpMembers fs) ++ r)))
    have hquote : ∀ t, skipWs ('"' :: t) = '"' :: t := by intro t; simp [skipWs, isWs]
    have hcolon : ∀ t, skipWs (':' :: t) = ':' :: t := by intro t; simp [skipWs, isWs]
    have hcomma : ∀ t, skipWs (',' :: t) = ',' :: t := by intro t; simp [skipWs, isWs]
    simp only [dumpStr, dumpMembers, List.cons_append, List.append_assoc, List.nil_append]
      at hscan hval hrest ⊢
    simp only [parseMembers, hquote, hscan, hcolon, hval, hcomma, hrest]
    simp
  | k, v, [], 0, _, _, _, _, hn | k, v, _ :: _, 0, _, _, _, _, hn => by simp [dumpStr] at hn
end

theorem dropBom_dumpText (j : Json) : dropBom (dumpText j) = some (dumpText j) := by
  cases h : dumpText j with
  | nil => rfl
  | cons c cs =>
    obtain ⟨-, -, -, hbom⟩ := dumpText_head h
    simp only [dropBom, hbom, if_false]

/-- Parsing gives back every value that printing keeps exactly. -/
theorem parse_dumpText {j : Json} (h : exactOk j = true) : parse (dumpText j) = some j := by
  have hv := parseValue_dumpText j ((dumpText j).length + 1) [] h (by omega) delimited_nil
  rw [List.append_nil] at hv
  simp only [parse, dropBom_dumpText, hv, skipWs, List.dropWhile_nil]

mutual
def readBack (j : Json) : Json :=
  match j with
  | .float .nonfinite => .null
  | .arr xs => .arr (readBackElems xs)
  | .obj fs => .obj (readBackMembers fs)
  | j => j
def readBackElems (xs : List Json) : List Json :=
  match xs with
  | [] => []
  | x :: xs => readBack x :: readBackElems xs
def readBackMembers (fs : List (Str × Json)) : List (Str × Json) :=
  match fs with
  | [] => []
  | (k, v) :: fs => (k, readBack v) :: readBackMembers fs
end

theorem readBackElems_eq_map (xs : List Json) : readBackElems xs = xs.map readBack := by
  induction xs with
  | nil => rfl
  | cons x xs ih => rw [readBackElems, ih, List.map_cons]

mutual
theorem dumpText_readBack : ∀ j, dumpText (readBack j) = dumpText j
  | .null | .bool _ | .int _ | .float (.finite _) | .str _ => rfl
  | .float .nonfinite => rfl
  | .arr [] => rfl
  | .arr (x :: xs) => by
    simp only [readBack, readBackElems, dumpText, dumpText_readBack x, dumpElems_readBack xs]
  | .obj [] => rfl
  | .obj ((k, v) :: fs) => by
    simp only [readBack, readBackMembers, dumpText, dumpText_readBack v, dumpMembers_readBack fs]
theorem dumpElems_readBack : ∀ xs, dumpElems (readBackElems xs) = dumpElems xs
  | [] => rfl
  | x :: xs => by
    simp only [readBackElems, dumpElems, dumpText_readBack x, dumpElems_readBack xs]
theorem dumpMembers_readBack : ∀ fs, dumpMembers (readBackMembers fs) = dumpMembers fs
  | [] => rfl
  | (k, v) :: fs => by
    simp only [readBackMembers, dumpMembers, dumpText_readBack v, dumpMembers_readBack fs]
end

mutual
theorem exactOk_readBack : ∀ j, utf8Ok j = true → exactOk (readBack j) = true
  | .null, _ | .bool _, _ | .int _, _ | .float (.finite _), _ | .float .nonfinite, _ => rfl
  | .str _, h => h
  | .arr xs, h => exactOk_readBackElems xs h
  | .obj fs, h => exactOk_readBackMembers fs h
theorem exactOk_readBackElems : ∀ xs, allElems validUtf8 (fun _ => true) xs = true →
    allElems validUtf8 Double.isFinite (readBackElems xs) = true
  | [], _ => rfl
  | x :: xs, h => by
    simp only [allElems, Bool.and_eq_true] at h
    simp only [readBackElems, allElems, Bool.and_eq_true]
    exact ⟨exactOk_readBack x h.1, exactOk_readBackElems xs h.2⟩
theorem exactOk_readBackMembers : ∀ fs, allMembers validUtf8 (fun _ => true) fs = true →
    allMembers validUtf8 Double.isFinite (readBackMembers fs) = true
  | [], _ => rfl
  | (k, v) :: fs, h => by
    simp only [allMembers, Bool.and_eq_true] at h
    simp only [readBackMembers, allMembers, Bool.and_eq_true]
    exact ⟨⟨h.1.1, exactOk_readBack v h.1.2⟩, exactOk_readBackMembers fs h.2⟩
end

mutual
theorem utf8Ok_of_exactOk : ∀ j, exactOk j = true → utf8Ok j = true
  | .null, _ | .bool _, _ | .int _, _ | .float _, _ => rfl
  | .str _, h => h
  | .arr xs, h => utf8Ok_of_exactOkElems xs h
  | .obj fs, h => utf8Ok_of_exactOkMembers fs h
theorem utf8Ok_of_exactOkElems : ∀ xs, allElems validUtf8 Double.isFinite xs = true →
    allElems validUtf8 (fun _ => true) xs = true
  | [], _ => rfl
  | x :: xs, h => by
    simp only [allElems, Bool.and_eq_true] at h ⊢
    exact ⟨utf8Ok_of_exactOk x h.1, utf8Ok_of_exactOkElems xs h.2⟩
theorem utf8Ok_of_exactOkMembers : ∀ fs, allMembers validUtf8 Double.isFinite fs = true →
    allMembers validUtf8 (fun _ => true) fs = true
  | [], _ => rfl
  | (k, v) :: fs, h => by
    simp only [allMembers, Bool.and_eq_true] at h ⊢
    exact ⟨⟨h.1.1, utf8Ok_of_exactOk v h.1.2⟩, utf8Ok_of_exactOkMembers fs h.2⟩
end

theorem allElems_eq_all (onStr : Str → Bool) (onDouble : Double → Bool) (xs : List Json) :
    allElems onStr onDouble xs = xs.all (allLeaves onStr onDouble) := by
  induction xs with
  | nil => rfl
  | cons x xs ih => rw [allElems, List.all_cons, ih]

/-- An exact value is printed, and parsed as it was. -/
theorem dump_of_exactOk {j : Json} (h : exactOk j = true) :
    dump j = some (dumpText j) ∧ parse (dumpText j) = some j :=
  ⟨if_pos (utf8Ok_of_exactOk j h), parse_dumpText h⟩

/-- What was printed parses, to the value read back. -/
theorem parse_of_dump {j : Json} {text : Str} (h : dump j = some text) :
    parse text = some (readBack j) := by
  obtain ⟨hu, rfl⟩ := dump_eq_some h
  rw [← dumpText_readBack]
  exact parse_dumpText (exactOk_readBack j hu)

end TextCodec
