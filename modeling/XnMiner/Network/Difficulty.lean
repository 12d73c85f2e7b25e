import XnMiner.Queue.Codec
import XnMiner.Mining.Argon2Encode
import XnMiner.Text.JsonRoundTrip
import XnMiner.Lists.Trim

/-! # The body of a difficulty answer

The body is read by `std::stoi`, which is content with a number at the start, and only where
that throws as a JSON document.
-/
namespace XnMiner
open TextCodec ListTrim

def splitSign (s : Str) : ℤ × Str :=
  match s with
  | '-' :: r => (-1, r)
  | '+' :: r => (1, r)
  | r => (1, r)

/-- `std::stoi(s, &idx)`: the value and the text from `idx` on; `none` where it throws. -/
def stoiPrefix (s : Str) : Option (ℤ × Str) :=
  let (sign, r) := splitSign (s.dropWhile isSpace)
  let digits := r.takeWhile Char.isDigit
  let d := sign * readNat digits
  if digits = [] then none
  else if fitsInt d then some (d, r.dropWhile Char.isDigit) else none

/-- `is_number_integer()`; a numeral that 64 bits do not hold is read as a double. -/
def isNumberInteger (j : Json) : Bool :=
  match j with
  | .int i => decide (-2 ^ 63 ≤ i.val) && decide (i.val < 2 ^ 64)
  | _ => false

def isString (j : Json) : Bool :=
  match j with
  | .str _ => true
  | _ => false

def readNumber (v : Json) : Option ℤ :=
  if isNumberInteger v then getInt toInt32 v
  else match v with
    | .str s => (stoiPrefix s).map Prod.fst
    | _ => none

def parseDifficultyBody (body : Str) : Option ℤ :=
  let body := trim body
  if body = [] then none
  else match stoiPrefix body with
    | some (d, _) => some d
    | none => match parse body with
      | none => none
      | some j => match member j "difficulty".toList with
        | some v => if isNumberInteger v || isString v then readNumber v else readNumber j
        | none => readNumber j

/-- A sign and digits, and nothing else. -/
def decimalValue (s : Str) : Option ℤ :=
  if digitRun (splitSign s).2 then some ((splitSign s).1 * readNat (splitSign s).2) else none

/-- A JSON document does not go on behind a zero byte. -/
def jsonDocument (s : Str) : Option Json := if Char.ofNat 0 ∈ s then none else parse s

def isDifficulty (j : Json) (d : ℤ) : Prop :=
  (∃ i, j = .int i ∧ i.val = d) ∨ ∃ s, j = .str s ∧ decimalValue s = some d

/-- What the body says: a numeral, a JSON number or string, or an object with one of these. -/
def saysDifficulty (body : Str) (d : ℤ) : Prop :=
  fitsInt d ∧ (decimalValue (trim body) = some d ∨ ∃ j, jsonDocument (trim body) = some j ∧
    (isDifficulty j d ∨ ∃ v, member j "difficulty".toList = some v ∧ isDifficulty v d))

theorem isSpace_of_isWs {c : Char} (h : isWs c = true) : isSpace c = true := by
  simp only [isWs, Bool.or_eq_true, beq_iff_eq] at h
  rcases h with ((rfl | rfl) | rfl) | rfl <;> decide

theorem not_isSpace_of_isDigit {c : Char} (h : c.isDigit = true) : isSpace c = false := by
  have hrange : 48 ≤ c.toNat := by
    simp only [Char.isDigit, Bool.and_eq_true, decide_eq_true_eq] at h
    exact h.1
  have hblank : c ≠ ' ' := by
    rintro rfl
    exact absurd hrange (by decide)
  simp only [isSpace, hblank, decide_false, Bool.false_or, Bool.and_eq_false_iff, decide_eq_false_iff_not]
  omega

theorem splitSign_cases (s : Str) : (∃ r, s = '-' :: r ∧ splitSign s = (-1, r)) ∨
    (∃ r, s = '+' :: r ∧ splitSign s = (1, r)) ∨
      (s.head? ≠ some '-' ∧ s.head? ≠ some '+' ∧ splitSign s = (1, s)) := by
  unfold splitSign
  split
  · exact .inl ⟨_, rfl, rfl⟩
  · exact .inr (.inl ⟨_, rfl, rfl⟩)
  · next hminus hplus =>
    refine .inr (.inr ⟨fun h => ?_, fun h => ?_, rfl⟩)
    · obtain ⟨r, rfl⟩ := List.head?_eq_some_iff.mp h
      exact hminus r rfl
    · obtain ⟨r, rfl⟩ := List.head?_eq_some_iff.mp h
      exact hplus r rfl

/-- A text that a number is read from at once starts with a sign or a digit. -/
theorem head_of_digits {s : Str} (h : (splitSign s).2.takeWhile Char.isDigit ≠ []) :
    ∃ c cs, s = c :: cs ∧ (c = '-' ∨ c = '+' ∨ c.isDigit = true) := by
  rcases splitSign_cases s with ⟨r, rfl, -⟩ | ⟨r, rfl, -⟩ | ⟨-, -, hs⟩
  · exact ⟨_, r, rfl, .inl rfl⟩
  · exact ⟨_, r, rfl, .inr (.inl rfl)⟩
  · rw [hs] at h
    cases s with
    | nil => exact absurd rfl h
    | cons c cs =>
      refine ⟨c, cs, rfl, .inr (.inr ?_)⟩
      by_contra hc
      exact h (List.takeWhile_cons_of_neg hc)

theorem digitRun_iff {s : Str} : digitRun s = true ↔ s ≠ [] ∧ ∀ c ∈ s, c.isDigit = true := by
  simp [digitRun, List.all_eq_true]

/-- A numeral is read as a whole, if its value fits. -/
theorem stoiPrefix_of_decimal {s : Str} {d : ℤ} (h : decimalValue s = some d) :
    stoiPrefix s = if fitsInt d then some (d, []) else none := by
  unfold decimalValue at h
  split_ifs at h with hrun
  obtain ⟨hne, hdigits⟩ := digitRun_iff.mp hrun
  have htake : (splitSign s).2.takeWhile Char.isDigit = (splitSign s).2 := by
    have := takeWhile_append_stop (r := []) hdigits (by simp)
    rwa [List.append_nil] at this
  have hdrop : (splitSign s).2.dropWhile Char.isDigit = [] := by
    have := dropWhile_append_stop (r := []) hdigits (by simp)
    rwa [List.append_nil] at this
  have hspace : s.dropWhile isSpace = s := by
    obtain ⟨c, cs, rfl, hc⟩ := head_of_digits (htake ▸ hne)
    refine List.dropWhile_cons_of_neg ?_
    rw [Bool.not_eq_true]
    rcases hc with rfl | rfl | hc
    · decide
    · decide
    · exact not_isSpace_of_isDigit hc
  unfold stoiPrefix
  rw [hspace]
  dsimp only
  rw [htake, hdrop, if_neg hne, Option.some.inj h]

def readsWhole (s : Str) : Prop := stoiPrefix s ≠ none → decimalValue s ≠ none

theorem stoi_exact_iff (s : Str) : (∀ d, (stoiPrefix s).map Prod.fst = some d ↔
    fitsInt d ∧ decimalValue s = some d) ↔ readsWhole s := by
  unfold readsWhole
  cases hs : decimalValue s with
  | none =>
    cases stoiPrefix s with
    | none => simp
    | some q =>
      refine iff_of_false (fun h => ?_) (fun h => h (by simp) rfl)
      exact absurd ((h q.1).mp rfl).2 (by simp)
  | some d =>
    refine iff_of_true (fun e => ?_) (by simp)
    rw [stoiPrefix_of_decimal hs]
    split_ifs with hfits
    · simp only [Option.map_some, Option.some.injEq]
      exact ⟨fun h => ⟨h ▸ hfits, h⟩, fun h => h.2⟩
    · simp only [Option.map_none, Option.some.injEq]
      refine iff_of_false (by simp) ?_
      rintro ⟨he, rfl⟩
      exact hfits he

def difficultyMember (j : Json) : Json := (member j "difficulty".toList).getD j

theorem readNumber_member (j : Json) :
    (match member j "difficulty".toList with
      | some v => if isNumberInteger v || isString v then readNumber v else readNumber j
      | none => readNumber j) = readNumber (difficultyMember j) := by
  unfold difficultyMember
  cases hm : member j "difficulty".toList with
  | none => rfl
  | some v =>
    -- only an object has members, and no number is read from an object
    obtain ⟨fs, rfl⟩ : ∃ fs, j = .obj fs := by
      cases j with
      | obj fs => exact ⟨fs, rfl⟩
      | _ => cases hm
    have hnone : readNumber (.obj fs) = none := rfl
    dsimp only [Option.getD_some]
    split_ifs with hread
    · rfl
    · simp only [Bool.or_eq_true, not_or, Bool.not_eq_true] at hread
      rw [hnone]
      cases v with
      | int i => exact (if_neg (by simp [hread.1])).symm
      | str s => cases hread.2
      | _ => rfl

theorem isDifficulty_member (j : Json) (d : ℤ) :
    (isDifficulty j d ∨ ∃ v, member j "difficulty".toList = some v ∧ isDifficulty v d) ↔
      isDifficulty (difficultyMember j) d := by
  unfold difficultyMember
  cases hm : member j "difficulty".toList with
  | none => simp
  | some v =>
    have hj : ¬ isDifficulty j d := by
      rintro (⟨i, rfl, -⟩ | ⟨s, rfl, -⟩) <;> cases hm
    simp [hj]

def readExactly (v : Json) : Prop :=
  match v with
  | .int i => isNumberInteger (.int i) = true → fitsInt i.val
  | .str s => readsWhole s
  | _ => True

def isReadable (v : Json) : Prop :=
  isNumberInteger v = true ∨ ∃ s, v = .str s ∧ stoiPrefix s ≠ none

theorem readNumber_ne_none_iff {v : Json} : readNumber v ≠ none ↔ isReadable v := by
  unfold isReadable
  cases v with
  | int i =>
    by_cases hnumber : isNumberInteger (.int i) = true
    · have hread : readNumber (.int i) = some (toInt32 i.val) := if_pos hnumber
      simp [hread, hnumber]
    · have hread : readNumber (.int i) = none := if_neg hnumber
      simp [hread, hnumber]
  | str s =>
    have hread : readNumber (.str s) = (stoiPrefix s).map Prod.fst := rfl
    simp [hread, isNumberInteger]
  | _ => simp [readNumber, isNumberInteger]

theorem readExactly_of_not_readable {v : Json} (h : ¬ isReadable v) : readExactly v := by
  unfold isReadable at h
  rw [not_or] at h
  cases v with
  | int i => exact fun hnumber => absurd hnumber h.1
  | str s => exact fun hread => absurd ⟨s, rfl, hread⟩ h.2
  | _ => trivial

theorem isDifficulty_int {i : JsonInt} {d : ℤ} : isDifficulty (.int i) d ↔ i.val = d := by
  simp [isDifficulty]

theorem isDifficulty_str {s : Str} {d : ℤ} : isDifficulty (.str s) d ↔ decimalValue s = some d := by
  simp [isDifficulty]

/-- A number is read from the value exactly as the format has it. -/
theorem readNumber_exact_iff (v : Json) :
    (∀ d, readNumber v = some d ↔ fitsInt d ∧ isDifficulty v d) ↔ readExactly v := by
  cases v with
  | int i =>
    unfold readExactly
    by_cases hnumber : isNumberInteger (.int i) = true
    · have hread : readNumber (.int i) = some (toInt32 i.val) := if_pos hnumber
      simp only [hread, hnumber, true_imp_iff, Option.some.injEq, isDifficulty_int]
      constructor
      · intro h
        obtain ⟨-, hsame⟩ := (h (toInt32 i.val)).mp rfl
        exact hsame ▸ fitsInt_toInt32 i.val
      · intro hfits d
        rw [toInt32_eq_iff.mpr hfits]
        exact ⟨fun h => ⟨h ▸ hfits, h⟩, fun h => h.2⟩
    · have hread : readNumber (.int i) = none := if_neg hnumber
      refine iff_of_true (fun d => ?_) (fun h => absurd h hnumber)
      rw [hread, isDifficulty_int]
      refine iff_of_false (by simp) ?_
      rintro ⟨⟨hmin, hmax⟩, hd⟩
      refine hnumber ?_
      simp only [isNumberInteger, Bool.and_eq_true, decide_eq_true_eq]
      omega
  | str s =>
    have hread : readNumber (.str s) = (stoiPrefix s).map Prod.fst := rfl
    simp only [hread, isDifficulty_str, readExactly]
    exact stoi_exact_iff s
  | _ =>
    refine iff_of_true (fun d => iff_of_false ?_ ?_) trivial
    · simp [readNumber, isNumberInteger]
    · simp [isDifficulty]

theorem decimalValue_of_intToken {t : Str} (h : isIntToken t = true) :
    decimalValue t = some (readInt t) := by
  unfold isIntToken isIntPart at h
  simp only [Bool.and_eq_true, Bool.not_eq_true', List.isEmpty_eq_false_iff] at h
  obtain ⟨⟨hdigits, hne⟩, -⟩ := h
  rw [List.all_eq_true] at hdigits
  unfold decimalValue
  rcases splitSign_cases t with ⟨r, rfl, hs⟩ | ⟨r, rfl, -⟩ | ⟨hminus, -, hs⟩
  · have hrun : digitRun r = true := digitRun_iff.mpr ⟨hne, hdigits⟩
    rw [hs, if_pos hrun, neg_one_mul]
    rfl
  · exact absurd (hdigits '+' List.mem_cons_self) (by decide)
  · have hstrip : stripMinus t = t := by
      unfold stripMinus
      split
      · exact absurd rfl hminus
      · rfl
    rw [hstrip] at hne hdigits
    rw [hs, if_pos (digitRun_iff.mpr ⟨hne, hdigits⟩), one_mul, readInt_of_digits hdigits]

/-- A trimmed document that `std::stoi` accepts the start of is an integer's numeral or a double. -/
theorem jsonDocument_number {t : Str} {j : Json} (hbare : Bare isSpace t)
    (hstoi : stoiPrefix t ≠ none) (hj : jsonDocument t = some j) :
    (∃ i, j = .int i ∧ decimalValue t = some i.val) ∨ ∃ x, j = .float x := by
  have hdigits : (splitSign t).2.takeWhile Char.isDigit ≠ [] := by
    intro hnone
    unfold stoiPrefix at hstoi
    rw [hbare.dropWhile] at hstoi
    exact hstoi (if_pos hnone)
  obtain ⟨c, cs, rfl, hc⟩ := head_of_digits hdigits
  have hnum : isNumChar c = true := by
    rcases hc with rfl | rfl | hc
    · decide
    · decide
    · exact isNumChar_of_isDigit hc
  obtain ⟨hws, h1, h2, h3, h4, h5, h6, -, -, hbom⟩ := isNumChar_kind hnum
  unfold jsonDocument at hj
  split_ifs at hj with hzero
  have hskip : skipWs (c :: cs) = c :: cs := by simp [skipWs, hws]
  rw [parse, dropBom, if_neg hbom] at hj
  dsimp only at hj
  rw [parseValue, hskip] at hj
  simp only [h1, h2, h3, h4, h5, h6, if_false, scanNumber] at hj
  set token := (c :: cs).takeWhile isNumChar with htoken
  set rest := (c :: cs).dropWhile isNumChar with hrest
  cases hv : numberValue token with
  | none =>
    rw [hv] at hj
    cases hj
  | some v =>
    rw [hv] at hj
    simp only [Option.map_some] at hj
    have hwhole : skipWs rest = [] ∧ v = j := by
      cases hend : skipWs rest with
      | nil =>
        rw [hend] at hj
        exact ⟨rfl, Option.some.inj hj⟩
      | cons z zs =>
        rw [hend] at hj
        dsimp only at hj
        split_ifs at hj with hz
        have hmem : z ∈ c :: cs := by
          have hsuffix : z :: zs <:+ c :: cs := by
            rw [← hend]
            exact (List.dropWhile_suffix isWs).trans (List.dropWhile_suffix isNumChar)
          exact hsuffix.subset List.mem_cons_self
        obtain rfl : z = Char.ofNat 0 := char_eq_of_toNat hz
        exact absurd hmem hzero
    obtain ⟨hend, rfl⟩ := hwhole
    have hsplit : token ++ rest = c :: cs := List.takeWhile_append_dropWhile
    have hnil : rest = [] := by
      by_contra hne
      have hlast : rest.getLast hne ∈ (c :: cs).getLast? := by
        rw [← hsplit]
        exact List.mem_getLast?_append_of_mem_getLast? (List.getLast_mem_getLast? hne)
      have hspace := isSpace_of_isWs (List.dropWhile_eq_nil_iff.mp hend _ (List.getLast_mem hne))
      rw [hbare.2 _ hlast] at hspace
      cases hspace
    rw [hnil, List.append_nil] at hsplit
    rw [hsplit] at hv
    unfold numberValue at hv
    split_ifs at hv with hint hrange hfloat
    · obtain rfl := Option.some.inj hv
      exact .inl ⟨_, rfl, decimalValue_of_intToken hint⟩
    · obtain rfl := Option.some.inj hv
      exact .inr ⟨_, rfl⟩

theorem parseDifficultyBody_eq (body : Str) : parseDifficultyBody body =
    match stoiPrefix (trim body) with
    | some (d, _) => some d
    | none => (parse (trim body)).bind fun j => readNumber (difficultyMember j) := by
  unfold parseDifficultyBody
  dsimp only
  split_ifs with hempty
  · rw [hempty]
    decide
  · cases stoiPrefix (trim body) with
    | some q => rfl
    | none =>
      cases parse (trim body) with
      | none => rfl
      | some j => exact readNumber_member j

/-- A number that is read from a document is its own, and the document does not go on. -/
def documentExact (t : Str) : Prop :=
  ∀ j, parse t = some j → isReadable (difficultyMember j) →
    readExactly (difficultyMember j) ∧ Char.ofNat 0 ∉ t

/-- What is read from the body is what it says. -/
def bodyExact (body : Str) : Prop :=
  readsWhole (trim body) ∧ (stoiPrefix (trim body) = none → documentExact (trim body))

theorem saysDifficulty_iff (body : Str) (d : ℤ) : saysDifficulty body d ↔
    fitsInt d ∧ (decimalValue (trim body) = some d ∨
      ∃ j, jsonDocument (trim body) = some j ∧ isDifficulty (difficultyMember j) d) := by
  unfold saysDifficulty
  simp only [isDifficulty_member]

/-- A body that starts like a number says what is read if and only if it is a numeral. -/
theorem parseDifficultyBody_plain {body : Str} {q : ℤ × Str}
    (hstoi : stoiPrefix (trim body) = some q) :
    (∀ d, some q.1 = some d ↔ saysDifficulty body d) ↔ decimalValue (trim body) ≠ none := by
  have hbare : Bare isSpace (trim body) := bare_trimBy isSpace body
  have hsome : stoiPrefix (trim body) ≠ none := by simp [hstoi]
  -- a document that starts like a number says the value of its numeral, or nothing
  have hjson : ∀ j d, jsonDocument (trim body) = some j → isDifficulty (difficultyMember j) d →
      decimalValue (trim body) = some d := by
    intro j d hj hd
    rcases jsonDocument_number hbare hsome hj with ⟨i, rfl, hi⟩ | ⟨x, rfl⟩
    · rw [hi, isDifficulty_int.mp hd]
    · rcases hd with ⟨i, hd, -⟩ | ⟨s, hd, -⟩ <;> cases hd
  constructor
  · intro h
    obtain ⟨-, hliteral | ⟨j, hj, hd⟩⟩ := (saysDifficulty_iff body q.1).mp ((h q.1).mp rfl)
    · simp [hliteral]
    · simp [hjson j q.1 hj hd]
  · intro hne d
    obtain ⟨i, hi⟩ := Option.ne_none_iff_exists'.mp hne
    have hread := stoiPrefix_of_decimal hi
    rw [hstoi] at hread
    split_ifs at hread with hfits
    obtain rfl := Option.some.inj hread
    rw [saysDifficulty_iff]
    constructor
    · rintro ⟨⟩
      exact ⟨hfits, .inl hi⟩
    · rintro ⟨-, hliteral | ⟨j, hj, hd⟩⟩
      · exact hi.symm.trans hliteral
      · exact hi.symm.trans (hjson j d hj hd)

/-- A body that `std::stoi` refuses says what its document says. -/
theorem parseDifficultyBody_document {body : Str} (hstoi : stoiPrefix (trim body) = none) :
    (∀ d, ((parse (trim body)).bind fun j => readNumber (difficultyMember j)) = some d ↔
      saysDifficulty body d) ↔ documentExact (trim body) := by
  have hnumeral : ∀ d, fitsInt d → decimalValue (trim body) ≠ some d := by
    intro d hfits hd
    have hread := stoiPrefix_of_decimal hd
    rw [hstoi, if_pos hfits] at hread
    cases hread
  have hmeant : ∀ d, saysDifficulty body d ↔ ∃ j, jsonDocument (trim body) = some j ∧
      fitsInt d ∧ isDifficulty (difficultyMember j) d := by
    intro d
    rw [saysDifficulty_iff]
    constructor
    · rintro ⟨hfits, hd | ⟨j, hj, hd⟩⟩
      · exact absurd hd (hnumeral d hfits)
      · exact ⟨j, hj, hfits, hd⟩
    · rintro ⟨j, hj, hfits, hd⟩
      exact ⟨hfits, .inr ⟨j, hj, hd⟩⟩
  unfold documentExact
  cases hj : parse (trim body) with
  | none =>
    refine iff_of_true (fun d => iff_of_false (by simp) fun h => ?_) (by simp)
    obtain ⟨j, hdoc, -⟩ := (hmeant d).mp h
    unfold jsonDocument at hdoc
    split_ifs at hdoc
    rw [hj] at hdoc
    cases hdoc
  | some j =>
    simp only [Option.bind_some, Option.some.injEq, forall_eq']
    by_cases hzero : Char.ofNat 0 ∈ trim body
    · have hnothing : ∀ d, ¬ saysDifficulty body d := fun d h => by
        obtain ⟨j', hdoc, -⟩ := (hmeant d).mp h
        rw [jsonDocument, if_pos hzero] at hdoc
        cases hdoc
      simp only [hnothing, iff_false, hzero, not_true_eq_false, and_false, imp_false]
      rw [← readNumber_ne_none_iff, not_not, Option.eq_none_iff_forall_ne_some]
    · have hdoc : jsonDocument (trim body) = some j := (if_neg hzero).trans hj
      have hmeant' : ∀ d, saysDifficulty body d ↔
          fitsInt d ∧ isDifficulty (difficultyMember j) d := by
        intro d
        rw [hmeant, hdoc]
        simp
      simp only [hmeant', hzero, not_false_eq_true, and_true]
      rw [readNumber_exact_iff]
      exact ⟨fun h _ => h, fun h => by_cases h readExactly_of_not_readable⟩

/-- The body is accepted with exactly the difficulty it says if and only if what is read from it
is a whole numeral or an integer of 32 bits. -/
theorem parseDifficultyBody_exact_iff (body : Str) :
    (∀ d, parseDifficultyBody body = some d ↔ saysDifficulty body d) ↔ bodyExact body := by
  rw [parseDifficultyBody_eq]
  unfold bodyExact readsWhole
  cases hstoi : stoiPrefix (trim body) with
  | some q =>
    simp only [ne_eq, reduceCtorEq, not_false_eq_true, true_imp_iff, false_imp_iff, and_true]
    exact parseDifficultyBody_plain hstoi
  | none =>
    simp only [ne_eq, not_true_eq_false, false_imp_iff, true_imp_iff, true_and]
    exact parseDifficultyBody_document hstoi

/-- Ten thousand is read as ten, and an integer of 33 bits as one. -/
theorem parseDifficultyBody_truncates :
    (parseDifficultyBody "10,000".toList = some 10 ∧ ¬ saysDifficulty "10,000".toList 10) ∧
      parseDifficultyBody "4294967297".toList = some 1 ∧
        ¬ saysDifficulty "4294967297".toList 1 := by
  refine ⟨⟨by decide +kernel, ?_⟩, by decide +kernel, ?_⟩
  · rintro ⟨-, hnumeral | ⟨j, hj, -⟩⟩
    · exact absurd hnumeral (by decide +kernel)
    · have hnone : jsonDocument (trim "10,000".toList) = none :=
        Option.isNone_iff_eq_none.mp (by decide +kernel)
      rw [hnone] at hj
      cases hj
  · have htext : trim "4294967297".toList = dumpText (.ofInt 4294967297) := by decide +kernel
    have hdoc : jsonDocument (trim "4294967297".toList) = some (.ofInt 4294967297) := by
      rw [htext, jsonDocument, if_neg (by decide +kernel), parse_dumpText rfl]
    rw [saysDifficulty_iff]
    rintro ⟨-, hnumeral | ⟨j, hj, hd⟩⟩
    · exact absurd hnumeral (by decide +kernel)
    · obtain rfl : Json.ofInt 4294967297 = j := Option.some.inj (hdoc.symm.trans hj)
      exact absurd (isDifficulty_int.mp hd) (by decide)

end XnMiner
