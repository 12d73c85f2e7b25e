import XnMiner.Mining.BlockTypes
import XnMiner.Queue.LogLines
import XnMiner.Lists.SectionFile
import XnMiner.Lists.Trim

/-! # The configuration file

The parser and the editor of one value go over the same lines, each with its own reading of
them. Both come down to the items of a line, so an edit is an edit of a file of sections.
-/
namespace XnMiner
open TextCodec SectionFile ListTrim

def popCr (line : Str) : Str := if line.getLast? = some '\r' then line.dropLast else line

def isHeader (t : Str) : Bool := t.head? == some '[' && t.getLast? == some ']'

def isSkipped (t : Str) : Bool := t.isEmpty || t.head? == some '#' || t.head? == some ';'

def headerName (t : Str) : Str := lower (trim ((t.drop 1).take (t.length - 2)))

def splitEq (t : Str) : Option (Str × Str) :=
  if '=' ∈ t then some (t.takeWhile (· != '='), (t.dropWhile (· != '=')).tail) else none

def cutComment (val : Str) : Str :=
  match val with
  | [] => []
  | c :: cs => if " #".toList.isPrefixOf (c :: cs) then [] else c :: cutComment cs

def iniValue (s : Str) : Str :=
  let val := trim s
  if contains val " #".toList then trim (cutComment val) else val

def iniItem (line : Str) : Item Str Str Str :=
  let t := trim (popCr line)
  if isSkipped t then .other
  else if isHeader t then .header (headerName t)
  else match splitEq t with
    | none => .other
    | some (key, val) => .entry (lower (trim key)) (iniValue val)

abbrev Ini := Str → Str → Option Str

def parseIni (text : Str) : Ini := (load ⟨[], fun _ _ => none⟩ ((fileLines text).map iniItem)).vals

def iniGet (ini : Ini) (sec key default : Str) : Str :=
  match ini sec key with
  | none => default
  | some v => if v = [] then default else v

structure IniEdit where
  inSec : Bool := false
  wrote : Bool := false
  foundSec : Bool := false
  out : List Str := []

section Editor
variable (sec key value : Str)

def entryLine : Str := key ++ " = ".toList ++ value

def headerLine : Str := '[' :: sec ++ "]".toList

/-- A section of the name that ends without the entry gets it. -/
def IniEdit.leaveSec (e : IniEdit) : IniEdit :=
  if e.inSec && !e.wrote then { e with out := e.out ++ [entryLine key value], wrote := true } else e

def hasKey (t : Str) : Bool :=
  match splitEq t with
  | none => false
  | some (k, _) => decide (lower (trim k) = lower key)

def IniEdit.line (e : IniEdit) (line : Str) : IniEdit :=
  let t := trim line
  if isHeader t then
    let e := e.leaveSec key value
    let inSec := decide (headerName t = lower sec)
    { e with inSec := inSec, foundSec := e.foundSec || inSec, out := e.out ++ [line] }
  else if e.inSec && hasKey key t then
    { e with out := e.out ++ [entryLine key value], wrote := true }
  else { e with out := e.out ++ [line] }

def IniEdit.finish (e : IniEdit) : List Str :=
  let e := e.leaveSec key value
  if e.foundSec then e.out
  else
    let out := if e.out ≠ [] ∧ e.out.getLast? ≠ some [] then e.out ++ [[]] else e.out
    out ++ [headerLine sec, entryLine key value]

def writeLines (out : List Str) : Str :=
  ['\n'].intercalate out ++ if out = [] then [] else ['\n']

def setIniValue (text : Str) : Str :=
  writeLines ((((fileLines text).map popCr).foldl (IniEdit.line sec key value) {}).finish
    sec key value)

end Editor

def isName (s : Str) : Bool := s.all fun c => c.isAlphanum || c == '_'

/-- A value that a line can carry: trimmed, on one line, without the start of a comment. -/
structure IniValue (value : Str) : Prop where
  ne_nil : value ≠ []
  trimmed : trim value = value
  one_line : '\n' ∉ value
  no_comment : contains value " #".toList = false

theorem trim_eq_trimBy (s : Str) : trim s = trimBy isSpace s := rfl

theorem trim_popCr (line : Str) : trim (popCr line) = trim line := by
  unfold popCr
  split_ifs with h
  · obtain ⟨init, rfl⟩ := List.getLast?_eq_some_iff.mp h
    rw [List.dropLast_concat, trim_eq_trimBy, trim_eq_trimBy, trimBy_concat (by decide)]
  · rfl

theorem iniItem_popCr (line : Str) : iniItem (popCr line) = iniItem line := by
  rw [iniItem, iniItem, trim_popCr, trim_popCr]

structure NameChar (c : Char) : Prop where
  not_space : isSpace c = false
  ne_hash : c ≠ '#'
  ne_semicolon : c ≠ ';'
  ne_bracket : c ≠ '['
  ne_equals : c ≠ '='
  ne_newline : c ≠ '\n'
  lower_ne_hash : c.toLower ≠ '#'
  lower_ne_semicolon : c.toLower ≠ ';'

theorem nameChar {c : Char} (h : c.isAlphanum = true ∨ c = '_') : NameChar c := by
  have hall : ∀ n < 128, ((Char.ofNat n).isAlphanum = true ∨ Char.ofNat n = '_') →
      isSpace (Char.ofNat n) = false ∧ Char.ofNat n ≠ '#' ∧ Char.ofNat n ≠ ';' ∧
        Char.ofNat n ≠ '[' ∧ Char.ofNat n ≠ '=' ∧ Char.ofNat n ≠ '\n' ∧
        (Char.ofNat n).toLower ≠ '#' ∧ (Char.ofNat n).toLower ≠ ';' := by decide +kernel
  have hlt : c.toNat < 128 := by
    rcases h with h | rfl
    · rcases Bool.or_eq_true_iff.mp h with hletter | hdigit
      · rcases Bool.or_eq_true_iff.mp hletter with hupper | hlower
        · exact Nat.lt_of_le_of_lt (of_decide_eq_true hupper).2 (by decide)
        · exact Nat.lt_of_le_of_lt (of_decide_eq_true (Bool.and_eq_true_iff.mp hlower).2) (by decide)
      · exact Nat.lt_of_le_of_lt (of_decide_eq_true (Bool.and_eq_true_iff.mp hdigit).2) (by decide)
    · decide
  have hc := hall c.toNat hlt
  rw [Char.ofNat_toNat] at hc
  obtain ⟨h₁, h₂, h₃, h₄, h₅, h₆, h₇, h₈⟩ := hc h
  exact ⟨h₁, h₂, h₃, h₄, h₅, h₆, h₇, h₈⟩

theorem nameChar_of_name {s : Str} (h : isName s = true) {c : Char} (hc : c ∈ s) : NameChar c := by
  have hname := List.all_eq_true.mp h c hc
  rw [Bool.or_eq_true, beq_iff_eq] at hname
  exact nameChar hname

theorem trim_name {s : Str} (h : isName s = true) : trim s = s :=
  trimBy_of_none fun _ hc => (nameChar_of_name h hc).not_space

theorem splitEq_append {xs : Str} (h : '=' ∉ xs) (ys : Str) :
    splitEq (xs ++ '=' :: ys) = some (xs, ys) := by
  have hall : ∀ c ∈ xs, (c != '=') = true := fun c hc => by
    rw [bne_iff_ne]
    rintro rfl
    exact h hc
  rw [splitEq, if_pos (by simp), List.takeWhile_append_of_pos hall, List.dropWhile_append_of_pos hall]
  simp

/-- A key that is cut out of a trimmed line starts like the line. -/
theorem head_of_splitEq {c : Char} {cs k v : Str} (hc : c ≠ '=') (hspace : isSpace c = false)
    (h : splitEq (c :: cs) = some (k, v)) : ∃ rest, lower (trim k) = c.toLower :: rest := by
  rw [splitEq] at h
  split_ifs at h with hmem
  obtain ⟨rfl, -⟩ := Prod.mk.inj (Option.some.inj h)
  rw [List.takeWhile_cons_of_pos (by simp [hc]), trim_eq_trimBy]
  obtain ⟨rest, hrest⟩ := trimBy_cons hspace (cs.takeWhile (· != '='))
  exact ⟨lower rest, by rw [hrest]; rfl⟩

theorem not_isSkipped {c : Char} {t : Str} (h : t.head? = some c) (hhash : c ≠ '#')
    (hsemi : c ≠ ';') : isSkipped t = false := by
  obtain ⟨cs, rfl⟩ := List.head?_eq_some_iff.mp h
  simp [isSkipped, hhash, hsemi]

theorem iniItem_header {line : Str} (h : isHeader (trim line) = true) :
    iniItem line = .header (headerName (trim line)) := by
  have hhead : (trim line).head? = some '[' := by
    simp only [isHeader, Bool.and_eq_true, beq_iff_eq] at h
    exact h.1
  have hskip := not_isSkipped hhead (by decide) (by decide)
  rw [iniItem, trim_popCr, if_neg (by simp [hskip]), if_pos h]

theorem iniItem_entry {line k v : Str} (hskip : isSkipped (trim line) = false)
    (hhead : isHeader (trim line) = false) (hsplit : splitEq (trim line) = some (k, v)) :
    iniItem line = .entry (lower (trim k)) (iniValue v) := by
  rw [iniItem, trim_popCr, if_neg (by simp [hskip]), if_neg (by simp [hhead]), hsplit]

theorem not_isSkipped_of_split {key t k v : Str} (hkey : isName key = true)
    (hsplit : splitEq t = some (k, v)) (hk : lower (trim k) = lower key) :
    isSkipped t = false := by
  cases t with
  | nil => cases hsplit
  | cons c cs =>
    have hstart : c ≠ '=' → isSpace c = false → ∃ d ∈ key, d.toLower = c.toLower := by
      intro hne hspace
      obtain ⟨rest, hrest⟩ := head_of_splitEq hne hspace hsplit
      rw [hk] at hrest
      cases key with
      | nil => cases hrest
      | cons d ds => exact ⟨d, List.mem_cons_self, (List.cons.inj hrest).1⟩
    apply not_isSkipped (c := c) rfl
    · rintro rfl
      obtain ⟨d, hd, hlow⟩ := hstart (by decide) (by decide)
      exact (nameChar_of_name hkey hd).lower_ne_hash hlow
    · rintro rfl
      obtain ⟨d, hd, hlow⟩ := hstart (by decide) (by decide)
      exact (nameChar_of_name hkey hd).lower_ne_semicolon hlow

/-- Off headers, a line with the key is an entry of it. -/
theorem iniItem_hasKey {key line : Str} (hkey : isName key = true)
    (hhead : isHeader (trim line) = false) (h : hasKey key (trim line) = true) :
    ∃ old, iniItem line = .entry (lower key) old := by
  cases hsplit : splitEq (trim line) with
  | none =>
    rw [hasKey, hsplit] at h
    exact absurd h Bool.false_ne_true
  | some q =>
    obtain ⟨k, v⟩ := q
    rw [hasKey, hsplit] at h
    have hk : lower (trim k) = lower key := of_decide_eq_true h
    have hskip := not_isSkipped_of_split hkey hsplit hk
    exact ⟨iniValue v, hk ▸ iniItem_entry hskip hhead hsplit⟩

/-- Off headers, a line without the key is no entry of it. -/
theorem iniItem_other {line : Str} (hhead : isHeader (trim line) = false) :
    iniItem line = .other ∨ ∃ k val, iniItem line = .entry k val ∧
      ∀ key, hasKey key (trim line) = false → k ≠ lower key := by
  rw [iniItem, trim_popCr]
  split_ifs with hskip hh
  · exact .inl rfl
  · rw [hhead] at hh
    exact absurd hh Bool.false_ne_true
  · cases hsplit : splitEq (trim line) with
    | none => exact .inl rfl
    | some q =>
      obtain ⟨k, v⟩ := q
      refine .inr ⟨_, _, rfl, fun key hno => ?_⟩
      rw [hasKey, hsplit] at hno
      exact of_decide_eq_false hno

theorem iniItem_headerLine {sec : Str} (hsec : isName sec = true) :
    iniItem (headerLine sec) = .header (lower sec) := by
  have hlast : (headerLine sec).getLast? = some ']' := List.getLast?_concat ..
  have htrim : trim (headerLine sec) = headerLine sec := by
    refine trimBy_of_bare ⟨fun c hc => ?_, fun c hc => ?_⟩
    · obtain rfl := Option.some.inj hc
      decide
    · obtain rfl := Option.some.inj (hlast.symm.trans hc)
      decide
  have hname : headerName (headerLine sec) = lower sec := by
    have hbody : ((headerLine sec).drop 1).take ((headerLine sec).length - 2) = sec := by
      simp [headerLine]
    rw [headerName, hbody, trim_name hsec]
  rw [iniItem_header (by rw [htrim, isHeader, hlast]; rfl), htrim, hname]

/-- An entry line is trimmed to one that starts with its key, or with the equals sign. -/
theorem trim_entryLine {key value : Str} (hkey : isName key = true) (hval : IniValue value) :
    ∃ k c rest, trim (entryLine key value) = k ++ '=' :: ' ' :: value ∧ '=' ∉ k ∧ trim k = key ∧
      k ++ '=' :: ' ' :: value = c :: rest ∧ c ≠ '#' ∧ c ≠ ';' ∧ c ≠ '[' := by
  have hlast : ∀ xs : Str, (xs ++ value).getLast? = value.getLast? := fun xs => by
    rw [List.getLast?_append]
    cases hv : value.getLast? with
    | none => exact absurd (List.getLast?_eq_none_iff.mp hv) hval.ne_nil
    | some c => rfl
  have hend : ∀ c ∈ value.getLast?, isSpace c = false := by
    have hbare := bare_trimBy isSpace value
    rw [← trim_eq_trimBy, hval.trimmed] at hbare
    exact hbare.2
  have hbare : ∀ (c : Char) (xs : Str), isSpace c = false →
      trim (c :: xs ++ value) = c :: xs ++ value := by
    intro c xs hc
    refine trimBy_of_bare ⟨fun d hd => ?_, fun d hd => hend d (hlast (c :: xs) ▸ hd)⟩
    obtain rfl := Option.some.inj hd
    exact hc
  cases key with
  | nil =>
    refine ⟨[], '=', ' ' :: value, ?_, List.not_mem_nil, rfl, rfl, by decide, by decide, by decide⟩
    have hblank : trim (entryLine [] value) = trim (['=', ' '] ++ value) :=
      trimBy_append_left [' '] (List.forall_mem_singleton.mpr rfl) _
    rw [hblank]
    exact hbare '=' [' '] (by decide)
  | cons d ds =>
    have hd := nameChar_of_name hkey (List.mem_cons_self (a := d) (l := ds))
    refine ⟨(d :: ds) ++ [' '], d, ds ++ ' ' :: '=' :: ' ' :: value, ?_, ?_, ?_, by simp, hd.ne_hash,
      hd.ne_semicolon, hd.ne_bracket⟩
    · have hline := hbare d (ds ++ [' ', '=', ' ']) hd.not_space
      simpa [entryLine] using hline
    · intro hmem
      rcases List.mem_append.mp hmem with hmem | hmem
      · exact (nameChar_of_name hkey hmem).ne_equals rfl
      · exact absurd hmem (by decide)
    · rw [trim_eq_trimBy, trimBy_concat (by decide), ← trim_eq_trimBy, trim_name hkey]

theorem iniItem_entryLine {key value : Str} (hkey : isName key = true) (hval : IniValue value) :
    iniItem (entryLine key value) = .entry (lower key) value := by
  have hvalue : iniValue (' ' :: value) = value := by
    have htrim : trim (' ' :: value) = value :=
      (trimBy_append_left [' '] (List.forall_mem_singleton.mpr rfl) value).trans hval.trimmed
    rw [iniValue, htrim, hval.no_comment]
    rfl
  obtain ⟨k, c, rest, htrim, hk, hname, hstart, hhash, hsemi, hopen⟩ := trim_entryLine hkey hval
  have hhead : (trim (entryLine key value)).head? = some c := by rw [htrim, hstart]; rfl
  have hsplit : splitEq (trim (entryLine key value)) = some (k, ' ' :: value) := by
    rw [htrim, splitEq_append hk]
  have hskip := not_isSkipped hhead hhash hsemi
  have hnot : isHeader (trim (entryLine key value)) = false := by
    rw [isHeader, hhead]
    simp [hopen]
  have hitem := iniItem_entry hskip hnot hsplit
  rwa [hname, hvalue] at hitem

section Editor
variable {sec key value : Str} {file init : Loaded Str Str Str} {e : IniEdit}

def IniEdit.progress (e : IniEdit) : Progress where
  inside := e.inSec
  wrote := e.wrote
  found := e.foundSec

/-- What the edited file reads as, up to where the editor has come. -/
def IniEdit.loaded (init : Loaded Str Str Str) (e : IniEdit) : Loaded Str Str Str :=
  load init (e.out.map iniItem)

theorem loaded_push (init : Loaded Str Str Str) (out : List Str) (line : Str) :
    load init ((out ++ [line]).map iniItem) = (load init (out.map iniItem)).take (iniItem line) := by
  rw [List.map_append, load_append]
  rfl

def IniEdit.Edits (sec key value : Str) (init file : Loaded Str Str Str) (e : IniEdit) : Prop :=
  SectionFile.Edits (lower sec) (lower key) value file (e.loaded init) e.progress

theorem IniEdit.Edits.leaveSec (hkey : isName key = true) (hval : IniValue value)
    (h : e.Edits sec key value init file) :
    (e.leaveSec key value).Edits sec key value init file ∧
      ((e.leaveSec key value).inSec = true → (e.leaveSec key value).wrote = true) := by
  unfold IniEdit.leaveSec
  split_ifs with hleft
  · rw [Bool.and_eq_true] at hleft
    refine ⟨?_, fun _ => rfl⟩
    rw [IniEdit.Edits, IniEdit.loaded, loaded_push, iniItem_entryLine hkey hval]
    exact h.write hleft.1
  · refine ⟨h, fun hin => ?_⟩
    cases hw : e.wrote with
    | true => rfl
    | false => exact absurd (by rw [hin, hw]; rfl) hleft

theorem IniEdit.Edits.line (hkey : isName key = true) (hval : IniValue value)
    (h : e.Edits sec key value init file) (line : Str) :
    (e.line sec key value line).Edits sec key value init (file.take (iniItem line)) := by
  unfold IniEdit.line
  dsimp only
  split_ifs with hhead hhas
  · obtain ⟨hleave, hwrote⟩ := h.leaveSec hkey hval
    rw [IniEdit.Edits, IniEdit.loaded, loaded_push, iniItem_header hhead]
    exact hleave.header hwrote (headerName (trim line))
  · rw [Bool.and_eq_true] at hhas
    obtain ⟨old, hold⟩ := iniItem_hasKey hkey (Bool.not_eq_true _ ▸ hhead) hhas.2
    rw [IniEdit.Edits, IniEdit.loaded, loaded_push, iniItem_entryLine hkey hval, hold]
    exact (h.leaveOut hhas.1 old).write hhas.1
  · rw [IniEdit.Edits, IniEdit.loaded, loaded_push]
    rcases iniItem_other (Bool.not_eq_true _ ▸ hhead) with hother | ⟨k, val, hentry, hne⟩
    · rw [hother]
      exact h.other
    · rw [hentry]
      refine h.keep val fun hin => hne key ?_
      rw [show e.inSec = true from hin, Bool.true_and] at hhas
      exact Bool.not_eq_true _ ▸ hhas

theorem IniEdit.edits_run (hkey : isName key = true) (hval : IniValue value) (lines : List Str)
    (h : e.Edits sec key value init file) :
    (lines.foldl (IniEdit.line sec key value) e).Edits sec key value init
      (load file (lines.map iniItem)) := by
  induction lines generalizing e file with
  | nil => exact h
  | cons line lines ih => exact ih (h.line hkey hval line)

/-- What is written has the value, and every other value as it was. -/
theorem IniEdit.Edits.finish (hsec : isName sec = true) (hkey : isName key = true) (hval : IniValue value)
    (h : e.Edits sec key value init file) :
    (load init ((e.finish sec key value).map iniItem)).vals (lower sec) (lower key) = some value ∧
      ∀ s k, ¬ (s = lower sec ∧ k = lower key) →
        (load init ((e.finish sec key value).map iniItem)).vals s k = file.vals s k := by
  obtain ⟨hleave, hwrote⟩ := h.leaveSec hkey hval
  unfold IniEdit.finish
  dsimp only
  generalize e.leaveSec key value = e at hleave hwrote
  have hadd : ∀ out, load init (out.map iniItem) = e.loaded init →
      SectionFile.Edits (lower sec) (lower key) value (file.take (.header (lower sec)))
        (load init ((out ++ [headerLine sec, entryLine key value]).map iniItem))
        { e.progress with
          inside := decide (lower sec = lower sec)
          wrote := true
          found := e.progress.found || decide (lower sec = lower sec) } := by
    intro out hout
    have hline : out ++ [headerLine sec, entryLine key value] =
        (out ++ [headerLine sec]) ++ [entryLine key value] := by simp
    rw [hline, loaded_push, loaded_push, hout, iniItem_headerLine hsec,
      iniItem_entryLine hkey hval]
    exact (hleave.header hwrote (lower sec)).write (decide_eq_true rfl)
  split_ifs with hfound hpad
  · have hw : e.wrote = true := (hleave.found hfound).elim hwrote id
    exact ⟨(hleave.wrote hw).2, hleave.frame⟩
  · have hblank : load init ((e.out ++ [[]]).map iniItem) = e.loaded init := loaded_push init e.out []
    exact ⟨((hadd _ hblank).wrote rfl).2, (hadd _ hblank).frame⟩
  · exact ⟨((hadd _ rfl).wrote rfl).2, (hadd _ rfl).frame⟩

theorem newline_not_mem_fileLines {text line : Str} (h : line ∈ fileLines text) : '\n' ∉ line := by
  induction text generalizing line with
  | nil => cases h
  | cons c cs ih =>
    rw [fileLines] at h
    split at h
    · rcases List.mem_cons.mp h with rfl | h
      · exact List.not_mem_nil
      · exact ih h
    · next hc =>
      split at h
      · next hnil =>
        rw [List.mem_singleton.mp h, List.mem_singleton]
        exact fun heq => hc heq.symm
      · next l ls hcons =>
        rcases List.mem_cons.mp h with rfl | h
        · rw [List.mem_cons, not_or]
          exact ⟨fun heq => hc heq.symm, ih (hcons ▸ List.mem_cons_self)⟩
        · exact ih (hcons ▸ List.mem_cons_of_mem _ h)

theorem writeLines_eq (out : List Str) : writeLines out = out.flatMap (· ++ ['\n']) := by
  have hcons : ∀ l ls, ['\n'].intercalate (l :: ls) ++ ['\n'] = (l :: ls).flatMap (· ++ ['\n']) := by
    intro l ls
    induction ls generalizing l with
    | nil => simp [List.intercalate]
    | cons d ls ih =>
      rw [List.flatMap_cons, ← ih d]
      simp [List.intercalate]
  cases out with
  | nil => rfl
  | cons l ls => exact hcons l ls

theorem fileLines_writeLines {out : List Str} (h : ∀ l ∈ out, '\n' ∉ l) :
    fileLines (writeLines out) = out := by
  rw [writeLines_eq]
  induction out with
  | nil => rfl
  | cons l out ih =>
    obtain ⟨hl, hout⟩ := List.forall_mem_cons.mp h
    rw [List.flatMap_cons, List.append_assoc, List.singleton_append, fileLines_line hl, ih hout]

theorem newline_not_mem_popCr {line : Str} (h : '\n' ∉ line) : '\n' ∉ popCr line := by
  unfold popCr
  split_ifs
  · exact fun hmem => h (List.mem_of_mem_dropLast hmem)
  · exact h

theorem newline_not_mem_name {s : Str} (h : isName s = true) : '\n' ∉ s := fun hmem =>
  (nameChar_of_name h hmem).ne_newline rfl

def IniEdit.OneLines (e : IniEdit) : Prop := ∀ l ∈ e.out, '\n' ∉ l

theorem newline_not_mem_entryLine (hkey : isName key = true) (hval : IniValue value) :
    '\n' ∉ entryLine key value := by
  intro hmem
  rcases List.mem_append.mp hmem with hmem | hmem
  · rcases List.mem_append.mp hmem with hmem | hmem
    · exact newline_not_mem_name hkey hmem
    · exact absurd hmem (by decide)
  · exact hval.one_line hmem

theorem newline_not_mem_headerLine (hsec : isName sec = true) : '\n' ∉ headerLine sec := by
  intro hmem
  rcases List.mem_cons.mp hmem with hmem | hmem
  · exact absurd hmem (by decide)
  · rcases List.mem_append.mp hmem with hmem | hmem
    · exact newline_not_mem_name hsec hmem
    · exact absurd hmem (by decide)

theorem forall_mem_concat {P : Str → Prop} {out : List Str} {line : Str} (h : ∀ l ∈ out, P l)
    (hline : P line) : ∀ l ∈ out ++ [line], P l := by
  intro l hl
  rcases List.mem_append.mp hl with hl | hl
  · exact h l hl
  · rw [List.mem_singleton.mp hl]
    exact hline

theorem IniEdit.OneLines.leaveSec (hkey : isName key = true) (hval : IniValue value) (h : e.OneLines) :
    (e.leaveSec key value).OneLines := by
  unfold IniEdit.leaveSec
  split_ifs
  · exact forall_mem_concat h (newline_not_mem_entryLine hkey hval)
  · exact h

theorem IniEdit.OneLines.run (sec : Str) (hkey : isName key = true) (hval : IniValue value)
    {lines : List Str} (hlines : ∀ l ∈ lines, '\n' ∉ l) (h : e.OneLines) :
    (lines.foldl (IniEdit.line sec key value) e).OneLines := by
  induction lines generalizing e with
  | nil => exact h
  | cons line lines ih =>
    obtain ⟨hline, hrest⟩ := List.forall_mem_cons.mp hlines
    refine ih hrest ?_
    unfold IniEdit.line
    dsimp only
    split_ifs
    · exact forall_mem_concat (h.leaveSec hkey hval) hline
    · exact forall_mem_concat h (newline_not_mem_entryLine hkey hval)
    · exact forall_mem_concat h hline

theorem IniEdit.OneLines.finish (hsec : isName sec = true) (hkey : isName key = true) (hval : IniValue value)
    (h : e.OneLines) : ∀ l ∈ e.finish sec key value, '\n' ∉ l := by
  have hleave := h.leaveSec hkey hval
  have hadd : ∀ out : List Str, (∀ l ∈ out, '\n' ∉ l) →
      ∀ l ∈ out ++ [headerLine sec, entryLine key value], '\n' ∉ l := by
    intro out hout
    have hheader := forall_mem_concat hout (newline_not_mem_headerLine hsec)
    have hentry := forall_mem_concat hheader (newline_not_mem_entryLine hkey hval)
    rwa [List.append_assoc] at hentry
  unfold IniEdit.finish
  dsimp only
  split_ifs
  · exact hleave
  · exact hadd _ (forall_mem_concat hleave List.not_mem_nil)
  · exact hadd _ hleave

end Editor

/-- After an edit the file gives the value for its section and key, and for every other pair
what it gave before. -/
theorem parseIni_setIniValue (text sec key value : Str) (hsec : isName sec = true) (hkey : isName key = true)
    (hval : IniValue value) :
    parseIni (setIniValue sec key value text) (lower sec) (lower key) = some value ∧
      (∀ default, iniGet (parseIni (setIniValue sec key value text)) (lower sec) (lower key)
        default = value) ∧
      ∀ s k, ¬ (s = lower sec ∧ k = lower key) →
        parseIni (setIniValue sec key value text) s k = parseIni text s k := by
  have hitems : ((fileLines text).map popCr).map iniItem = (fileLines text).map iniItem := by
    rw [List.map_map]
    exact List.map_congr_left fun l _ => iniItem_popCr l
  have hlines : ∀ l ∈ (fileLines text).map popCr, '\n' ∉ l := by
    intro l hl
    obtain ⟨line, hline, rfl⟩ := List.mem_map.mp hl
    exact newline_not_mem_popCr (newline_not_mem_fileLines hline)
  have hstart : IniEdit.Edits sec key value ⟨[], fun _ _ => none⟩ ⟨[], fun _ _ => none⟩ {} :=
    edits_start (lower sec) (lower key) value _
  have hrun := IniEdit.edits_run hkey hval ((fileLines text).map popCr) hstart
  have hone : IniEdit.OneLines {} := fun _ hl => absurd hl List.not_mem_nil
  have hout := (hone.run sec hkey hval hlines).finish hsec hkey hval
  obtain ⟨hvalue, hframe⟩ := hrun.finish hsec hkey hval
  rw [hitems] at hframe
  have hparsed : parseIni (setIniValue sec key value text) (lower sec) (lower key) = some value := by
    rw [parseIni, setIniValue, fileLines_writeLines hout]
    exact hvalue
  refine ⟨hparsed, fun default => ?_, fun s k hne => ?_⟩
  · rw [iniGet, hparsed]
    exact if_neg hval.ne_nil
  · rw [parseIni, setIniValue, fileLines_writeLines hout]
    exact hframe s k hne

def messyIni : Str :=
  "Worker = top
[Account]
# worker = old
address = 0xab # mine
[mining]
worker = rig
   [ACCOUNT ]
WORKER = a
worker=b".toList

theorem parseIni_setIniValue_run :
    parseIni (setIniValue "account".toList "worker".toList "xn#2".toList messyIni)
        "account".toList "worker".toList = some "xn#2".toList ∧
      parseIni (setIniValue "account".toList "worker".toList "xn#2".toList messyIni)
        "mining".toList "worker".toList = some "rig".toList := by
  have hsec : isName "account".toList = true := by decide
  have hkey : isName "worker".toList = true := by decide
  have hval : IniValue "xn#2".toList := ⟨by decide, by decide, by decide, by decide⟩
  have h := parseIni_setIniValue messyIni "account".toList "worker".toList "xn#2".toList hsec hkey hval
  have hrig : parseIni messyIni "mining".toList "worker".toList = some "rig".toList := by
    decide +kernel
  exact ⟨h.1, (h.2.2 "mining".toList "worker".toList (by decide)).trans hrig⟩

end XnMiner
