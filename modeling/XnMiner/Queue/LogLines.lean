import XnMiner.Queue.CodecLaws
import XnMiner.Queue.Index
import XnMiner.Queue.Outcome

/-! # The log as lines

A terminated log is its lines, and appending to it adds lines. The merge takes a
clean line, skips a torn one, and throws on a record without a finite hash rate.
-/
namespace XnMiner
open TextCodec

theorem fileLines_line {l : Str} (h : '\n' ∉ l) (rest : Str) :
    fileLines (l ++ '\n' :: rest) = l :: fileLines rest := by
  induction l with
  | nil => simp [fileLines]
  | cons c l ih =>
    simp only [List.mem_cons, not_or] at h
    have hc : c ≠ '\n' := fun hc => h.1 hc.symm
    rw [List.cons_append, fileLines, if_neg hc, ih h.2]

theorem fileLines_unterminated {l : Str} (h : '\n' ∉ l) (hne : l ≠ []) : fileLines l = [l] := by
  induction l with
  | nil => exact absurd rfl hne
  | cons c l ih =>
    simp only [List.mem_cons, not_or] at h
    have hc : c ≠ '\n' := fun hc => h.1 hc.symm
    rw [fileLines, if_neg hc]
    by_cases hl : l = []
    · subst hl
      rfl
    · rw [ih h.2 hl]

def terminated (text : Str) : Bool := text.getLast?.all (· == '\n')

theorem fileLines_ne_nil {text : Str} (h : text ≠ []) : fileLines text ≠ [] := by
  cases text with
  | nil => exact absurd rfl h
  | cons c cs =>
    rw [fileLines]
    split
    · exact List.cons_ne_nil _ _
    · split <;> exact List.cons_ne_nil _ _

/-- What is appended to a terminated log starts a new line. -/
theorem fileLines_append {text : Str} (h : terminated text = true) (rest : Str) :
    fileLines (text ++ rest) = fileLines text ++ fileLines rest := by
  induction text with
  | nil => rfl
  | cons c cs ih =>
    have hcs : terminated cs = true := by
      cases cs with
      | nil => rfl
      | cons d ds => simpa [terminated] using h
    rw [List.cons_append, fileLines, fileLines, ih hcs]
    split_ifs with hc
    · rfl
    · have hne : cs ≠ [] := by
        rintro rfl
        simp [terminated, hc] at h
      cases hl : fileLines cs with
      | nil => exact absurd hl (fileLines_ne_nil hne)
      | cons l ls => rfl

theorem newline_not_mem_logLine (entry : PendingBlock × Str) : '\n' ∉ logLine entry :=
  newline_not_mem_dumpText _

theorem logLine_ne_nil (entry : PendingBlock × Str) : logLine entry ≠ [] := by
  obtain ⟨fs, hfs⟩ := queueRecord_obj entry.1 entry.2
  obtain ⟨rest, hrest⟩ := dumpText_obj_head fs
  rw [logLine, hfs, hrest]
  exact List.cons_ne_nil _ _

def logText (entries : List (PendingBlock × Str)) : Str :=
  entries.flatMap fun entry => logLine entry ++ ['\n']

theorem fileLines_logText (entries : List (PendingBlock × Str)) :
    fileLines (logText entries) = entries.map logLine := by
  induction entries with
  | nil => rfl
  | cons entry entries ih =>
    have hcons : logText (entry :: entries) = logLine entry ++ '\n' :: logText entries := by
      simp [logText]
    rw [hcons, fileLines_line (newline_not_mem_logLine entry), ih, List.map_cons]

variable (castInt : ℤ → ℤ)

def known (b : BlockStore) (pb : PendingBlock) : Prop :=
  pb.hit.hashStr = [] ∨ pb.hit.hashStr ∈ b.hashIndex

instance (b : BlockStore) (pb : PendingBlock) : Decidable (known b pb) :=
  inferInstanceAs (Decidable (_ ∨ _))

def printed (entry : PendingBlock × Str) : Bool := utf8Ok (queueRecord entry.1 entry.2)

theorem parse_logLine {entry : PendingBlock × Str} (h : printed entry = true) :
    parse (logLine entry) = some (readBack (queueRecord entry.1 entry.2)) :=
  parse_of_dump (if_pos h)

theorem recoverLine_logLine {entry : PendingBlock × Str} (h : printed entry = true)
    (b : BlockStore) : recoverLine castInt b (logLine entry) =
      if entry.1.hit.hps.isFinite = true then
        if known b entry.1 then some b
        else some (addLoaded b (recoveredBlock castInt b entry.1))
      else none := by
  obtain ⟨fs, hfs⟩ := queueRecord_obj entry.1 entry.2
  have hread : readBack (queueRecord entry.1 entry.2) = .obj (readBackMembers fs) := by
    rw [hfs, readBack]
  rw [recoverLine, if_neg (logLine_ne_nil entry), parse_logLine h, hread]
  simp only
  rw [← hread, recoverRecord_queueRecord]
  rfl

theorem recoverLine_torn {entry : PendingBlock × Str} (h : printed entry = true) {p : Str}
    (hp : p <+: logLine entry) (hne : p ≠ logLine entry) (b : BlockStore) :
    recoverLine castInt b p = some b := by
  obtain ⟨fs, hfs⟩ := queueRecord_obj entry.1 entry.2
  have hd : dump (.obj fs) = some (logLine entry) := by
    rw [← hfs]
    exact if_pos h
  rw [recoverLine]
  split_ifs
  · rfl
  · rw [parse_of_torn_dump hd hp hne]

end XnMiner
