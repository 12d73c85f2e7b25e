import XnMiner.Queue.Restart
import XnMiner.System.Machine
import Mathlib.Data.List.Infix

/-! # Crashes

A crash leaves some writes of the interrupted operation complete and the next one
cut at any byte. The log carries the bag across it: each line is a record or the
beginning of one, and every block still owed has its whole line.
-/
namespace XnMiner
open TextCodec Transitions

/-- A write cut after `k` bytes; a cut rewrite has truncated the file all the same. -/
def Write.tear (w : Write) (k : ℕ) : Write :=
  match w with
  | .db text => .db (text.take k)
  | .jsonl text => .jsonl (text.take k)
  | .rejected text => .rejected (text.take k)

/-- The files after `n` whole writes, the next one cut if it was begun. -/
def Disk.crash (d : Disk) (ws : List Write) (n : ℕ) (torn : Option ℕ) : Disk :=
  match ws, n with
  | [], _ => d
  | w :: ws, n + 1 => (d.write w).crash ws n torn
  | w :: _, 0 => match torn with
    | none => d
    | some k => d.write (w.tear k)

def acknowledgedEnqueue (b : BlockStore) (hit : BlockHit) (reason queuedAt : Str) : Finset Str :=
  match (enqueue b hit reason queuedAt).result with
  | some id => if id ≠ 0 ∧ hit.hashStr ≠ [] then {hit.hashStr} else ∅
  | none => ∅

def acknowledged (b : BlockStore) (op : StoreOp) : Finset Str :=
  match op with
  | .enqueue hit reason queuedAt => acknowledgedEnqueue b hit reason queuedAt
  | .recordRejection hit httpStatus body source reason now =>
    if dump (rejectionRecord hit httpStatus body source now) = none then ∅
    else acknowledgedEnqueue b hit reason now
  | _ => ∅

def discharged (b : BlockStore) (op : StoreOp) : Finset Str :=
  hashesOf (b.pending.filter fun pb => pb.id ∈ op.removes)

inductive Phase where
  | running (s : StoreState)
  | down (d : Disk)

/-- `owed` is the history variable of the acknowledged blocks never passed to a removal. -/
structure Session where
  phase : Phase
  owed : Finset Str

inductive SessionAction where
  | op (op : StoreOp)
  | crash (op : StoreOp) (n : ℕ) (torn : Option ℕ)
  | restart
  | crashRestart (n : ℕ) (torn : Option ℕ)

def sessionMachine : Machine Session SessionAction where
  init s := ∃ d, emptyFiles d ∧ s = { phase := .down d, owed := ∅ }
  step s a t :=
    match s.phase, a with
    | .running st, .op op =>
      t = { phase := .running (op.apply st)
            owed := (s.owed ∪ acknowledged st.store op) \ discharged st.store op }
    | .running st, .crash op n torn =>
      t = { phase := .down (st.disk.crash (op.exec st.store).2 n torn)
            owed := s.owed \ discharged st.store op }
    | .down d, .restart =>
      ∃ b, (construct toInt32 d).2 = some b ∧
        t = { s with phase := .running { store := b, disk := d.writeAll (construct toInt32 d).1 } }
    | .down d, .crashRestart n torn =>
      t = { s with phase := .down (d.crash (construct toInt32 d).1 n torn) }
    | _, _ => False

/-- Every owed block is pending, now or after a construction on the files. -/
def Session.durable (s : Session) : Prop :=
  match s.phase with
  | .running st => s.owed ⊆ hashesOf st.store.pending
  | .down d => ∃ b, (construct toInt32 d).2 = some b ∧ s.owed ⊆ hashesOf b.pending

/-- A new log line starts on its own and has a finite hash rate. -/
def SessionAction.safe (s : Session) (a : SessionAction) : Prop :=
  match s.phase, a with
  | .running st, .op call | .running st, .crash call _ _ =>
    ∀ entry ∈ loggedBy st.store call, terminated st.disk.log = true ∧
      entry.1.hit.hps.isFinite = true
  | _, _ => True

def goodEntry (entry : PendingBlock × Str) : Prop :=
  printed entry = true ∧ entry.1.hit.hps.isFinite = true

def goodDb (text : Str) : Prop :=
  ∃ b full, dump (dbJson b) = some full ∧ text <+: full

structure DiskInv (d : Disk) (owed : Finset Str) : Prop where
  db : ∀ text, d.db = some text → goodDb text
  lines : ∀ line ∈ fileLines d.log, ∃ entry, goodEntry entry ∧ line <+: logLine entry
  owed : ∀ h ∈ owed, ∃ entry, goodEntry entry ∧ logLine entry ∈ fileLines d.log ∧
    entry.1.hit.hashStr = h ∧ h ≠ []

/-- A write that keeps good files good, torn or not. -/
def goodWrite (d : Disk) (w : Write) : Prop :=
  match w with
  | .db text => goodDb text
  | .jsonl text => text = [] ∨ terminated d.log = true ∧
    ∃ entry, goodEntry entry ∧ text <+: logLine entry ++ ['\n']
  | .rejected _ => True

theorem goodDb_nil : goodDb [] := ⟨{}, _, rfl, List.nil_prefix⟩

theorem goodWrite.tear {d : Disk} {w : Write} (h : goodWrite d w) (k : ℕ) :
    goodWrite d (w.tear k) := by
  cases w with
  | db text =>
    obtain ⟨b, full, hd, hp⟩ := h
    exact ⟨b, full, hd, (List.take_prefix k text).trans hp⟩
  | jsonl text =>
    rcases h with rfl | ⟨hterm, entry, hentry, hp⟩
    · exact .inl List.take_nil
    · exact .inr ⟨hterm, entry, hentry, (List.take_prefix k text).trans hp⟩
  | rejected text => trivial

theorem DiskInv.mono {d : Disk} {owed owed' : Finset Str} (h : DiskInv d owed)
    (hsub : owed' ⊆ owed) : DiskInv d owed' :=
  ⟨h.db, h.lines, fun x hx => h.owed x (hsub hx)⟩

theorem fileLines_prefix_logLine {entry : PendingBlock × Str} {text : Str}
    (h : text <+: logLine entry ++ ['\n']) : ∀ line ∈ fileLines text, line <+: logLine entry := by
  rcases List.prefix_concat_iff.mp h with rfl | hp
  · have hlines : fileLines (logLine entry ++ ['\n']) = [logLine entry] := by
      rw [fileLines_line (newline_not_mem_logLine entry)]
      rfl
    rw [hlines]
    simp
  · intro line hline
    by_cases hne : text = []
    · subst hne
      cases hline
    · have hnl : '\n' ∉ text := fun hmem => newline_not_mem_logLine entry (hp.subset hmem)
      rw [fileLines_unterminated hnl hne, List.mem_singleton] at hline
      rw [hline]
      exact hp

theorem DiskInv.write {d : Disk} {owed : Finset Str} (h : DiskInv d owed) {w : Write}
    (hw : goodWrite d w) : DiskInv (d.write w) owed := by
  cases w with
  | db text =>
    refine ⟨fun t ht => ?_, h.lines, h.owed⟩
    obtain rfl : text = t := Option.some.inj ht
    exact hw
  | rejected text => exact ⟨h.db, h.lines, h.owed⟩
  | jsonl text =>
    have hlines : fileLines (d.write (.jsonl text)).log = fileLines d.log ++ fileLines text := by
      rw [Disk.log_write_jsonl]
      rcases hw with rfl | ⟨hterm, -⟩
      · simp [fileLines]
      · exact fileLines_append hterm text
    refine ⟨h.db, ?_, ?_⟩
    · intro line hline
      rw [hlines] at hline
      rcases List.mem_append.mp hline with hold | hnew
      · exact h.lines line hold
      · rcases hw with rfl | ⟨-, entry, hentry, hp⟩
        · cases hnew
        · exact ⟨entry, hentry, fileLines_prefix_logLine hp line hnew⟩
    · intro x hx
      obtain ⟨entry, hentry, hmem, heq⟩ := h.owed x hx
      rw [hlines]
      exact ⟨entry, hentry, List.mem_append_left _ hmem, heq⟩

inductive GoodWrites : Disk → List Write → Prop where
  | nil (d : Disk) : GoodWrites d []
  | cons {d : Disk} {w : Write} {ws : List Write} (hw : goodWrite d w)
      (hws : GoodWrites (d.write w) ws) : GoodWrites d (w :: ws)

theorem DiskInv.writeAll {d : Disk} {owed : Finset Str} {ws : List Write} (h : DiskInv d owed)
    (hws : GoodWrites d ws) : DiskInv (d.writeAll ws) owed := by
  induction hws with
  | nil => exact h
  | cons hw _ ih => exact ih (h.write hw)

theorem DiskInv.crash {d : Disk} {owed : Finset Str} {ws : List Write} (h : DiskInv d owed)
    (hws : GoodWrites d ws) (n : ℕ) (torn : Option ℕ) : DiskInv (d.crash ws n torn) owed := by
  induction hws generalizing n with
  | nil => exact h
  | cons hw _ ih =>
    cases n with
    | succ n => exact ih (h.write hw) n
    | zero =>
      cases torn with
      | none => exact h
      | some k => exact h.write (hw.tear k)

theorem GoodWrites.of_rejections {d : Disk} {ws : List Write} (h : ∀ w ∈ ws, w.quiet)
    {rest : List Write} (hrest : GoodWrites (d.writeAll ws) rest) : GoodWrites d (ws ++ rest) := by
  induction ws generalizing d with
  | nil => exact hrest
  | cons w ws ih =>
    refine .cons ?_ (ih (fun v hv => h v (.tail _ hv)) hrest)
    obtain rfl | ⟨text, rfl⟩ := h w (.head _)
    · exact .inl rfl
    · trivial

theorem Saves.goodWrites {b : BlockStore} {e : Effect Unit} (h : Saves b e) (d : Disk) :
    GoodWrites d e.writes := by
  cases h with
  | skipped => exact .nil d
  | failed h => exact .cons goodDb_nil (.nil _)
  | saved text h => exact .cons ⟨b, text, h, List.prefix_refl _⟩ (.nil _)

theorem goodWrites_exec {b : BlockStore} {op : StoreOp} {d : Disk}
    (hsafe : ∀ entry ∈ loggedBy b op, terminated d.log = true ∧
      entry.1.hit.hps.isFinite = true) : GoodWrites d (op.exec b).2 := by
  cases store_outcome b op with
  | quiet b1 ws hexec hlog hpending hdirty hws =>
    rw [hexec, ← List.append_nil ws]
    exact .of_rejections hws (.nil _)
  | fresh hit reason queuedAt rejections e hexec hlog hprint hsave hws =>
    rw [hlog] at hsafe
    obtain ⟨hterm, hfin⟩ := hsafe _ (List.mem_singleton_self _)
    rw [hexec]
    refine .of_rejections hws (.cons (.inr ⟨?_, (freshBlock b hit reason, queuedAt), ⟨hprint, hfin⟩, List.prefix_refl _⟩)
      (hsave.goodWrites _))
    rw [(d.writeAll_quiet hws).2]
    exact hterm
  | update b1 e hexec hlog hkept hdirty hsave =>
    rw [hexec]
    exact hsave.goodWrites d

end XnMiner
