import XnMiner.Queue.LogLines

/-! # Destruction and construction on the same files

The snapshot holds the list; the log holds every block that was ever enqueued. The
merge therefore gives back the list exactly when nothing logged is missing from it
and every record reads back to what was written.
-/
namespace XnMiner
open TextCodec

def loggedRun (b : BlockStore) (ops : List StoreOp) : List (PendingBlock × Str) :=
  match ops with
  | [] => []
  | op :: ops => loggedBy b op ++ loggedRun (op.exec b).1 ops

def savedAs (blocks : List PendingBlock) (db : Option Str) : Prop :=
  blocks = [] ∧ db.getD [] = [] ∨
    ∃ b text, b.pending = blocks ∧ dump (dbJson b) = some text ∧ db = some text

/-- Members and files of a run that has not crashed. -/
structure Synced (s : StoreState) (logged : List (PendingBlock × Str)) : Prop where
  log_text : s.disk.log = logText logged
  printed : ∀ entry ∈ logged, printed entry = true
  pending_logged : ∀ pb ∈ s.store.pending,
    pb.rejectCount = 0 ∧ ∃ entry ∈ logged, entry.1.hit = pb.hit
  saved : s.store.dirtyOps = 0 → savedAs s.store.pending s.disk.db

theorem Saves.savedAs {b : BlockStore} {e : Effect Unit} (h : Saves b e) (hdirty : 0 < b.dirtyOps)
    (d : Disk) (hclean : e.store.dirtyOps = 0) :
    savedAs e.store.pending (d.writeAll e.writes).db := by
  cases h with
  | skipped => simp only [done_store] at hclean; omega
  | failed h => simp only at hclean; omega
  | saved text h => exact .inr ⟨b, text, rfl, h, rfl⟩

theorem Synced.step {s : StoreState} {logged : List (PendingBlock × Str)} (h : Synced s logged)
    (op : StoreOp) : Synced (op.apply s) (logged ++ loggedBy s.store op) := by
  cases store_outcome s.store op with
  | quiet b1 ws hexec hlog hpending hdirty hws =>
    obtain ⟨hdb, htext⟩ := s.disk.writeAll_quiet hws
    rw [hlog, List.append_nil, StoreOp.apply, hexec]
    constructor
    · simpa only [htext] using h.log_text
    · exact h.printed
    · simpa only [hpending] using h.pending_logged
    · simpa only [hpending, hdirty, hdb] using h.saved
  | fresh hit reason queuedAt rejections e hexec hlog hprint hsave hws =>
    rw [hlog, StoreOp.apply, hexec]
    have hpending : e.store.pending = s.store.pending ++ [freshBlock s.store hit reason] :=
      hsave.pending
    constructor
    · simp only [Disk.writeAll_append]
      rw [Disk.writeAll, List.foldl_cons]
      have htext := hsave.log ((s.disk.writeAll rejections).write
        (.jsonl (logLine (freshBlock s.store hit reason, queuedAt) ++ ['\n'])))
      refine htext.trans ?_
      rw [Disk.log_write_jsonl, (s.disk.writeAll_quiet hws).2, h.log_text]
      simp [logText]
    · intro entry hentry
      rcases List.mem_append.mp hentry with hentry | hentry
      · exact h.printed entry hentry
      · rw [List.mem_singleton.mp hentry]
        exact hprint
    · intro pb hpb
      simp only [hpending, List.mem_append, List.mem_singleton] at hpb
      rcases hpb with hpb | rfl
      · obtain ⟨hcount, entry, hentry, hhit⟩ := h.pending_logged pb hpb
        exact ⟨hcount, entry, List.mem_append_left _ hentry, hhit⟩
      · exact ⟨rfl, _, List.mem_append_right _ (List.mem_singleton_self _), rfl⟩
    · simp only [Disk.writeAll_append]
      rw [Disk.writeAll, List.foldl_cons]
      exact hsave.savedAs (Nat.succ_pos _) _
  | update b1 e hexec hlog hkept hdirty hsave =>
    rw [hlog, List.append_nil, StoreOp.apply, hexec]
    constructor
    · simpa only [hsave.log] using h.log_text
    · exact h.printed
    · intro pb hpb
      simp only [hsave.pending] at hpb
      obtain ⟨old, hold, -, hhit, hcount⟩ := hkept.from_old pb hpb
      obtain ⟨hzero, entry, hentry, heq⟩ := h.pending_logged old hold
      exact ⟨hcount ▸ hzero, entry, hentry, heq.trans hhit⟩
    · exact hsave.savedAs hdirty _

theorem Synced.run {s : StoreState} {logged : List (PendingBlock × Str)} (h : Synced s logged)
    (ops : List StoreOp) : Synced (runOps s ops) (logged ++ loggedRun s.store ops) := by
  induction ops generalizing s logged with
  | nil => simpa [loggedRun] using h
  | cons op ops ih =>
    rw [runOps_cons, loggedRun, ← List.append_assoc]
    exact ih (h.step op)

def emptyFiles (d : Disk) : Prop := d.db.getD [] = [] ∧ d.log = []

theorem Synced.start {d : Disk} (h : emptyFiles d) : Synced { disk := d } [] where
  log_text := h.2
  printed := by simp
  pending_logged := by simp
  saved := fun _ => .inl ⟨rfl, h.1⟩

/-- The hits of the list were printed before, so only the reasons decide. -/
theorem Synced.dump_isSome {s : StoreState} {logged : List (PendingBlock × Str)}
    (h : Synced s logged) : dump (dbJson s.store) = none ↔
      ¬ ∀ pb ∈ s.store.pending, validUtf8 pb.queueReason = true := by
  have hhit : ∀ pb ∈ s.store.pending, pb.hit.utf8 = true := by
    intro pb hpb
    obtain ⟨-, entry, hentry, heq⟩ := h.pending_logged pb hpb
    have hp := h.printed entry hentry
    rw [XnMiner.printed, utf8Ok_queueRecord, Bool.and_eq_true] at hp
    exact heq ▸ hp.1
  have hall : utf8Ok (dbJson s.store) = true ↔
      ∀ pb ∈ s.store.pending, validUtf8 pb.queueReason = true := by
    rw [utf8Ok_dbJson, List.all_eq_true]
    refine forall₂_congr fun pb hpb => ?_
    rw [hhit pb hpb, Bool.true_and]
  rw [dump, ← hall]
  simp

theorem Synced.destroy_some {s : StoreState} {logged : List (PendingBlock × Str)}
    (h : Synced s logged) (hok : ∀ pb ∈ s.store.pending, validUtf8 pb.queueReason = true) :
    ∃ d, destroy s = some d ∧ d.log = logText logged ∧ savedAs s.store.pending d.db := by
  unfold destroy
  split_ifs with hdirty
  · obtain ⟨text, ht⟩ := Option.ne_none_iff_exists'.mp fun hd => h.dump_isSome.mp hd hok
    refine ⟨s.disk.write (.db text), ?_, h.log_text, .inr ⟨s.store, text, rfl, ht, rfl⟩⟩
    simp only [saveDbUnlocked, ht]
    rfl
  · exact ⟨s.disk, rfl, h.log_text, h.saved (by omega)⟩

/-- An unprintable reason terminates the process. -/
theorem Synced.destroy_none {s : StoreState} {logged : List (PendingBlock × Str)}
    (h : Synced s logged) (hbad : ¬ ∀ pb ∈ s.store.pending, validUtf8 pb.queueReason = true) :
    destroy s = none := by
  have hd := h.dump_isSome.mpr hbad
  unfold destroy
  split_ifs with hdirty
  · simp only [saveDbUnlocked, hd]
    rfl
  · exfalso
    rcases h.saved (by omega) with ⟨hnil, -⟩ | ⟨b, text, hb, ht, -⟩
    · exact hbad (by simp [hnil])
    · have hu := (dump_eq_some ht).1
      rw [utf8Ok_dbJson, hb, ← utf8Ok_dbJson] at hu
      rw [dump, if_pos hu] at hd
      cases hd

section Construction
variable (castInt : ℤ → ℤ)

theorem loadItems_saved_pending (b : BlockStore) (blocks : List PendingBlock)
    (hfin : ∀ pb ∈ blocks, pb.hit.hps.isFinite = true) :
    (loadItems castInt b (blocks.map fun pb => readBack (pendingToJson pb))).pending =
      b.pending ++ blocks.map (narrowBlock castInt) := by
  induction blocks generalizing b with
  | nil => simp [loadItems]
  | cons pb blocks ih =>
    rw [List.map_cons, loadItems_cons_saved, if_pos (hfin pb (.head _)),
      ih _ fun q hq => hfin q (.tail _ hq)]
    simp [addLoaded]

theorem loadDb_savedAs {blocks : List PendingBlock} {db : Option Str} (h : savedAs blocks db)
    (hfin : ∀ pb ∈ blocks, pb.hit.hps.isFinite = true) :
    (loadDb castInt db).pending = blocks.map (narrowBlock castInt) := by
  rcases h with ⟨rfl, hdb⟩ | ⟨b, text, rfl, ht, rfl⟩
  · cases db with
    | none => rfl
    | some text =>
      obtain rfl : text = [] := hdb
      rfl
  · rw [loadDb_saved castInt ht, loadItems_saved_pending castInt _ _ hfin]
    simp

/-- Merging clean lines changes nothing if all digests are known, and else adds blocks. -/
theorem recoverLines_logged (b : BlockStore) (logged : List (PendingBlock × Str))
    (hprint : ∀ entry ∈ logged, printed entry = true)
    (hfin : ∀ entry ∈ logged, entry.1.hit.hps.isFinite = true) :
    ∃ b', recoverLines castInt b (logged.map logLine) = some b' ∧
      ((∀ entry ∈ logged, known b entry.1) ∧ b' = b ∨
        (¬ ∀ entry ∈ logged, known b entry.1) ∧ b.pending.length < b'.pending.length) := by
  induction logged generalizing b with
  | nil => exact ⟨b, rfl, .inl ⟨by simp, rfl⟩⟩
  | cons entry logged ih =>
    rw [List.forall_mem_cons] at hprint hfin
    rw [List.map_cons, recoverLines, recoverLine_logLine castInt hprint.1, if_pos hfin.1]
    simp only [List.forall_mem_cons]
    split_ifs with hknown
    · obtain ⟨b', hb', hcase⟩ := ih b hprint.2 hfin.2
      refine ⟨b', hb', ?_⟩
      simpa only [hknown, true_and] using hcase
    · obtain ⟨b', hb', hcase⟩ := ih (addLoaded b (recoveredBlock castInt b entry.1)) hprint.2 hfin.2
      refine ⟨b', hb', .inr ⟨fun hall => hknown hall.1, ?_⟩⟩
      have hlen : (addLoaded b (recoveredBlock castInt b entry.1)).pending.length =
          b.pending.length + 1 := by simp [addLoaded]
      rcases hcase with ⟨-, rfl⟩ | ⟨-, hlt⟩ <;> omega

/-- A record without a finite hash rate makes the merge throw. -/
theorem recoverLines_throws (b : BlockStore) (logged : List (PendingBlock × Str))
    (hprint : ∀ entry ∈ logged, printed entry = true)
    (hbad : ¬ ∀ entry ∈ logged, entry.1.hit.hps.isFinite = true) :
    recoverLines castInt b (logged.map logLine) = none := by
  induction logged generalizing b with
  | nil => exact absurd (by simp) hbad
  | cons entry logged ih =>
    rw [List.forall_mem_cons] at hprint hbad
    rw [List.map_cons, recoverLines, recoverLine_logLine castInt hprint.1]
    by_cases hfin : entry.1.hit.hps.isFinite = true
    · have hrest := fun b1 => ih b1 hprint.2 fun hall => hbad ⟨hfin, hall⟩
      rw [if_pos hfin]
      split_ifs <;> exact hrest _
    · rw [if_neg hfin]
      rfl

theorem recoverJsonlUnlocked_eq (b : BlockStore) (jsonl : Option Str) :
    recoverJsonlUnlocked castInt b jsonl =
      match recoverLines castInt b (fileLines (jsonl.getD [])) with
      | none => ([], none)
      | some b' =>
        if b'.pending.length ≠ b.pending.length then
          ((saveDbUnlocked b').writes, (saveDbUnlocked b').result.map fun _ => (saveDbUnlocked b').store)
        else ([], some b') := by
  cases jsonl with
  | none => simp [recoverJsonlUnlocked, fileLines, recoverLines]
  | some text => rfl

/-- A construction that returns has the recovered list. -/
theorem construct_pending {d : Disk} {b : BlockStore} (h : (construct castInt d).2 = some b) :
    ∃ b', recoverLines castInt (loadDb castInt d.db) (fileLines d.log) = some b' ∧
      b.pending = b'.pending ∧ b.hashIndex = b'.hashIndex := by
  rw [construct, recoverJsonlUnlocked_eq] at h
  cases hr : recoverLines castInt (loadDb castInt d.db) (fileLines (d.jsonl.getD [])) with
  | none => simp [hr] at h
  | some b' =>
    refine ⟨b', hr, ?_⟩
    rw [hr] at h
    simp only at h
    split_ifs at h
    · obtain ⟨-, -, rfl⟩ := Option.map_eq_some_iff.mp h
      obtain ⟨n, hn⟩ := saveDbUnlocked_store b'
      rw [hn]
      exact ⟨rfl, rfl⟩
    · rw [← Option.some.inj h]
      exact ⟨rfl, rfl⟩

end Construction

/-- When a restart gives back the list. -/
structure RestartSafe (b : BlockStore) (logged : List (PendingBlock × Str)) : Prop where
  reasons : ∀ pb ∈ b.pending, validUtf8 pb.queueReason = true
  rates : ∀ entry ∈ logged, entry.1.hit.hps.isFinite = true
  present : ∀ entry ∈ logged, entry.1.hit.hashStr ≠ [] →
    ∃ pb ∈ b.pending, pb.hit.hashStr = entry.1.hit.hashStr
  fits : ∀ pb ∈ b.pending, toInt64 pb.id = pb.id ∧ toInt32 pb.hit.attempts = pb.hit.attempts ∧
    ∀ m, pb.hit.memoryCost = some m → toInt32 m = m

theorem narrowHit_eq_iff (hit : BlockHit) : narrowHit toInt32 hit = hit ↔
    toInt32 hit.attempts = hit.attempts ∧ ∀ m, hit.memoryCost = some m → toInt32 m = m := by
  obtain ⟨key, hash, type, attempts, strategy, hps, found, cost⟩ := hit
  cases cost <;> simp [narrowHit]

theorem Synced.narrow_eq_iff {s : StoreState} {logged : List (PendingBlock × Str)}
    (h : Synced s logged) : s.store.pending.map (narrowBlock toInt32) = s.store.pending ↔
      ∀ pb ∈ s.store.pending, toInt64 pb.id = pb.id ∧
        toInt32 pb.hit.attempts = pb.hit.attempts ∧
        ∀ m, pb.hit.memoryCost = some m → toInt32 m = m := by
  have hid : s.store.pending.map (narrowBlock toInt32) = s.store.pending ↔
      ∀ pb ∈ s.store.pending, narrowBlock toInt32 pb = pb := by
    conv_lhs => rhs; rw [← List.map_id s.store.pending]
    exact List.map_inj_left
  rw [hid]
  refine forall₂_congr fun pb hpb => ?_
  rw [← narrowHit_eq_iff]
  have hcount := (h.pending_logged pb hpb).1
  obtain ⟨id, hit, reason, count, fwd⟩ := pb
  obtain rfl : count = 0 := hcount
  have hzero : toInt32 0 = 0 := by decide
  simp [narrowBlock, hzero]

/-- The merge after an orderly destruction, when every logged rate is finite. -/
theorem Synced.construct_iff {s : StoreState} {logged : List (PendingBlock × Str)}
    (h : Synced s logged) {d : Disk} (hlog : d.log = logText logged)
    (hdb : savedAs s.store.pending d.db)
    (hrates : ∀ entry ∈ logged, entry.1.hit.hps.isFinite = true) :
    (∃ b, (construct toInt32 d).2 = some b ∧ b.pending = s.store.pending) ↔
      (∀ entry ∈ logged, entry.1.hit.hashStr ≠ [] →
        ∃ pb ∈ s.store.pending, pb.hit.hashStr = entry.1.hit.hashStr) ∧
      s.store.pending.map (narrowBlock toInt32) = s.store.pending := by
  have hfin : ∀ pb ∈ s.store.pending, pb.hit.hps.isFinite = true := by
    intro pb hpb
    obtain ⟨-, entry, hentry, heq⟩ := h.pending_logged pb hpb
    exact heq ▸ hrates entry hentry
  have hload := loadDb_savedAs toInt32 hdb hfin
  have hknown : ∀ entry, known (loadDb toInt32 d.db) entry ↔ (entry.hit.hashStr ≠ [] →
      ∃ pb ∈ s.store.pending, pb.hit.hashStr = entry.hit.hashStr) := by
    intro entry
    rw [known, (loadDb_indexed d.db).mem_iff, hload]
    by_cases hne : entry.hit.hashStr = [] <;> simp [hne]
  obtain ⟨b', hb', hcase⟩ := recoverLines_logged toInt32 (loadDb toInt32 d.db) logged h.printed hrates
  rw [← fileLines_logText, ← hlog] at hb'
  simp only [hknown] at hcase
  constructor
  · rintro ⟨b, hb, heq⟩
    obtain ⟨b1, hb1, hpending, -⟩ := construct_pending toInt32 hb
    obtain rfl : b' = b1 := Option.some.inj (hb'.symm.trans hb1)
    rcases hcase with ⟨hall, rfl⟩ | ⟨-, hlt⟩
    · exact ⟨hall, hload.symm.trans (hpending.symm.trans heq)⟩
    · exfalso
      rw [← hpending, heq, hload, List.length_map] at hlt
      omega
  · rintro ⟨hall, hnarrow⟩
    obtain ⟨-, rfl⟩ : _ ∧ b' = loadDb toInt32 d.db := hcase.resolve_right fun hc => hc.1 hall
    refine ⟨loadDb toInt32 d.db, ?_, by rw [hload, hnarrow]⟩
    have hsame : recoverLines toInt32 (loadDb toInt32 d.db) (fileLines (d.jsonl.getD [])) =
        some (loadDb toInt32 d.db) := hb'
    rw [construct, recoverJsonlUnlocked_eq, hsame]
    simp

theorem Synced.restart_iff {s : StoreState} {logged : List (PendingBlock × Str)}
    (h : Synced s logged) :
    (∃ s', restart toInt32 s = some s' ∧ s'.store.pending = s.store.pending) ↔
      RestartSafe s.store logged := by
  by_cases hreasons : ∀ pb ∈ s.store.pending, validUtf8 pb.queueReason = true
  · obtain ⟨d, hd, hlog, hdb⟩ := h.destroy_some hreasons
    have hrestart : (∃ s', restart toInt32 s = some s' ∧ s'.store.pending = s.store.pending) ↔
        ∃ b, (construct toInt32 d).2 = some b ∧ b.pending = s.store.pending := by
      simp only [restart, hd, Option.bind_some, Option.map_eq_some_iff]
      constructor
      · rintro ⟨s', ⟨b, hb, rfl⟩, heq⟩
        exact ⟨b, hb, heq⟩
      · rintro ⟨b, hb, heq⟩
        exact ⟨_, ⟨b, hb, rfl⟩, heq⟩
    rw [hrestart]
    by_cases hrates : ∀ entry ∈ logged, entry.1.hit.hps.isFinite = true
    · rw [h.construct_iff hlog hdb hrates, h.narrow_eq_iff]
      exact ⟨fun hs => ⟨hreasons, hrates, hs.1, hs.2⟩, fun hs => ⟨hs.present, hs.fits⟩⟩
    · refine iff_of_false ?_ fun hs => hrates hs.rates
      rintro ⟨b, hb, -⟩
      obtain ⟨b1, hb1, -⟩ := construct_pending toInt32 hb
      rw [hlog, fileLines_logText, recoverLines_throws toInt32 _ _ h.printed hrates] at hb1
      cases hb1
  · refine iff_of_false ?_ fun hs => hreasons hs.reasons
    rintro ⟨s', hs', -⟩
    rw [restart, h.destroy_none hreasons] at hs'
    cases hs'

/-- After any run from empty files, a restart gives back the list if and only if the
condition holds of the list and the log lines of the run. -/
theorem restart_round_trip (d : Disk) (h : emptyFiles d) (ops : List StoreOp) :
    (∃ s', restart toInt32 (runOps { disk := d } ops) = some s' ∧
      s'.store.pending = (runOps { disk := d } ops).store.pending) ↔
      RestartSafe (runOps { disk := d } ops).store (loggedRun {} ops) := by
  have hrun := (Synced.start h).run ops
  rw [List.nil_append] at hrun
  exact hrun.restart_iff

/-- A constructed store on empty files is the empty store. -/
theorem construct_emptyFiles (d : Disk) (h : emptyFiles d) :
    construct toInt32 d = ([], some {}) := by
  have hload : loadDb toInt32 d.db = {} := by
    obtain ⟨db, jsonl, rejected⟩ := d
    cases db with
    | none => rfl
    | some text =>
      obtain rfl : text = [] := h.1
      rfl
  have hlog : d.jsonl.getD [] = [] := h.2
  rw [construct, hload, recoverJsonlUnlocked_eq, hlog]
  rfl

def plainHit : BlockHit :=
  { key := "k".toList, hashStr := "h".toList, blockType := "XNM".toList, attempts := 1,
    strategy := "random".toList, hps := zeroDouble, foundAt := [], memoryCost := some 100 }

def submittedRun : List StoreOp := [.enqueue plainHit [] [], .markSubmitted 1]

theorem restart_resurrects : ¬ ∀ ops, ∃ s', restart toInt32 (runOps {} ops) = some s' ∧
    s'.store.pending = (runOps {} ops).store.pending := by
  intro hall
  obtain ⟨s', hs', heq⟩ := hall submittedRun
  have hback : (restart toInt32 (runOps {} submittedRun)).map (fun s => s.store.pending.length) =
      some 1 := by decide +kernel
  have hgone : (runOps {} submittedRun).store.pending = [] := by decide +kernel
  rw [hs', Option.map_some, heq, hgone] at hback
  cases hback

theorem restart_round_trip_run : ∃ s', restart toInt32 (runOps {} [.enqueue plainHit [] []]) =
    some s' ∧ s'.store.pending = (runOps {} [.enqueue plainHit [] []]).store.pending := by
  refine (restart_round_trip {} ⟨rfl, rfl⟩ [.enqueue plainHit [] []]).mpr ⟨?_, ?_, ?_, ?_⟩
  · decide +kernel
  · decide +kernel
  · decide +kernel
  · decide +kernel

end XnMiner
