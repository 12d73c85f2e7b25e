import XnMiner.Queue.Crash

/-! # Durability of acknowledged blocks

In memory a block leaves the list only by its id; across a crash the merge finds
its whole line in the log, whatever is left of the db file.
-/
namespace XnMiner
open TextCodec Transitions

theorem acknowledgedEnqueue_logged {b : BlockStore} {hit : BlockHit} {reason queuedAt h : Str}
    (hh : h ∈ acknowledgedEnqueue b hit reason queuedAt) :
    h ≠ [] ∧ ∃ entry ∈ loggedByEnqueue b hit reason queuedAt, entry.1.hit.hashStr = h := by
  unfold acknowledgedEnqueue at hh
  split at hh
  · next id hid =>
    split_ifs at hh with hne
    · obtain rfl := Finset.mem_singleton.mp hh
      refine ⟨hne.2, (freshBlock b hit reason, queuedAt), ?_, rfl⟩
      have hcases := enqueue_cases b hit reason queuedAt
      generalize enqueue b hit reason queuedAt = e at hcases hid
      cases hcases with
      | duplicate => exact absurd (Option.some.inj hid).symm hne.1
      | unprinted => cases hid
      | added hd ht =>
        rw [loggedByEnqueue, if_neg hd, if_neg (by simp [ht])]
        exact List.mem_singleton_self _
    · cases hh
  · cases hh

theorem acknowledged_logged {b : BlockStore} {op : StoreOp} {h : Str}
    (hh : h ∈ acknowledged b op) :
    h ≠ [] ∧ ∃ entry ∈ loggedBy b op, entry.1.hit.hashStr = h := by
  cases op with
  | enqueue hit reason queuedAt => exact acknowledgedEnqueue_logged hh
  | recordRejection hit httpStatus body source reason now =>
    simp only [acknowledged] at hh
    simp only [loggedBy]
    split_ifs at hh ⊢
    · cases hh
    · exact acknowledgedEnqueue_logged hh
  | _ => cases hh

/-- The lines of the log only grow, and every entry of the operation has its line. -/
theorem mem_fileLines_exec {b : BlockStore} {op : StoreOp} {d : Disk}
    (hsafe : ∀ entry ∈ loggedBy b op, terminated d.log = true ∧
      entry.1.hit.hps.isFinite = true) :
    ∀ entry ∈ loggedBy b op, goodEntry entry ∧
      logLine entry ∈ fileLines (d.writeAll (op.exec b).2).log := by
  cases store_outcome b op with
  | quiet b1 ws hexec hlog hpending hdirty hws => simp [hlog]
  | update b1 e hexec hlog hkept hdirty hsave => simp [hlog]
  | fresh hit reason queuedAt rejections e hexec hlog hprint hsave hws =>
    rw [hlog] at hsafe
    obtain ⟨hterm, hfin⟩ := hsafe _ (List.mem_singleton_self _)
    intro entry hentry
    rw [hlog, List.mem_singleton] at hentry
    subst hentry
    refine ⟨⟨hprint, hfin⟩, ?_⟩
    rw [hexec]
    simp only [Disk.writeAll_append]
    rw [Disk.writeAll, List.foldl_cons]
    have htext := hsave.log ((d.writeAll rejections).write
      (.jsonl (logLine (freshBlock b hit reason, queuedAt) ++ ['\n'])))
    refine (congrArg (logLine _ ∈ fileLines ·) htext).mpr ?_
    rw [Disk.log_write_jsonl, (d.writeAll_quiet hws).2, fileLines_append hterm,
      fileLines_line (newline_not_mem_logLine _)]
    exact List.mem_append_right _ (.head _)

theorem DiskInv.op {s : StoreState} {owed : Finset Str} (h : DiskInv s.disk owed) {op : StoreOp}
    (hsafe : ∀ entry ∈ loggedBy s.store op, terminated s.disk.log = true ∧
      entry.1.hit.hps.isFinite = true) :
    DiskInv (op.apply s).disk (owed ∪ acknowledged s.store op) := by
  have hnext : DiskInv (op.apply s).disk owed := h.writeAll (goodWrites_exec hsafe)
  refine ⟨hnext.db, hnext.lines, fun x hx => ?_⟩
  rcases Finset.mem_union.mp hx with hold | hnew
  · exact hnext.owed x hold
  · obtain ⟨hne, entry, hentry, rfl⟩ := acknowledged_logged hnew
    obtain ⟨hgood, hmem⟩ := mem_fileLines_exec hsafe entry hentry
    exact ⟨entry, hgood, hmem, rfl, hne⟩

/-- In memory, a block leaves the list only if its id was passed to the operation. -/
theorem owed_pending {s : StoreState} {owed : Finset Str} (op : StoreOp)
    (h : owed ⊆ hashesOf s.store.pending) :
    (owed ∪ acknowledged s.store op) \ discharged s.store op ⊆
      hashesOf (op.apply s).store.pending := by
  intro x hx
  obtain ⟨hx, hout⟩ := Finset.mem_sdiff.mp hx
  rw [StoreOp.apply]
  cases store_outcome s.store op with
  | quiet b1 ws hexec hlog hpending hdirty hws =>
    rw [hexec, hpending]
    rcases Finset.mem_union.mp hx with hold | hnew
    · exact h hold
    · obtain ⟨-, entry, hentry, -⟩ := acknowledged_logged hnew
      rw [hlog] at hentry
      cases hentry
  | fresh hit reason queuedAt rejections e hexec hlog hprint hsave hws =>
    have hpending : e.store.pending = s.store.pending ++ [freshBlock s.store hit reason] :=
      hsave.pending
    rw [hexec, hpending, hashesOf_append]
    rcases Finset.mem_union.mp hx with hold | hnew
    · exact Finset.mem_union_left _ (h hold)
    · obtain ⟨hne, entry, hentry, rfl⟩ := acknowledged_logged hnew
      rw [hlog, List.mem_singleton] at hentry
      subst hentry
      exact Finset.mem_union_right _ (mem_hashesOf.mpr ⟨hne, _, List.mem_singleton_self _, rfl⟩)
  | update b1 e hexec hlog hkept hdirty hsave =>
    rw [hexec]
    simp only [hsave.pending]
    rcases Finset.mem_union.mp hx with hold | hnew
    · obtain ⟨hne, pb, hpb, rfl⟩ := mem_hashesOf.mp (h hold)
      have hid : pb.id ∉ op.removes := fun hid => hout <| mem_hashesOf.mpr
        ⟨hne, pb, List.mem_filter.mpr ⟨hpb, by simpa using hid⟩, rfl⟩
      obtain ⟨pb', hpb', -, hhit⟩ := hkept.to_new pb hpb hid
      exact mem_hashesOf.mpr ⟨hne, pb', hpb', by rw [hhit]⟩
    · obtain ⟨-, entry, hentry, -⟩ := acknowledged_logged hnew
      rw [hlog] at hentry
      cases hentry

def printable (b : BlockStore) : Prop :=
  ∀ pb ∈ b.pending, pb.hit.utf8 = true ∧ validUtf8 pb.queueReason = true

theorem dump_of_printable {b : BlockStore} (h : printable b) : ∃ text, dump (dbJson b) = some text := by
  have hu : utf8Ok (dbJson b) = true := by
    rw [utf8Ok_dbJson, List.all_eq_true]
    intro pb hpb
    rw [(h pb hpb).1, (h pb hpb).2]
    rfl
  exact ⟨_, if_pos hu⟩

theorem printable_addLoaded {b : BlockStore} (h : printable b) {pb : PendingBlock}
    (hhit : pb.hit.utf8 = true) (hreason : validUtf8 pb.queueReason = true) :
    printable (addLoaded b pb) := by
  intro q hq
  simp only [addLoaded, List.mem_append, List.mem_singleton] at hq
  rcases hq with hq | rfl
  · exact h q hq
  · exact ⟨hhit, hreason⟩

theorem printable_loadItems (blocks : List PendingBlock) {b : BlockStore} (h : printable b)
    (hblocks : ∀ pb ∈ blocks, pb.hit.utf8 = true ∧ validUtf8 pb.queueReason = true) :
    printable (loadItems toInt32 b (blocks.map fun pb => readBack (pendingToJson pb))) := by
  induction blocks generalizing b with
  | nil => exact h
  | cons pb blocks ih =>
    rw [List.map_cons, loadItems_cons_saved]
    rw [List.forall_mem_cons] at hblocks
    split_ifs
    · exact ih (printable_addLoaded (b := { b with nextId := b.nextId + 1 }) h hblocks.1.1
        hblocks.1.2) hblocks.2
    · exact h

theorem printable_loadDb {db : Option Str} (h : ∀ text, db = some text → goodDb text) :
    printable (loadDb toInt32 db) := by
  cases db with
  | none => exact fun pb hpb => by cases hpb
  | some text =>
    obtain ⟨b, full, hd, hp⟩ := h text rfl
    by_cases hne : text = full
    · subst hne
      rw [loadDb_saved toInt32 hd]
      refine printable_loadItems _ (fun pb hpb => by cases hpb) fun pb hpb => ?_
      have hu := (dump_eq_some hd).1
      rw [utf8Ok_dbJson, List.all_eq_true] at hu
      simpa using hu pb hpb
    · rw [loadDb_torn toInt32 hd hp hne]
      exact fun pb hpb => by cases hpb

/-- One good line: the merge goes on, and a whole line leaves its digest in the index. -/
theorem recoverLine_good {b : BlockStore} (hb : printable b) {line : Str}
    {entry : PendingBlock × Str} (hentry : goodEntry entry) (hp : line <+: logLine entry) :
    ∃ b', recoverLine toInt32 b line = some b' ∧ printable b' := by
  by_cases hne : line = logLine entry
  · rw [hne, recoverLine_logLine toInt32 hentry.1, if_pos hentry.2]
    split_ifs
    · exact ⟨b, rfl, hb⟩
    · have hu := hentry.1
      rw [printed, utf8Ok_queueRecord, Bool.and_eq_true, Bool.and_eq_true] at hu
      exact ⟨_, rfl, printable_addLoaded hb hu.1 hu.2.2⟩
  · exact ⟨b, recoverLine_torn toInt32 hentry.1 hp hne b, hb⟩

theorem recoverLine_indexes {b b' : BlockStore} {entry : PendingBlock × Str}
    (hentry : goodEntry entry) (hne : entry.1.hit.hashStr ≠ [])
    (h : recoverLine toInt32 b (logLine entry) = some b') : entry.1.hit.hashStr ∈ b'.hashIndex := by
  rw [recoverLine_logLine toInt32 hentry.1, if_pos hentry.2] at h
  split_ifs at h with hknown
  · rw [← Option.some.inj h]
    exact hknown.resolve_left hne
  · rw [← Option.some.inj h]
    simp [addLoaded, recoveredBlock, hne]

theorem recoverLines_good {b : BlockStore} (hb : printable b) {lines : List Str}
    (hlines : ∀ line ∈ lines, ∃ entry, goodEntry entry ∧ line <+: logLine entry) :
    ∃ b', recoverLines toInt32 b lines = some b' ∧ printable b' ∧
      ∀ entry, goodEntry entry → entry.1.hit.hashStr ≠ [] → logLine entry ∈ lines →
        entry.1.hit.hashStr ∈ b'.hashIndex := by
  induction lines generalizing b with
  | nil => exact ⟨b, rfl, hb, by simp⟩
  | cons line lines ih =>
    rw [List.forall_mem_cons] at hlines
    obtain ⟨⟨e, he, hp⟩, hrest⟩ := hlines
    obtain ⟨b1, h1, hb1⟩ := recoverLine_good hb he hp
    obtain ⟨b', hb', hprint, hindex⟩ := ih hb1 hrest
    refine ⟨b', by rw [recoverLines, h1]; exact hb', hprint, fun entry hentry hne hmem => ?_⟩
    rcases List.mem_cons.mp hmem with rfl | hmem
    · exact (extends_recoverLines hb').index_subset (recoverLine_indexes hentry hne h1)
    · exact hindex entry hentry hne hmem

/-- The constructor on good files returns, with everything owed, and its writes are good. -/
theorem DiskInv.construct {d : Disk} {owed : Finset Str} (h : DiskInv d owed) :
    ∃ b, (construct toInt32 d).2 = some b ∧ owed ⊆ hashesOf b.pending ∧
      GoodWrites d (construct toInt32 d).1 := by
  obtain ⟨b', hb', hprint, hindex⟩ := recoverLines_good (printable_loadDb h.db) h.lines
  have hindexed : Indexed b' := (extends_recoverLines hb').indexed (loadDb_indexed d.db)
  have howed : owed ⊆ hashesOf b'.pending := by
    intro x hx
    obtain ⟨entry, hentry, hmem, rfl, hne⟩ := h.owed x hx
    rw [← hindexed]
    exact hindex entry hentry hne hmem
  have hlines : recoverLines toInt32 (loadDb toInt32 d.db) (fileLines (d.jsonl.getD [])) =
      some b' := hb'
  rw [XnMiner.construct, recoverJsonlUnlocked_eq, hlines]
  simp only
  split_ifs
  · obtain ⟨text, ht⟩ := dump_of_printable hprint
    refine ⟨{ b' with dirtyOps := 0 }, ?_, howed, (saves_saveDbUnlocked b').goodWrites d⟩
    simp only [saveDbUnlocked, ht, Option.map_some]
  · exact ⟨b', rfl, howed, .nil d⟩

structure Session.Inv (s : Session) (d : Disk) : Prop where
  disk : DiskInv d s.owed
  phase : s.phase = .down d ∨
    ∃ b, s.phase = .running { store := b, disk := d } ∧ s.owed ⊆ hashesOf b.pending

theorem DiskInv.start {d : Disk} (h : emptyFiles d) : DiskInv d ∅ where
  db := by
    intro text ht
    have hdb := h.1
    rw [ht] at hdb
    obtain rfl : text = [] := hdb
    exact goodDb_nil
  lines := by simp [h.2, fileLines]
  owed := by simp

theorem session_step {s t : Session} {a : SessionAction} {d : Disk} (h : s.Inv d) (hsafe : a.safe s)
    (hs : sessionMachine.step s a t) : ∃ d', t.Inv d' := by
  obtain ⟨phase, owed⟩ := s
  obtain ⟨hdisk, rfl | ⟨b, rfl, hpending⟩⟩ := h
  · cases a with
    | op op => exact hs.elim
    | crash op n torn => exact hs.elim
    | restart =>
      obtain ⟨b, hb, rfl⟩ := hs
      obtain ⟨b', hb', howed, hwrites⟩ := hdisk.construct
      obtain rfl : b = b' := Option.some.inj (hb.symm.trans hb')
      exact ⟨_, hdisk.writeAll hwrites, .inr ⟨b, rfl, howed⟩⟩
    | crashRestart n torn =>
      obtain rfl := hs
      obtain ⟨-, -, -, hwrites⟩ := hdisk.construct
      exact ⟨_, hdisk.crash hwrites n torn, .inl rfl⟩
  · cases a with
    | op op =>
      obtain rfl := hs
      refine ⟨(op.apply { store := b, disk := d }).disk, ?_, .inr ⟨_, rfl, ?_⟩⟩
      · exact (DiskInv.op (s := { store := b, disk := d }) hdisk hsafe).mono Finset.sdiff_subset
      · exact owed_pending (s := { store := b, disk := d }) op hpending
    | crash op n torn =>
      obtain rfl := hs
      exact ⟨_, (hdisk.crash (goodWrites_exec hsafe) n torn).mono Finset.sdiff_subset, .inl rfl⟩
    | restart => exact hs.elim
    | crashRestart n torn => exact hs.elim

theorem Session.Inv.durable {s : Session} {d : Disk} (h : s.Inv d) : s.durable := by
  obtain ⟨phase, owed⟩ := s
  obtain ⟨hdisk, rfl | ⟨b, rfl, hpending⟩⟩ := h
  · obtain ⟨b, hb, howed, -⟩ := hdisk.construct
    exact ⟨b, hb, howed⟩
  · exact hpending

/-- Runs whose log lines all start on their own lose no acknowledged block. -/
theorem bag_durable (s : Session)
    (hs : (sessionMachine.restrict fun s a => a.safe s).Reachable s) : s.durable := by
  have hinv : ∃ d, s.Inv d := by
    refine Machine.Reachable.invariant (I := fun s => ∃ d, s.Inv d) ?_ ?_ hs
    · rintro s ⟨d, hd, rfl⟩
      exact ⟨d, DiskInv.start hd, .inl rfl⟩
    · rintro s a t - ⟨d, hinv⟩ ⟨hsafe, hst⟩
      exact session_step hinv hsafe hst
  obtain ⟨d, hinv⟩ := hinv
  exact hinv.durable

theorem session_op (s : StoreState) (owed : Finset Str) (op : StoreOp) :
    sessionMachine.step { phase := .running s, owed := owed } (.op op)
      { phase := .running (op.apply s)
        owed := (owed ∪ acknowledged s.store op) \ discharged s.store op } := rfl

theorem session_crash (s : StoreState) (owed : Finset Str) (op : StoreOp) (n : ℕ)
    (torn : Option ℕ) :
    sessionMachine.step { phase := .running s, owed := owed } (.crash op n torn)
      { phase := .down (s.disk.crash (op.exec s.store).2 n torn)
        owed := owed \ discharged s.store op } := rfl

def secondHit : BlockHit := { plainHit with hashStr := "g".toList }

/-- The files after an enqueue was cut at its fifth byte. -/
def tornDisk : Disk := { jsonl := some ((logLine (freshBlock {} plainHit [], [])).take 5) }

def tornNext : StoreState :=
  (StoreOp.enqueue secondHit [] []).apply { store := {}, disk := tornDisk }

theorem reachable_tornNext : sessionMachine.Reachable
    { phase := .down tornNext.disk, owed := {secondHit.hashStr} } := by
  have h0 : sessionMachine.Reachable { phase := .down {}, owed := ∅ } :=
    .start ⟨{}, ⟨rfl, rfl⟩, rfl⟩
  have hempty : construct toInt32 {} = ([], some {}) := construct_emptyFiles {} ⟨rfl, rfl⟩
  have h1 : sessionMachine.Reachable { phase := .running {}, owed := ∅ } :=
    h0.next (a := .restart) ⟨{}, by rw [hempty], by rw [hempty]; rfl⟩
  have h2 := h1.next (session_crash _ _ (.enqueue plainHit [] []) 0 (some 5))
  have hcut : ({} : Disk).crash ((StoreOp.enqueue plainHit [] []).exec {}).2 0 (some 5) =
      tornDisk := by decide +kernel
  have hnone : (∅ : Finset Str) \ discharged {} (.enqueue plainHit [] []) = ∅ := by decide +kernel
  rw [hcut, hnone] at h2
  have htorn : construct toInt32 tornDisk = ([], some {}) := by decide +kernel
  have h3 : sessionMachine.Reachable
      { phase := .running { store := {}, disk := tornDisk }, owed := ∅ } :=
    h2.next (a := .restart) ⟨{}, by rw [htorn], by rw [htorn]; rfl⟩
  have h4 := h3.next (session_op _ _ (.enqueue secondHit [] []))
  have howed : (∅ ∪ acknowledged {} (.enqueue secondHit [] [])) \
      discharged {} (.enqueue secondHit [] []) = {secondHit.hashStr} := by decide +kernel
  rw [howed] at h4
  have h5 := h4.next (session_crash _ _ .flush 0 none)
  have hflush : ({secondHit.hashStr} : Finset Str) \ discharged tornNext.store .flush =
      {secondHit.hashStr} := by decide +kernel
  exact hflush ▸ h5

/-- The glued line is skipped and the db file was not yet written. -/
theorem bag_not_durable : ¬ ∀ s, sessionMachine.Reachable s → s.durable := by
  intro hall
  obtain ⟨b, hb, hsub⟩ := hall _ reachable_tornNext
  have hlost : (construct toInt32 tornNext.disk).2 = some {} := by decide +kernel
  obtain rfl : {} = b := Option.some.inj (hlost.symm.trans hb)
  exact absurd (hsub (Finset.mem_singleton_self _)) (by decide +kernel)

/-- An acknowledged enqueue survives a crash inside the next save. -/
theorem bag_durable_run : Session.durable
    { phase := .down (((StoreOp.enqueue plainHit [] []).apply {}).disk.crash
        (StoreOp.flush.exec ((StoreOp.enqueue plainHit [] []).apply {}).store).2 0 (some 3))
      owed := {plainHit.hashStr} } := by
  have h0 : (sessionMachine.restrict fun s a => a.safe s).Reachable
      { phase := .down {}, owed := ∅ } := .start ⟨{}, ⟨rfl, rfl⟩, rfl⟩
  have hempty : construct toInt32 {} = ([], some {}) := construct_emptyFiles {} ⟨rfl, rfl⟩
  have h1 : (sessionMachine.restrict fun s a => a.safe s).Reachable
      { phase := .running {}, owed := ∅ } :=
    h0.next (a := .restart) ⟨trivial, {}, by rw [hempty], by rw [hempty]; rfl⟩
  have hsafe : ∀ entry ∈ loggedBy {} (.enqueue plainHit [] []),
      terminated [] = true ∧ entry.1.hit.hps.isFinite = true := by decide +kernel
  have h2 := h1.next_restrict (session_op _ _ (.enqueue plainHit [] [])) hsafe
  have howed : (∅ ∪ acknowledged {} (.enqueue plainHit [] [])) \
      discharged {} (.enqueue plainHit [] []) = {plainHit.hashStr} := by decide +kernel
  rw [howed] at h2
  have h3 := h2.next_restrict (session_crash _ _ .flush 0 (some 3))
    fun entry hentry => by cases hentry
  have hflush : ({plainHit.hashStr} : Finset Str) \
      discharged ((StoreOp.enqueue plainHit [] []).apply {}).store .flush =
      {plainHit.hashStr} := by decide +kernel
  rw [hflush] at h3
  exact bag_durable _ h3

end XnMiner
