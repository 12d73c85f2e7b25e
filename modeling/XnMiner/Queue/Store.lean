import XnMiner.Queue.Policy
import XnMiner.Queue.Codec
import Mathlib.Data.Finset.SDiff
import Mathlib.Data.Finset.Insert

/-! # The bag: `BlockStore` and its files

Every public operation holds the store's mutex, so each is one function of the
members. It returns the new members, the file writes it makes in their order, and
its result: `none` if it threw, since an exception keeps what was done before it.
-/
namespace XnMiner
open TextCodec

structure PendingBlock where
  id : ℤ := 0
  hit : BlockHit
  queueReason : Str := []
  rejectCount : ℤ := 0
  forwarded : Bool := false
  deriving DecidableEq

structure BlockStore where
  pending : List PendingBlock := []
  hashIndex : Finset Str := ∅
  nextId : ℤ := 1
  dirtyOps : ℕ := 0
  deriving DecidableEq

structure Disk where
  db : Option Str := none
  jsonl : Option Str := none
  rejected : Option Str := none
  deriving DecidableEq

inductive Write where
  | db (text : Str)
  | jsonl (text : Str)
  | rejected (text : Str)
  deriving DecidableEq

def Disk.write (d : Disk) (w : Write) : Disk :=
  match w with
  | .db text => { d with db := some text }
  | .jsonl text => { d with jsonl := some (d.jsonl.getD [] ++ text) }
  | .rejected text => { d with rejected := some (d.rejected.getD [] ++ text) }

def Disk.writeAll (d : Disk) (ws : List Write) : Disk := ws.foldl Disk.write d

/-- What an operation does: members, writes, and its value unless it threw. -/
structure Effect (α : Type) where
  store : BlockStore
  writes : List Write
  result : Option α

def Effect.andThen {α β : Type} (e : Effect α) (f : BlockStore → α → Effect β) : Effect β :=
  match e.result with
  | none => { store := e.store, writes := e.writes, result := none }
  | some a =>
    let r := f e.store a
    { r with writes := e.writes ++ r.writes }

def Effect.footprint {α : Type} (e : Effect α) : BlockStore × List Write := (e.store, e.writes)

def done {α : Type} (b : BlockStore) (a : α) : Effect α :=
  { store := b, writes := [], result := some a }

def kSaveEveryOps : ℕ := 8

def hashesOf (blocks : List PendingBlock) : Finset Str :=
  ((blocks.map fun pb => pb.hit.hashStr).filter fun h => h ≠ []).toFinset

@[simp] theorem mem_hashesOf {blocks : List PendingBlock} {h : Str} :
    h ∈ hashesOf blocks ↔ h ≠ [] ∧ ∃ pb ∈ blocks, pb.hit.hashStr = h := by
  simp only [hashesOf, List.mem_toFinset, List.mem_filter, List.mem_map, decide_eq_true_eq]
  exact and_comm

def pendingToJson (pb : PendingBlock) : Json :=
  .obj ([("id".toList, Json.ofInt pb.id), ("queue_reason".toList, .str pb.queueReason),
    ("reject_count".toList, .ofInt pb.rejectCount), ("forwarded".toList, .bool pb.forwarded)].foldl
      (fun fs kv => setField fs kv.1 kv.2) (hitToJson pb.hit))

def dbJson (b : BlockStore) : Json :=
  .obj [("next_id".toList, .ofInt b.nextId), ("pending".toList, .arr (b.pending.map pendingToJson))]

def queueRecord (pb : PendingBlock) (queuedAt : Str) : Json :=
  .obj ([("queued_at".toList, Json.str queuedAt), ("reason".toList, .str pb.queueReason),
    ("id".toList, .ofInt pb.id)].foldl (fun fs kv => setField fs kv.1 kv.2) (hitToJson pb.hit))

def rejectionRecord (hit : BlockHit) (httpStatus : ℤ) (body source rejectedAt : Str) : Json :=
  .obj ([("rejected_at".toList, Json.str rejectedAt), ("http_status".toList, .ofInt httpStatus),
    ("response_body".toList, .str body), ("source".toList, .str source),
    ("category".toList, .str "resubmission".toList)].foldl (fun fs kv => setField fs kv.1 kv.2)
      (hitToJson hit))

/-- The db file is truncated before the document is printed. -/
def saveDbUnlocked (b : BlockStore) : Effect Unit :=
  match dump (dbJson b) with
  | none => { store := b, writes := [.db []], result := none }
  | some text => { store := { b with dirtyOps := 0 }, writes := [.db text], result := some () }

def markDirtyUnlocked (b : BlockStore) : BlockStore := { b with dirtyOps := b.dirtyOps + 1 }

def maybeSaveUnlocked (b : BlockStore) : Effect Unit :=
  if kSaveEveryOps ≤ b.dirtyOps then saveDbUnlocked b else done b ()

/-- One line of a log; the file is opened before the record is printed. -/
def appendLine (b : BlockStore) (file : Str → Write) (record : Json) : Effect Unit :=
  match dump record with
  | none => { store := b, writes := [file []], result := none }
  | some text => { store := b, writes := [file (text ++ ['\n'])], result := some () }

def appendQueueJsonl (b : BlockStore) (pb : PendingBlock) (queuedAt : Str) : Effect Unit :=
  appendLine b .jsonl (queueRecord pb queuedAt)

def freshBlock (b : BlockStore) (hit : BlockHit) (reason : Str) : PendingBlock :=
  { id := b.nextId, hit, queueReason := reason, forwarded := false }

/-- The id counter and the hash index are updated before the log is written. -/
def claimId (b : BlockStore) (hit : BlockHit) : BlockStore :=
  { b with
    nextId := b.nextId + 1
    hashIndex := if hit.hashStr ≠ [] then insert hit.hashStr b.hashIndex else b.hashIndex }

def pushBlock (b : BlockStore) (pb : PendingBlock) : BlockStore :=
  { b with pending := b.pending ++ [pb] }

def isDuplicate (b : BlockStore) (hit : BlockHit) : Prop :=
  hit.hashStr ≠ [] ∧ hit.hashStr ∈ b.hashIndex

instance (b : BlockStore) (hit : BlockHit) : Decidable (isDuplicate b hit) :=
  inferInstanceAs (Decidable (_ ∧ _))

/-- Zero is the answer for a duplicate. -/
def enqueueUnlocked (b : BlockStore) (hit : BlockHit) (reason : Str) (writeJsonl : Bool)
    (queuedAt : Str) : Effect ℤ :=
  if isDuplicate b hit then done b 0
  else
    let pb := freshBlock b hit reason
    (if writeJsonl then appendQueueJsonl (claimId b hit) pb queuedAt
      else done (claimId b hit) ()).andThen fun b1 _ =>
    (maybeSaveUnlocked (markDirtyUnlocked (pushBlock b1 pb))).andThen fun b2 _ =>
    done b2 pb.id

def enqueue (b : BlockStore) (hit : BlockHit) (reason queuedAt : Str) : Effect ℤ :=
  enqueueUnlocked b hit reason true queuedAt

def logRejection (b : BlockStore) (hit : BlockHit) (httpStatus : ℤ) (body source rejectedAt : Str) :
    Effect Unit :=
  appendLine b .rejected (rejectionRecord hit httpStatus body source rejectedAt)

/-- The answer is true whether or not the hit was a duplicate. -/
def recordRejection (b : BlockStore) (hit : BlockHit) (httpStatus : ℤ)
    (body source reason now : Str) : Effect Bool :=
  (logRejection b hit httpStatus body source now).andThen fun b1 _ =>
  (enqueue b1 hit reason now).andThen fun b2 _ =>
  done b2 true

/-- `remove_if` on one id; the hashes of the removed blocks leave the index. -/
def eraseId (b : BlockStore) (id : ℤ) : BlockStore :=
  { b with
    pending := b.pending.filter fun pb => pb.id ≠ id
    hashIndex := b.hashIndex \ hashesOf (b.pending.filter fun pb => pb.id = id) }

def eraseIds (b : BlockStore) (ids : List ℤ) : BlockStore := ids.foldl eraseId b

def markSubmittedMany (b : BlockStore) (ids : List ℤ) : Effect Unit :=
  if ids = [] then done b () else saveDbUnlocked (markDirtyUnlocked (eraseIds b ids))

def markSubmitted (b : BlockStore) (id : ℤ) : Effect Unit := markSubmittedMany b [id]

def modifyFirst {α : Type} (p : α → Bool) (f : α → α) (xs : List α) : List α :=
  match xs with
  | [] => []
  | x :: xs => if p x then f x :: xs else x :: modifyFirst p f xs

def setReason (b : BlockStore) (id : ℤ) (reason : Str) : BlockStore :=
  { b with pending :=
      modifyFirst (fun pb => pb.id == id) (fun pb => { pb with queueReason := reason }) b.pending }

def markPendingReason (b : BlockStore) (id : ℤ) (reason : Str) : Effect Unit :=
  maybeSaveUnlocked (markDirtyUnlocked (setReason b id reason))

def setForwarded (b : BlockStore) (id : ℤ) : BlockStore :=
  { b with pending :=
      modifyFirst (fun pb => pb.id == id) (fun pb => { pb with forwarded := true }) b.pending }

def markForwardedMany (b : BlockStore) (ids : List ℤ) : Effect Unit :=
  if ids = [] then done b () else saveDbUnlocked (markDirtyUnlocked (ids.foldl setForwarded b))

def deferReason (minute : ℕ) (pb : PendingBlock) : Str :=
  if pb.hit.blockType = "XUNI".toList ∧ inXuniSubmitWindow minute = false then
    OUTSIDE_XUNI_WINDOW_REASON
  else SHUTDOWN_PENDING_REASON

def deferAll (b : BlockStore) (minute : ℕ) : BlockStore :=
  { b with pending := b.pending.map fun pb => { pb with queueReason := deferReason minute pb } }

def deferAllToNextStart (b : BlockStore) (minute : ℕ) : Effect Unit :=
  saveDbUnlocked (markDirtyUnlocked (deferAll b minute))

def flush (b : BlockStore) : Effect Unit :=
  if 0 < b.dirtyOps then saveDbUnlocked b else done b ()

@[simp] theorem done_store {α : Type} (b : BlockStore) (a : α) : (done b a).store = b := rfl
@[simp] theorem done_writes {α : Type} (b : BlockStore) (a : α) : (done b a).writes = [] := rfl
@[simp] theorem done_result {α : Type} (b : BlockStore) (a : α) : (done b a).result = some a := rfl

theorem saveDbUnlocked_store (b : BlockStore) :
    ∃ n, (saveDbUnlocked b).store = { b with dirtyOps := n } := by
  unfold saveDbUnlocked
  split
  · exact ⟨b.dirtyOps, rfl⟩
  · exact ⟨0, rfl⟩

theorem maybeSaveUnlocked_store (b : BlockStore) :
    ∃ n, (maybeSaveUnlocked b).store = { b with dirtyOps := n } := by
  unfold maybeSaveUnlocked
  split
  · exact saveDbUnlocked_store b
  · exact ⟨b.dirtyOps, rfl⟩

theorem flush_store (b : BlockStore) : ∃ n, (flush b).store = { b with dirtyOps := n } := by
  unfold flush
  split
  · exact saveDbUnlocked_store b
  · exact ⟨b.dirtyOps, rfl⟩

@[simp] theorem appendLine_store (b : BlockStore) (file : Str → Write) (record : Json) :
    (appendLine b file record).store = b := by
  unfold appendLine
  split <;> rfl

def addFresh (b : BlockStore) (hit : BlockHit) (reason : Str) : BlockStore :=
  pushBlock (claimId b hit) (freshBlock b hit reason)

theorem enqueue_duplicate {b : BlockStore} {hit : BlockHit} (h : isDuplicate b hit)
    (reason queuedAt : Str) : enqueue b hit reason queuedAt = done b 0 := by
  rw [enqueue, enqueueUnlocked, if_pos h]

/-- A record that cannot be printed leaves the id and the hash claimed. -/
theorem enqueue_throws {b : BlockStore} {hit : BlockHit} {reason queuedAt : Str}
    (h : ¬ isDuplicate b hit) (hd : dump (queueRecord (freshBlock b hit reason) queuedAt) = none) :
    enqueue b hit reason queuedAt =
      { store := claimId b hit, writes := [.jsonl []], result := none } := by
  rw [enqueue, enqueueUnlocked, if_neg h]
  simp only [if_true, appendQueueJsonl, appendLine, hd, Effect.andThen]

theorem enqueue_fresh {b : BlockStore} {hit : BlockHit} {reason queuedAt text : Str}
    (h : ¬ isDuplicate b hit)
    (hd : dump (queueRecord (freshBlock b hit reason) queuedAt) = some text) :
    enqueue b hit reason queuedAt =
      let e := maybeSaveUnlocked (markDirtyUnlocked (addFresh b hit reason))
      { store := e.store, writes := .jsonl (text ++ ['\n']) :: e.writes,
        result := e.result.map fun _ => b.nextId } := by
  rw [enqueue, enqueueUnlocked, if_neg h]
  simp only [if_true, appendQueueJsonl, appendLine, hd, Effect.andThen, addFresh]
  cases (maybeSaveUnlocked (markDirtyUnlocked
    (pushBlock (claimId b hit) (freshBlock b hit reason)))).result <;> simp [freshBlock]

inductive Enqueued (b : BlockStore) (hit : BlockHit) (reason queuedAt : Str) : Effect ℤ → Prop where
  | duplicate (hd : isDuplicate b hit) : Enqueued b hit reason queuedAt (done b 0)
  | unprinted (hd : ¬ isDuplicate b hit)
      (ht : dump (queueRecord (freshBlock b hit reason) queuedAt) = none) :
      Enqueued b hit reason queuedAt
        { store := claimId b hit, writes := [.jsonl []], result := none }
  | added {text : Str} {n : ℕ} (hd : ¬ isDuplicate b hit)
      (ht : dump (queueRecord (freshBlock b hit reason) queuedAt) = some text) :
      Enqueued b hit reason queuedAt
        { store := { markDirtyUnlocked (addFresh b hit reason) with dirtyOps := n }
          writes := .jsonl (text ++ ['\n']) ::
            (maybeSaveUnlocked (markDirtyUnlocked (addFresh b hit reason))).writes
          result := (maybeSaveUnlocked (markDirtyUnlocked (addFresh b hit reason))).result.map
            fun _ => b.nextId }

theorem enqueue_cases (b : BlockStore) (hit : BlockHit) (reason queuedAt : Str) :
    Enqueued b hit reason queuedAt (enqueue b hit reason queuedAt) := by
  by_cases hd : isDuplicate b hit
  · rw [enqueue_duplicate hd]
    exact .duplicate hd
  · cases ht : dump (queueRecord (freshBlock b hit reason) queuedAt) with
    | none =>
      rw [enqueue_throws hd ht]
      exact .unprinted hd ht
    | some text =>
      obtain ⟨n, hn⟩ := maybeSaveUnlocked_store (markDirtyUnlocked (addFresh b hit reason))
      rw [enqueue_fresh hd ht]
      simp only [hn]
      exact .added hd ht

theorem markSubmittedMany_store (b : BlockStore) (ids : List ℤ) :
    ∃ n, (markSubmittedMany b ids).store = { eraseIds b ids with dirtyOps := n } := by
  unfold markSubmittedMany
  split_ifs with h
  · subst h
    exact ⟨b.dirtyOps, rfl⟩
  · exact saveDbUnlocked_store _

theorem markForwardedMany_store (b : BlockStore) (ids : List ℤ) :
    ∃ n, (markForwardedMany b ids).store = { ids.foldl setForwarded b with dirtyOps := n } := by
  unfold markForwardedMany
  split_ifs with h
  · subst h
    exact ⟨b.dirtyOps, rfl⟩
  · exact saveDbUnlocked_store _

theorem markPendingReason_store (b : BlockStore) (id : ℤ) (reason : Str) :
    ∃ n, (markPendingReason b id reason).store = { setReason b id reason with dirtyOps := n } :=
  maybeSaveUnlocked_store _

theorem deferAllToNextStart_store (b : BlockStore) (minute : ℕ) :
    ∃ n, (deferAllToNextStart b minute).store = { deferAll b minute with dirtyOps := n } :=
  saveDbUnlocked_store _

theorem recordRejection_throws {b : BlockStore} {hit : BlockHit} {httpStatus : ℤ}
    {body source now : Str} (h : dump (rejectionRecord hit httpStatus body source now) = none)
    (reason : Str) : recordRejection b hit httpStatus body source reason now =
      { store := b, writes := [.rejected []], result := none } := by
  simp only [recordRejection, logRejection, appendLine, h, Effect.andThen]

/-- A recorded rejection is an audit line and an enqueue. -/
theorem recordRejection_logged {b : BlockStore} {hit : BlockHit} {httpStatus : ℤ}
    {body source now text : Str}
    (h : dump (rejectionRecord hit httpStatus body source now) = some text) (reason : Str) :
    recordRejection b hit httpStatus body source reason now =
      let e := enqueue b hit reason now
      { store := e.store, writes := .rejected (text ++ ['\n']) :: e.writes,
        result := e.result.map fun _ => true } := by
  simp only [recordRejection, logRejection, appendLine, h, Effect.andThen]
  cases (enqueue b hit reason now).result <;> simp

def pendingCount (b : BlockStore) : ℕ := b.pending.length

/-- A block's `m`, with `default_m`, else the asked `m`, for a block without one. -/
def hitM (pb : PendingBlock) (m defaultM : ℤ) : ℤ :=
  pb.hit.memoryCost.getD (if 0 < defaultM then defaultM else m)

def pendingEligibleM (b : BlockStore) (netM defaultM : ℤ) : ℕ :=
  (b.pending.filter fun pb => netM ≤ hitM pb netM defaultM).length

def listPending (b : BlockStore) : List PendingBlock := b.pending

def listUnforwarded (b : BlockStore) (limit : ℤ) : List PendingBlock :=
  let out := b.pending.filter fun pb => !pb.forwarded
  if 0 < limit then out.take limit.toNat else out

inductive StoreOp where
  | enqueue (hit : BlockHit) (reason queuedAt : Str)
  | recordRejection (hit : BlockHit) (httpStatus : ℤ) (body source reason now : Str)
  | markSubmitted (id : ℤ)
  | markSubmittedMany (ids : List ℤ)
  | markPendingReason (id : ℤ) (reason : Str)
  | markForwardedMany (ids : List ℤ)
  | deferAllToNextStart (minute : ℕ)
  | flush

/-- Members and writes of an operation, whether it returned or threw. -/
def StoreOp.exec (op : StoreOp) (b : BlockStore) : BlockStore × List Write :=
  match op with
  | .enqueue hit reason queuedAt => (XnMiner.enqueue b hit reason queuedAt).footprint
  | .recordRejection hit httpStatus body source reason now =>
    (XnMiner.recordRejection b hit httpStatus body source reason now).footprint
  | .markSubmitted id => (XnMiner.markSubmitted b id).footprint
  | .markSubmittedMany ids => (XnMiner.markSubmittedMany b ids).footprint
  | .markPendingReason id reason => (XnMiner.markPendingReason b id reason).footprint
  | .markForwardedMany ids => (XnMiner.markForwardedMany b ids).footprint
  | .deferAllToNextStart minute => (XnMiner.deferAllToNextStart b minute).footprint
  | .flush => (XnMiner.flush b).footprint

structure StoreState where
  store : BlockStore := {}
  disk : Disk := {}
  deriving DecidableEq

def StoreOp.apply (s : StoreState) (op : StoreOp) : StoreState :=
  { store := (op.exec s.store).1, disk := s.disk.writeAll (op.exec s.store).2 }

def runOps (s : StoreState) (ops : List StoreOp) : StoreState := ops.foldl StoreOp.apply s

@[simp] theorem runOps_nil (s : StoreState) : runOps s [] = s := rfl
@[simp] theorem runOps_cons (s : StoreState) (op : StoreOp) (ops : List StoreOp) :
    runOps s (op :: ops) = runOps (op.apply s) ops := rfl

end XnMiner
