import XnMiner.Queue.Load
import XnMiner.Text.JsonTorn

/-! # What the loader makes of the records the bag writes

A hit survives up to the narrowing of its integers to `int`; a hit with a
non-finite hash rate is written with a null and cannot be read.
-/
namespace XnMiner
open TextCodec

variable (castInt : ℤ → ℤ)

def narrowHit (hit : BlockHit) : BlockHit :=
  { hit with
    attempts := castInt (toInt64 hit.attempts)
    memoryCost := hit.memoryCost.map fun m => castInt (toInt64 m) }

def narrowBlock (pb : PendingBlock) : PendingBlock :=
  { pb with
    id := toInt64 pb.id
    hit := narrowHit castInt pb.hit
    rejectCount := castInt (toInt64 pb.rejectCount) }

@[simp] theorem narrowHit_hashStr (hit : BlockHit) :
    (narrowHit castInt hit).hashStr = hit.hashStr := rfl
@[simp] theorem narrowBlock_id (pb : PendingBlock) : (narrowBlock castInt pb).id = toInt64 pb.id := rfl
@[simp] theorem narrowBlock_hashStr (pb : PendingBlock) :
    (narrowBlock castInt pb).hit.hashStr = pb.hit.hashStr := rfl

theorem pendingToJson_eq (pb : PendingBlock) : pendingToJson pb = .obj (
    [("attempts".toList, Json.ofInt pb.hit.attempts), ("block_type".toList, .str pb.hit.blockType),
     ("forwarded".toList, .bool pb.forwarded), ("found_at".toList, .str pb.hit.foundAt),
     ("hash_str".toList, .str pb.hit.hashStr), ("hps".toList, .float pb.hit.hps),
     ("id".toList, .ofInt pb.id), ("key".toList, .str pb.hit.key)] ++
    (match pb.hit.memoryCost with
      | some m => [("memory_cost".toList, Json.ofInt m)]
      | none => []) ++
    [("queue_reason".toList, Json.str pb.queueReason), ("reject_count".toList, .ofInt pb.rejectCount),
     ("strategy".toList, .str pb.hit.strategy)]) := by
  rcases pb with ⟨id, ⟨key, hash, type, attempts, strategy, hps, found, cost⟩, reason, count, fwd⟩
  cases cost <;> rfl

theorem pendingFromJson_saved (pb : PendingBlock) (defaultId : ℤ) :
    pendingFromJson castInt (readBack (pendingToJson pb)) defaultId =
      if pb.hit.hps.isFinite = true then some (narrowBlock castInt pb) else none := by
  have hread : pendingFromJson castInt (readBack (pendingToJson pb)) defaultId =
      if pb.hit.hps.isFinite = true then
        some { narrowBlock castInt pb with id := toInt64 (toInt64 pb.id) }
      else none := by
    rw [pendingToJson_eq]
    rcases pb with ⟨id, ⟨key, hash, type, attempts, strategy, hps, found, cost⟩, reason, count, fwd⟩
    cases cost <;> cases hps <;>
      simp only [List.cons_append, List.nil_append, readBack, readBackMembers, Json.ofInt] <;> rfl
  rw [hread, toInt64_toInt64]
  rfl

def recoveredBlock (b : BlockStore) (pb : PendingBlock) : PendingBlock :=
  { id := repairId b (toInt64 pb.id), hit := narrowHit castInt pb.hit, queueReason := pb.queueReason,
    rejectCount := 0 }

theorem queueRecord_eq (pb : PendingBlock) (queuedAt : Str) : queueRecord pb queuedAt = .obj (
    [("attempts".toList, Json.ofInt pb.hit.attempts), ("block_type".toList, .str pb.hit.blockType),
     ("found_at".toList, .str pb.hit.foundAt), ("hash_str".toList, .str pb.hit.hashStr),
     ("hps".toList, .float pb.hit.hps), ("id".toList, .ofInt pb.id),
     ("key".toList, .str pb.hit.key)] ++
    (match pb.hit.memoryCost with
      | some m => [("memory_cost".toList, Json.ofInt m)]
      | none => []) ++
    [("queued_at".toList, Json.str queuedAt), ("reason".toList, .str pb.queueReason),
     ("strategy".toList, .str pb.hit.strategy)]) := by
  rcases pb with ⟨id, ⟨key, hash, type, attempts, strategy, hps, found, cost⟩, reason, count, fwd⟩
  cases cost <;> rfl

theorem hitFromJson_queueRecord (pb : PendingBlock) (queuedAt : Str) :
    hitFromJson castInt (readBack (queueRecord pb queuedAt)) =
      if pb.hit.hps.isFinite = true then some (narrowHit castInt pb.hit) else none := by
  rw [queueRecord_eq]
  rcases pb with ⟨id, ⟨key, hash, type, attempts, strategy, hps, found, cost⟩, reason, count, fwd⟩
  cases cost <;> cases hps <;>
    simp only [List.cons_append, List.nil_append, readBack, readBackMembers, Json.ofInt] <;> rfl

/-- The other members of a log record; `queue_reason` and `reject_count` are absent. -/
theorem value_queueRecord (pb : PendingBlock) (queuedAt oldReason : Str) (id count : ℤ) :
    value (readBack (queueRecord pb queuedAt)) "id".toList getInt64 id =
      some (toInt64 pb.id) ∧
    value (readBack (queueRecord pb queuedAt)) "reason".toList getStr oldReason =
      some pb.queueReason ∧
    value (readBack (queueRecord pb queuedAt)) "queue_reason".toList getStr oldReason =
      some oldReason ∧
    value (readBack (queueRecord pb queuedAt)) "reject_count".toList (getInt castInt) count =
      some count := by
  rw [queueRecord_eq]
  rcases pb with ⟨id, ⟨key, hash, type, attempts, strategy, hps, found, cost⟩, reason, count, fwd⟩
  cases cost <;> cases hps <;>
    simp only [List.cons_append, List.nil_append, readBack, readBackMembers, Json.ofInt] <;>
    exact ⟨congrArg some (toInt64_toInt64 id), rfl, rfl, rfl⟩

theorem recoverRecord_queueRecord (b : BlockStore) (pb : PendingBlock) (queuedAt : Str) :
    recoverRecord castInt b (readBack (queueRecord pb queuedAt)) =
      if pb.hit.hps.isFinite = true then
        if pb.hit.hashStr = [] ∨ pb.hit.hashStr ∈ b.hashIndex then some b
        else some (addLoaded b (recoveredBlock castInt b pb))
      else none := by
  have hvalue := fun old i c => value_queueRecord castInt pb queuedAt old i c
  rw [recoverRecord, hitFromJson_queueRecord]
  split_ifs with hfin hseen
  · exact if_pos hseen
  · refine (if_neg hseen).trans ?_
    simp only [(hvalue [] _ 0).1, (hvalue _ 0 0).2.1, (hvalue _ 0 0).2.2.1, (hvalue [] 0 _).2.2.2,
      Option.bind_eq_bind, Option.bind_some, recoveredBlock]
  · rfl

theorem utf8Ok_pendingToJson (pb : PendingBlock) :
    utf8Ok (pendingToJson pb) = (pb.hit.utf8 && validUtf8 pb.queueReason) := by
  obtain ⟨id, ⟨key, hash, type, attempts, strategy, hps, found, cost⟩, reason, count, fwd⟩ := pb
  calc utf8Ok (pendingToJson ⟨id, ⟨key, hash, type, attempts, strategy, hps, found, cost⟩,
          reason, count, fwd⟩)
      = (validUtf8 type && (validUtf8 found && (validUtf8 hash && (validUtf8 key &&
          (validUtf8 reason && (validUtf8 strategy && true)))))) := by
        rw [pendingToJson_eq]
        cases cost <;> rfl
    _ = _ := by
        simp only [BlockHit.utf8, Bool.and_true]
        ac_rfl

theorem utf8Ok_queueRecord (pb : PendingBlock) (queuedAt : Str) :
    utf8Ok (queueRecord pb queuedAt) =
      (pb.hit.utf8 && (validUtf8 queuedAt && validUtf8 pb.queueReason)) := by
  obtain ⟨id, ⟨key, hash, type, attempts, strategy, hps, found, cost⟩, reason, count, fwd⟩ := pb
  calc utf8Ok (queueRecord ⟨id, ⟨key, hash, type, attempts, strategy, hps, found, cost⟩,
          reason, count, fwd⟩ queuedAt)
      = (validUtf8 type && (validUtf8 found && (validUtf8 hash && (validUtf8 key &&
          (validUtf8 queuedAt && (validUtf8 reason && (validUtf8 strategy && true))))))) := by
        rw [queueRecord_eq]
        cases cost <;> rfl
    _ = _ := by
        simp only [BlockHit.utf8, Bool.and_true]
        ac_rfl

theorem rejectionRecord_eq (hit : BlockHit) (httpStatus : ℤ) (body source rejectedAt : Str) :
    rejectionRecord hit httpStatus body source rejectedAt = .obj (
      [("attempts".toList, Json.ofInt hit.attempts), ("block_type".toList, .str hit.blockType),
       ("category".toList, .str "resubmission".toList), ("found_at".toList, .str hit.foundAt),
       ("hash_str".toList, .str hit.hashStr), ("hps".toList, .float hit.hps),
       ("http_status".toList, .ofInt httpStatus), ("key".toList, .str hit.key)] ++
      (match hit.memoryCost with
        | some m => [("memory_cost".toList, Json.ofInt m)]
        | none => []) ++
      [("rejected_at".toList, Json.str rejectedAt), ("response_body".toList, .str body),
       ("source".toList, .str source), ("strategy".toList, .str hit.strategy)]) := by
  rcases hit with ⟨key, hash, type, attempts, strategy, hps, found, cost⟩
  cases cost <;> rfl

theorem utf8Ok_rejectionRecord (hit : BlockHit) (httpStatus : ℤ) (body source rejectedAt : Str) :
    utf8Ok (rejectionRecord hit httpStatus body source rejectedAt) =
      (hit.utf8 && (validUtf8 body && (validUtf8 source && validUtf8 rejectedAt))) := by
  obtain ⟨key, hash, type, attempts, strategy, hps, found, cost⟩ := hit
  calc utf8Ok (rejectionRecord ⟨key, hash, type, attempts, strategy, hps, found, cost⟩
          httpStatus body source rejectedAt)
      = (validUtf8 type && (validUtf8 "resubmission".toList && (validUtf8 found &&
          (validUtf8 hash && (validUtf8 key && (validUtf8 rejectedAt && (validUtf8 body &&
          (validUtf8 source && (validUtf8 strategy && true))))))))) := by
        rw [rejectionRecord_eq]
        cases cost <;> rfl
    _ = _ := by
        have hcategory : validUtf8 "resubmission".toList = true := by decide
        simp only [BlockHit.utf8, hcategory, Bool.and_true, Bool.true_and]
        ac_rfl

/-- A store can be saved exactly when every string in it is valid UTF-8. -/
theorem utf8Ok_dbJson (b : BlockStore) : utf8Ok (dbJson b) =
    b.pending.all fun pb => pb.hit.utf8 && validUtf8 pb.queueReason := by
  have hmembers : utf8Ok (dbJson b) =
      (allElems validUtf8 (fun _ => true) (b.pending.map pendingToJson) && true) := rfl
  rw [hmembers, Bool.and_true, allElems_eq_all, List.all_map]
  exact List.all_congr rfl utf8Ok_pendingToJson

theorem queueRecord_obj (pb : PendingBlock) (queuedAt : Str) :
    ∃ fs, queueRecord pb queuedAt = .obj fs := ⟨_, rfl⟩

theorem readBack_dbJson (b : BlockStore) :
    readBack (dbJson b) = .obj [("next_id".toList, .ofInt b.nextId),
      ("pending".toList, .arr (b.pending.map fun pb => readBack (pendingToJson pb)))] := by
  simp only [dbJson, Json.ofInt, readBack, readBackMembers, readBackElems_eq_map, List.map_map,
    Function.comp_def]

theorem loadRoot_dbJson (b : BlockStore) :
    loadRoot castInt (readBack (dbJson b)) =
      loadItems castInt { nextId := castInt (toInt64 b.nextId) }
        (b.pending.map fun pb => readBack (pendingToJson pb)) := by
  rw [readBack_dbJson]
  rfl

/-- The saved document is loaded up to the first hit with a non-finite hash rate. -/
theorem loadDb_saved {b : BlockStore} {text : Str} (h : dump (dbJson b) = some text) :
    loadDb castInt (some text) =
      loadItems castInt { nextId := castInt (toInt64 b.nextId) }
        (b.pending.map fun pb => readBack (pendingToJson pb)) := by
  simp only [loadDb, parse_of_dump h, loadRoot_dbJson]

theorem loadDb_torn {b : BlockStore} {text p : Str} (h : dump (dbJson b) = some text)
    (hp : p <+: text) (hne : p ≠ text) : loadDb castInt (some p) = {} := by
  simp only [loadDb, parse_of_torn_dump h hp hne]

theorem loadItems_cons_saved (b : BlockStore) (pb : PendingBlock) (items : List Json) :
    loadItems castInt b (readBack (pendingToJson pb) :: items) =
      if pb.hit.hps.isFinite = true then
        loadItems castInt (addLoaded { b with nextId := b.nextId + 1 } (narrowBlock castInt pb)) items
      else { b with nextId := b.nextId + 1 } := by
  rw [loadItems, pendingFromJson_saved]
  split_ifs <;> rfl

end XnMiner
