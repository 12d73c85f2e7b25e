import XnMiner.Queue.Store

/-! # Construction of the bag from its files

The db document is read up to the first item that throws; the exception is caught
there. The log is then merged line by line, and an exception in it leaves the
constructor.
-/
namespace XnMiner
open TextCodec

variable (castInt : ℤ → ℤ)

def fileLines (text : Str) : List Str :=
  match text with
  | [] => []
  | c :: cs =>
    if c = '\n' then [] :: fileLines cs
    else match fileLines cs with
      | [] => [[c]]
      | l :: ls => (c :: l) :: ls

/-- One item of `pending`, with the id it gets when it has none. -/
def pendingFromJson (item : Json) (defaultId : ℤ) : Option PendingBlock := do
  let id ← value item "id".toList getInt64 defaultId
  let hit ← hitFromJson castInt item
  let oldReason ← value item "reason".toList getStr []
  let queueReason ← value item "queue_reason".toList getStr oldReason
  let rejectCount ← value item "reject_count".toList (getInt castInt) 0
  let forwarded ← value item "forwarded".toList getBool false
  some { id, hit, queueReason, rejectCount, forwarded }

def addLoaded (b : BlockStore) (pb : PendingBlock) : BlockStore :=
  { b with
    nextId := max b.nextId (pb.id + 1)
    hashIndex := if pb.hit.hashStr ≠ [] then insert pb.hit.hashStr b.hashIndex else b.hashIndex
    pending := b.pending ++ [pb] }

/-- The items up to the first one that throws; the default id is consumed either way. -/
def loadItems (b : BlockStore) (items : List Json) : BlockStore :=
  match items with
  | [] => b
  | item :: rest =>
    let b1 := { b with nextId := b.nextId + 1 }
    match pendingFromJson castInt item b.nextId with
    | none => b1
    | some pb => loadItems (addLoaded b1 pb) rest

def loadRoot (root : Json) : BlockStore :=
  match value root "next_id".toList (getInt castInt) 1 with
  | none => {}
  | some nextId =>
    let b : BlockStore := { nextId := nextId }
    match root with
    | .obj fs => match field fs "pending".toList with
      | some (.arr items) => loadItems castInt b items
      | _ => b
    | _ => b

def loadDb (db : Option Str) : BlockStore :=
  match db with
  | none => {}
  | some text => match parse text with
    | none => {}
    | some root => loadRoot castInt root

/-- Ids below one and ids already taken are replaced by a fresh one. -/
def repairId (b : BlockStore) (id : ℤ) : ℤ :=
  if id < 1 then b.nextId
  else if b.pending.any (fun e => e.id == id) then b.nextId
  else id

/-- One record that is an object; `none` is an exception. -/
def recoverRecord (b : BlockStore) (rec : Json) : Option BlockStore := do
  let hit ← hitFromJson castInt rec
  if hit.hashStr = [] ∨ hit.hashStr ∈ b.hashIndex then some b
  else
    let id ← value rec "id".toList getInt64 b.nextId
    let oldReason ← value rec "reason".toList getStr "jsonl_recover".toList
    let queueReason ← value rec "queue_reason".toList getStr oldReason
    let rejectCount ← value rec "reject_count".toList (getInt castInt) 0
    some (addLoaded b { id := repairId b id, hit, queueReason, rejectCount })

def recoverLine (b : BlockStore) (line : Str) : Option BlockStore :=
  if line = [] then some b
  else match parse line with
    | some (.obj fs) => recoverRecord castInt b (.obj fs)
    | _ => some b

def recoverLines (b : BlockStore) (lines : List Str) : Option BlockStore :=
  match lines with
  | [] => some b
  | line :: rest => (recoverLine castInt b line).bind fun b' => recoverLines b' rest

/-- A recovery that added a block rewrites the db file; `none` is an exception. -/
def recoverJsonlUnlocked (b : BlockStore) (jsonl : Option Str) : List Write × Option BlockStore :=
  match jsonl with
  | none => ([], some b)
  | some text => match recoverLines castInt b (fileLines text) with
    | none => ([], none)
    | some b' =>
      if b'.pending.length ≠ b.pending.length then
        let e := saveDbUnlocked b'
        (e.writes, e.result.map fun _ => e.store)
      else ([], some b')

/-- The constructor: the writes it makes, and the store unless it threw. -/
def construct (d : Disk) : List Write × Option BlockStore :=
  recoverJsonlUnlocked castInt (loadDb castInt d.db) d.jsonl

/-- The destructor; an exception in it terminates the process. -/
def destroy (s : StoreState) : Option Disk :=
  if 0 < s.store.dirtyOps then
    let e := saveDbUnlocked s.store
    e.result.map fun _ => s.disk.writeAll e.writes
  else some s.disk

def restart (s : StoreState) : Option StoreState :=
  (destroy s).bind fun d =>
    let r := construct castInt d
    r.2.map fun b => { store := b, disk := d.writeAll r.1 }

end XnMiner
