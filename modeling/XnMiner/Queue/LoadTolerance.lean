import XnMiner.Queue.Durability
import XnMiner.Queue.EnqueueThrows
import XnMiner.Text.JsonUtf8

/-! # Files with any content

The db document is read inside a `try`, up to the first item that does not convert. The log is
merged outside of it: a record that does not convert leaves the constructor, unless its digest
is known before the failing member is read.
-/
namespace XnMiner
open TextCodec

variable {castInt : ℤ → ℤ} {b b' : BlockStore}

theorem field_utf8Ok {fs : Fields} {key : Str} {v : Json} (h : utf8Ok (.obj fs) = true)
    (hv : field fs key = some v) : utf8Ok v = true := by
  induction fs with
  | nil => cases hv
  | cons kv rest ih =>
    obtain ⟨k, w⟩ := kv
    have hall : (validUtf8 k && utf8Ok w && utf8Ok (.obj rest)) = true := h
    rw [Bool.and_eq_true, Bool.and_eq_true] at hall
    rw [field] at hv
    cases hrest : field rest key with
    | none =>
      simp only [hrest] at hv
      split_ifs at hv
      exact Option.some.inj hv ▸ hall.1.2
    | some u =>
      simp only [hrest] at hv
      exact ih hall.2 (hrest.trans hv)

theorem value_utf8 {j : Json} {key default s : Str} (hj : utf8Ok j = true)
    (hdefault : validUtf8 default = true) (h : value j key getStr default = some s) :
    validUtf8 s = true := by
  cases j with
  | obj fs =>
    simp only [value] at h
    cases hv : field fs key with
    | none =>
      simp only [hv] at h
      exact Option.some.inj h ▸ hdefault
    | some v =>
      have hvalid := field_utf8Ok hj hv
      simp only [hv] at h
      cases v with
      | str t => exact Option.some.inj h ▸ hvalid
      | _ => cases h
  | _ => cases h

theorem hitFromJson_utf8 {j : Json} {hit : BlockHit} (hj : utf8Ok j = true)
    (h : hitFromJson castInt j = some hit) : hit.utf8 = true := by
  simp only [hitFromJson, Option.bind_eq_bind, Option.bind_eq_some_iff] at h
  obtain ⟨key, hkey, hash, hhash, type, htype, strategy, hstrategy, attempts, -, hps, -, found,
    hfound, cost, -, hhit⟩ := h
  obtain rfl := Option.some.inj hhit
  rw [BlockHit.utf8, value_utf8 hj (by decide) hkey, value_utf8 hj (by decide) hhash,
    value_utf8 hj (by decide) htype, value_utf8 hj (by decide) hstrategy,
    value_utf8 hj (by decide) hfound]
  rfl

theorem pendingFromJson_prints {item : Json} {i : ℤ} {pb : PendingBlock}
    (hitem : utf8Ok item = true) (h : pendingFromJson castInt item i = some pb) : pb.prints := by
  simp only [pendingFromJson, Option.bind_eq_bind, Option.bind_eq_some_iff] at h
  obtain ⟨id, -, hit, hhit, old, hold, reason, hreason, count, -, forwarded, -, hpb⟩ := h
  obtain rfl := Option.some.inj hpb
  exact ⟨hitFromJson_utf8 hitem hhit,
    value_utf8 hitem (value_utf8 hitem (by decide) hold) hreason⟩

theorem printable_loadAny {items : List Json} (hb : printable b)
    (hitems : ∀ item ∈ items, utf8Ok item = true) : printable (loadItems castInt b items) := by
  induction items generalizing b with
  | nil => exact hb
  | cons item items ih =>
    rw [List.forall_mem_cons] at hitems
    rw [loadItems]
    cases hpb : pendingFromJson castInt item b.nextId with
    | none => exact hb
    | some pb =>
      obtain ⟨hhit, hreason⟩ := pendingFromJson_prints hitems.1 hpb
      have hnext : printable { b with nextId := b.nextId + 1 } := hb
      exact ih (printable_addLoaded hnext hhit hreason) hitems.2

theorem printable_recoverRecord {rec : Json} (hb : printable b) (hrec : utf8Ok rec = true)
    (h : recoverRecord castInt b rec = some b') : printable b' := by
  simp only [recoverRecord, Option.bind_eq_bind, Option.bind_eq_some_iff] at h
  obtain ⟨hit, hhit, h⟩ := h
  split_ifs at h
  · exact Option.some.inj h ▸ hb
  · simp only [Option.bind_eq_some_iff] at h
    obtain ⟨id, -, old, hold, reason, hreason, count, -, hpb⟩ := h
    obtain rfl := Option.some.inj hpb
    exact printable_addLoaded hb (hitFromJson_utf8 hrec hhit)
      (value_utf8 hrec (value_utf8 hrec (by decide) hold) hreason)

def itemsOf (root : Json) : List Json :=
  match root with
  | .obj fs => match field fs "pending".toList with
    | some (.arr items) => items
    | _ => []
  | _ => []

def dbItems (db : Option Str) : List Json := ((db.bind parse).map itemsOf).getD []

variable (castInt) in
def itemTyped (item : Json) : Bool := (pendingFromJson castInt item 0).isSome

variable (castInt) in
def storedHash (j : Json) : Option Str := (hitFromJson castInt j).map BlockHit.hashStr

variable (castInt) in
/-- The items in front of the first one that does not convert; none after a counter that does
not. -/
def reachedItems (db : Option Str) : List Json :=
  match db.bind parse with
  | some root =>
    if (value root "next_id".toList (getInt castInt) 1).isSome then
      (itemsOf root).takeWhile (itemTyped castInt)
    else []
  | none => []

/-- Whether a member converts is no matter of the default. -/
theorem value_default {α : Type} {j : Json} {key : Str} {get : Json → Option α} {x : α}
    (h : (value j key get x).isSome = true) (y : α) : ∃ v, value j key get y = some v := by
  rw [← Option.isSome_iff_exists]
  cases j with
  | obj fs =>
    simp only [value] at h ⊢
    cases hv : field fs key with
    | none => rfl
    | some v =>
      simp only [hv] at h
      exact h
  | _ => cases h

theorem pendingFromJson_default {item : Json} {i : ℤ} {pb : PendingBlock}
    (h : pendingFromJson castInt item i = some pb) (j : ℤ) :
    (pendingFromJson castInt item j).isSome = true := by
  simp only [pendingFromJson, Option.bind_eq_bind, Option.bind_eq_some_iff] at h
  obtain ⟨id, hid, hit, hhit, old, hold, reason, hreason, count, hcount, forwarded, hforwarded, -⟩ :=
    h
  obtain ⟨n, hn⟩ := value_default (Option.isSome_of_eq_some hid) j
  simp only [pendingFromJson, hn, hhit, hold, hreason, hcount, hforwarded, Option.bind_eq_bind,
    Option.bind_some, Option.isSome_some]

theorem pendingFromJson_isSome (item : Json) (i : ℤ) :
    (pendingFromJson castInt item i).isSome = itemTyped castInt item := by
  rw [Bool.eq_iff_iff]
  constructor
  · intro h
    obtain ⟨pb, hpb⟩ := Option.isSome_iff_exists.mp h
    exact pendingFromJson_default hpb 0
  · intro h
    obtain ⟨pb, hpb⟩ := Option.isSome_iff_exists.mp h
    exact pendingFromJson_default hpb i

theorem pendingFromJson_hash {item : Json} {i : ℤ} {pb : PendingBlock}
    (h : pendingFromJson castInt item i = some pb) :
    storedHash castInt item = some pb.hit.hashStr := by
  simp only [pendingFromJson, Option.bind_eq_bind, Option.bind_eq_some_iff] at h
  obtain ⟨id, -, hit, hhit, old, -, reason, -, count, -, forwarded, -, hpb⟩ := h
  obtain rfl := Option.some.inj hpb
  rw [storedHash, hhit]
  rfl

theorem mem_index_addLoaded (b : BlockStore) (pb : PendingBlock) {h : Str} :
    h ∈ (addLoaded b pb).hashIndex ↔ h ∈ b.hashIndex ∨ h ≠ [] ∧ pb.hit.hashStr = h := by
  simp only [addLoaded]
  split_ifs with hne
  · rw [Finset.mem_insert, or_comm, eq_comm]
    refine or_congr_right ⟨fun heq => ⟨heq ▸ hne, heq⟩, fun heq => heq.2⟩
  · refine ⟨.inl, ?_⟩
    rintro (hknown | ⟨hnonempty, rfl⟩)
    · exact hknown
    · exact absurd hnonempty hne

/-- The digests that loading adds are those of the items it reaches. -/
theorem mem_index_loadItems (b : BlockStore) (items : List Json) {h : Str} :
    h ∈ (loadItems castInt b items).hashIndex ↔ h ∈ b.hashIndex ∨ h ≠ [] ∧
      ∃ item ∈ items.takeWhile (itemTyped castInt), storedHash castInt item = some h := by
  induction items generalizing b with
  | nil => simp [loadItems]
  | cons item items ih =>
    have htyped : (pendingFromJson castInt item b.nextId).isSome = itemTyped castInt item :=
      pendingFromJson_isSome item b.nextId
    rw [loadItems, List.takeWhile_cons]
    cases hpb : pendingFromJson castInt item b.nextId with
    | none =>
      rw [hpb] at htyped
      simp [← htyped]
    | some pb =>
      rw [hpb] at htyped
      have hhash := pendingFromJson_hash hpb
      simp only [← htyped, Option.isSome_some, if_true]
      rw [ih, mem_index_addLoaded, List.exists_mem_cons_iff, hhash, Option.some.injEq, and_or_left,
        or_assoc]

/-- A document without a list of items is loaded as one with no item. -/
theorem loadRoot_eq (root : Json) :
    loadRoot castInt root = match value root "next_id".toList (getInt castInt) 1 with
      | none => {}
      | some n => loadItems castInt { nextId := n } (itemsOf root) := by
  unfold loadRoot
  cases value root "next_id".toList (getInt castInt) 1 with
  | none => rfl
  | some n =>
    cases root with
    | obj fs =>
      simp only [itemsOf]
      cases field fs "pending".toList with
      | none => rfl
      | some v => cases v <;> rfl
    | _ => rfl

theorem mem_index_loadDb (db : Option Str) {h : Str} :
    h ∈ (loadDb castInt db).hashIndex ↔
      h ≠ [] ∧ ∃ item ∈ reachedItems castInt db, storedHash castInt item = some h := by
  have hnone : h ∈ (∅ : Finset Str) ↔ h ≠ [] ∧ ∃ item ∈ ([] : List Json),
      storedHash castInt item = some h := by simp
  cases db with
  | none => exact hnone
  | some text =>
    unfold loadDb reachedItems
    simp only [Option.bind_some]
    cases parse text with
    | none => exact hnone
    | some root =>
      simp only [loadRoot_eq]
      cases value root "next_id".toList (getInt castInt) 1 with
      | none => exact hnone
      | some n =>
        rw [mem_index_loadItems]
        simp

theorem utf8Ok_itemsOf {root : Json} (hroot : utf8Ok root = true) :
    ∀ item ∈ itemsOf root, utf8Ok item = true := by
  intro item hitem
  cases root with
  | obj fs =>
    simp only [itemsOf] at hitem
    cases hpending : field fs "pending".toList with
    | none => simp only [hpending, List.not_mem_nil] at hitem
    | some v =>
      have hv := field_utf8Ok hroot hpending
      cases v with
      | arr items =>
        simp only [hpending] at hitem
        have hitems : allElems validUtf8 (fun _ => true) items = true := hv
        rw [allElems_eq_all, List.all_eq_true] at hitems
        exact hitems item hitem
      | _ => simp only [hpending, List.not_mem_nil] at hitem
  | _ => cases hitem

theorem printable_loadAnyDb (db : Option Str) : printable (loadDb castInt db) := by
  have hempty : printable {} := fun pb hpb => by cases hpb
  cases db with
  | none => exact hempty
  | some text =>
    unfold loadDb
    dsimp only
    cases hroot : parse text with
    | none => exact hempty
    | some root =>
      simp only [loadRoot_eq]
      cases value root "next_id".toList (getInt castInt) 1 with
      | none => exact hempty
      | some n =>
        refine printable_loadAny ?_ (utf8Ok_itemsOf (utf8Ok_of_parse hroot))
        exact fun pb hpb => by cases hpb

def lineRecord (line : Str) : Option Json :=
  if line = [] then none
  else match parse line with
    | some (.obj fs) => some (.obj fs)
    | _ => none

variable (castInt) in
def recordTyped (rec : Json) : Bool :=
  (value rec "id".toList getInt64 0).isSome && (value rec "reason".toList getStr []).isSome &&
    (value rec "queue_reason".toList getStr []).isSome &&
    (value rec "reject_count".toList (getInt castInt) 0).isSome

variable (castInt) in
def lineHash (line : Str) : Option Str := (lineRecord line).bind (storedHash castInt)

variable (castInt) in
/-- A record needs a hit that converts; the rest has to convert unless the digest is known. -/
def lineLoads (known : Str → Prop) (line : Str) : Prop :=
  ∀ rec, lineRecord line = some rec → ∃ h, storedHash castInt rec = some h ∧
    (h = [] ∨ known h ∨ recordTyped castInt rec = true)

variable (castInt) in
def LinesLoad (known : Str → Prop) (lines : List Str) : Prop :=
  ∀ pre line post, lines = pre ++ line :: post →
    lineLoads castInt (fun h => known h ∨ ∃ l ∈ pre, lineHash castInt l = some h) line

theorem recoverLine_eq (b : BlockStore) (line : Str) :
    recoverLine castInt b line = match lineRecord line with
      | none => some b
      | some rec => recoverRecord castInt b rec := by
  unfold recoverLine lineRecord
  split_ifs
  · rfl
  · cases parse line with
    | none => rfl
    | some j => cases j <;> rfl

theorem lineRecord_utf8Ok {line : Str} {rec : Json} (h : lineRecord line = some rec) :
    utf8Ok rec = true := by
  unfold lineRecord at h
  split_ifs at h
  split at h
  · rename_i fs hparse
    exact Option.some.inj h ▸ utf8Ok_of_parse hparse
  · cases h

/-- A record with a fresh digest loads if the members behind it convert. -/
theorem recoverRecord_fresh {rec : Json} {hit : BlockHit} (hhit : hitFromJson castInt rec = some hit)
    (hfresh : ¬(hit.hashStr = [] ∨ hit.hashStr ∈ b.hashIndex)) :
    (recoverRecord castInt b rec).isSome = true ↔ recordTyped castInt rec = true := by
  rw [recordTyped, Bool.and_eq_true, Bool.and_eq_true, Bool.and_eq_true]
  constructor
  · intro h
    obtain ⟨b1, hb1⟩ := Option.isSome_iff_exists.mp h
    simp only [recoverRecord, hhit, Option.bind_eq_bind, Option.bind_some, if_neg hfresh,
      Option.bind_eq_some_iff] at hb1
    obtain ⟨id, hid, old, hold, reason, hreason, count, hcount, -⟩ := hb1
    refine ⟨⟨⟨?_, ?_⟩, ?_⟩, ?_⟩ <;> rw [Option.isSome_iff_exists]
    · exact value_default (Option.isSome_of_eq_some hid) 0
    · exact value_default (Option.isSome_of_eq_some hold) []
    · exact value_default (Option.isSome_of_eq_some hreason) []
    · exact value_default (Option.isSome_of_eq_some hcount) 0
  · rintro ⟨⟨⟨hid, hold⟩, hreason⟩, hcount⟩
    obtain ⟨id, hid⟩ := value_default hid b.nextId
    obtain ⟨old, hold⟩ := value_default hold "jsonl_recover".toList
    obtain ⟨reason, hreason⟩ := value_default hreason old
    obtain ⟨count, hcount⟩ := value_default hcount 0
    simp only [recoverRecord, hhit, Option.bind_eq_bind, Option.bind_some, if_neg hfresh, hid, hold,
      hreason, hcount, Option.isSome_some]

theorem recoverRecord_isSome (b : BlockStore) (rec : Json) :
    (recoverRecord castInt b rec).isSome = true ↔ ∃ h, storedHash castInt rec = some h ∧
      (h = [] ∨ h ∈ b.hashIndex ∨ recordTyped castInt rec = true) := by
  cases hhit : hitFromJson castInt rec with
  | none =>
    have hthrows : recoverRecord castInt b rec = none := by
      rw [recoverRecord, hhit]
      rfl
    rw [hthrows, storedHash, hhit]
    constructor
    · intro h
      cases h
    · rintro ⟨h, hnone, -⟩
      cases hnone
  | some hit =>
    have hhash : storedHash castInt rec = some hit.hashStr := by
      rw [storedHash, hhit]
      rfl
    simp only [hhash, Option.some.injEq, exists_eq_left', ← or_assoc]
    by_cases hseen : hit.hashStr = [] ∨ hit.hashStr ∈ b.hashIndex
    · have hskip : recoverRecord castInt b rec = some b := by
        rw [recoverRecord, hhit]
        exact if_pos hseen
      rw [hskip]
      exact ⟨fun _ => .inl hseen, fun _ => rfl⟩
    · rw [or_iff_right hseen]
      exact recoverRecord_fresh hhit hseen

/-- A line that loads leaves its digest in the index. -/
theorem mem_index_recoverLine {line : Str} (h : recoverLine castInt b line = some b') {x : Str} :
    x ∈ b'.hashIndex ↔ x ∈ b.hashIndex ∨ x ≠ [] ∧ lineHash castInt line = some x := by
  rw [recoverLine_eq] at h
  unfold lineHash
  cases hrec : lineRecord line with
  | none =>
    simp only [hrec] at h
    rw [← Option.some.inj h]
    simp
  | some rec =>
    simp only [hrec] at h
    obtain ⟨hit, hhit, hcase⟩ := recoverRecord_cases h
    have hhash : storedHash castInt rec = some hit.hashStr := by rw [storedHash, hhit]; rfl
    simp only [Option.bind_some, hhash, Option.some.injEq]
    rcases hcase with ⟨hseen, rfl⟩ | ⟨-, i, reason, count, rfl⟩
    · refine ⟨.inl, ?_⟩
      rintro (hknown | ⟨hne, rfl⟩)
      · exact hknown
      · exact hseen.resolve_left hne
    · exact mem_index_addLoaded b _

theorem recoverLine_isSome (b : BlockStore) (line : Str) :
    (recoverLine castInt b line).isSome = true ↔ lineLoads castInt (· ∈ b.hashIndex) line := by
  rw [recoverLine_eq]
  unfold lineLoads
  cases lineRecord line with
  | none => simp
  | some rec =>
    simp only [Option.some.injEq, forall_eq']
    exact recoverRecord_isSome b rec

theorem lineLoads_congr {known known' : Str → Prop} {line : Str}
    (h : ∀ x, x ≠ [] → (known x ↔ known' x)) :
    lineLoads castInt known line ↔ lineLoads castInt known' line := by
  refine forall_congr' fun rec => imp_congr_right fun _ => exists_congr fun x => and_congr_right
    fun _ => ?_
  by_cases hx : x = []
  · simp [hx]
  · rw [h x hx]

theorem linesLoad_congr {known known' : Str → Prop} {lines : List Str}
    (h : ∀ x, x ≠ [] → (known x ↔ known' x)) :
    LinesLoad castInt known lines ↔ LinesLoad castInt known' lines := by
  refine forall_congr' fun pre => forall_congr' fun line => forall_congr' fun post =>
    imp_congr_right fun _ => lineLoads_congr fun x hx => ?_
  rw [h x hx]

theorem linesLoad_cons {known : Str → Prop} {line : Str} {lines : List Str} :
    LinesLoad castInt known (line :: lines) ↔ lineLoads castInt known line ∧
      LinesLoad castInt (fun x => known x ∨ lineHash castInt line = some x) lines := by
  constructor
  · intro h
    refine ⟨?_, fun pre l post heq => ?_⟩
    · have hfirst := h [] line lines rfl
      exact (lineLoads_congr fun x _ => by simp).mp hfirst
    · have hlater := h (line :: pre) l post (by rw [heq]; rfl)
      refine (lineLoads_congr fun x _ => ?_).mp hlater
      rw [List.exists_mem_cons_iff, or_assoc]
  · rintro ⟨hfirst, hrest⟩ pre l post heq
    cases pre with
    | nil =>
      obtain ⟨rfl, rfl⟩ := List.cons.inj heq
      exact (lineLoads_congr fun x _ => by simp).mp hfirst
    | cons first pre =>
      obtain ⟨rfl, hlines⟩ := List.cons.inj heq
      refine (lineLoads_congr fun x _ => ?_).mp (hrest pre l post hlines)
      rw [List.exists_mem_cons_iff, or_assoc]

theorem linesLoad_nil {known : Str → Prop} : LinesLoad castInt known [] := by
  intro pre line post heq
  simp at heq

/-- The merge returns exactly if every line loads, and then the index has every digest. -/
theorem recoverLines_isSome (b : BlockStore) (lines : List Str) :
    (recoverLines castInt b lines).isSome = true ↔
      LinesLoad castInt (· ∈ b.hashIndex) lines := by
  induction lines generalizing b with
  | nil => exact ⟨fun _ => linesLoad_nil, fun _ => rfl⟩
  | cons line lines ih =>
    rw [recoverLines, linesLoad_cons, ← recoverLine_isSome]
    cases hline : recoverLine castInt b line with
    | none => simp
    | some b' =>
      rw [Option.bind_some, ih b', Option.isSome_some]
      simp only [true_and]
      refine linesLoad_congr fun x hx => ?_
      rw [mem_index_recoverLine hline]
      simp [hx]

theorem mem_index_recoverLines {lines : List Str} (h : recoverLines castInt b lines = some b')
    {x : Str} : x ∈ b'.hashIndex ↔
      x ∈ b.hashIndex ∨ x ≠ [] ∧ ∃ line ∈ lines, lineHash castInt line = some x := by
  induction lines generalizing b with
  | nil =>
    rw [← Option.some.inj h]
    simp
  | cons line lines ih =>
    obtain ⟨b1, h1, h2⟩ := Option.bind_eq_some_iff.mp h
    rw [ih h2, mem_index_recoverLine h1, List.exists_mem_cons_iff, and_or_left, or_assoc]

theorem printable_recoverLines {lines : List Str} (hb : printable b)
    (h : recoverLines castInt b lines = some b') : printable b' := by
  induction lines generalizing b with
  | nil => exact Option.some.inj h ▸ hb
  | cons line lines ih =>
    obtain ⟨b1, h1, h2⟩ := Option.bind_eq_some_iff.mp h
    refine ih ?_ h2
    rw [recoverLine_eq] at h1
    cases hrec : lineRecord line with
    | none =>
      simp only [hrec] at h1
      exact Option.some.inj h1 ▸ hb
    | some rec =>
      simp only [hrec] at h1
      exact printable_recoverRecord hb (lineRecord_utf8Ok hrec) h1

/-- The save at the end of a merge cannot throw. -/
theorem construct_isSome (d : Disk) : (construct castInt d).2.isSome = true ↔
    (recoverLines castInt (loadDb castInt d.db) (fileLines d.log)).isSome = true := by
  constructor
  · intro h
    obtain ⟨b, hb⟩ := Option.isSome_iff_exists.mp h
    obtain ⟨b', hb', -⟩ := construct_pending castInt hb
    exact Option.isSome_of_eq_some hb'
  · intro h
    obtain ⟨b', hb'⟩ := Option.isSome_iff_exists.mp h
    have hlines : recoverLines castInt (loadDb castInt d.db) (fileLines (d.jsonl.getD [])) =
        some b' := hb'
    rw [construct, recoverJsonlUnlocked_eq, hlines]
    dsimp only
    split_ifs
    · rw [saveDbUnlocked_returns (printable_recoverLines (printable_loadAnyDb d.db) hb')]
      rfl
    · rfl

/-- A constructed bag has the digests of the reached items and of the lines. -/
theorem construct_bag {d : Disk} (h : (construct castInt d).2 = some b) {x : Str} (hx : x ≠ []) :
    (∃ pb ∈ b.pending, pb.hit.hashStr = x) ↔
      (∃ item ∈ reachedItems castInt d.db, storedHash castInt item = some x) ∨
        ∃ line ∈ fileLines d.log, lineHash castInt line = some x := by
  obtain ⟨b', hb', hpending, -⟩ := construct_pending castInt h
  have hindexed : Indexed b' := (extends_recoverLines hb').indexed (loadDb_indexed d.db)
  have hmem := mem_index_recoverLines hb' (x := x)
  rw [hindexed.mem_iff, mem_index_loadDb] at hmem
  rw [hpending]
  simpa [hx] using hmem

/-- Every well-formed line and every well-formed item has its digest in the bag. -/
structure Recovered (castInt : ℤ → ℤ) (d : Disk) (b : BlockStore) : Prop where
  lines : ∀ line ∈ fileLines d.log, ∀ rec, lineRecord line = some rec →
    recordTyped castInt rec = true → ∀ h, storedHash castInt rec = some h → h ≠ [] →
      ∃ pb ∈ b.pending, pb.hit.hashStr = h
  items : ∀ item ∈ dbItems d.db, itemTyped castInt item = true →
    ∀ h, storedHash castInt item = some h → h ≠ [] → ∃ pb ∈ b.pending, pb.hit.hashStr = h

/-- The constructor returns with everything well-formed exactly if every line of the log loads,
and what the db document has behind its first ill-typed item is found elsewhere. -/
theorem load_tolerates_iff (castInt : ℤ → ℤ) (d : Disk) :
    (∃ b, (construct castInt d).2 = some b ∧ Recovered castInt d b) ↔
      LinesLoad castInt
        (fun h => ∃ item ∈ reachedItems castInt d.db, storedHash castInt item = some h)
        (fileLines d.log) ∧
      ∀ item ∈ dbItems d.db, itemTyped castInt item = true →
        ∀ h, storedHash castInt item = some h → h ≠ [] →
          (∃ reached ∈ reachedItems castInt d.db, storedHash castInt reached = some h) ∨
            ∃ line ∈ fileLines d.log, lineHash castInt line = some h := by
  have hreturns : (construct castInt d).2.isSome = true ↔ LinesLoad castInt
      (fun h => ∃ item ∈ reachedItems castInt d.db, storedHash castInt item = some h)
      (fileLines d.log) := by
    rw [construct_isSome, recoverLines_isSome]
    refine linesLoad_congr fun x hx => ?_
    rw [mem_index_loadDb]
    exact and_iff_right hx
  constructor
  · rintro ⟨b, hb, hrecovered⟩
    refine ⟨hreturns.mp (Option.isSome_of_eq_some hb), fun item hitem htyped h hhash hne => ?_⟩
    exact (construct_bag hb hne).mp (hrecovered.items item hitem htyped h hhash hne)
  · rintro ⟨hlines, hitems⟩
    obtain ⟨b, hb⟩ := Option.isSome_iff_exists.mp (hreturns.mpr hlines)
    refine ⟨b, hb, ⟨fun line hline rec hrec _ h hhash hne => ?_,
      fun item hitem htyped h hhash hne => ?_⟩⟩
    · refine (construct_bag hb hne).mpr (.inr ⟨line, hline, ?_⟩)
      rw [lineHash, hrec]
      exact hhash
    · exact (construct_bag hb hne).mpr (hitems item hitem htyped h hhash hne)

def mistypedLog : Disk where
  jsonl := some "\x7b\"key\":1\x7d\n\x7b\"key\":\"k\",\"hash_str\":\"h\"\x7d\n".toList

/-- The ill-typed line leaves the constructor, and the whole record is not read. -/
theorem load_throws :
    (construct toInt32 mistypedLog).2 = none ∧
      (fileLines mistypedLog.log).map (lineHash toInt32) = [none, some "h".toList] := by
  decide +kernel

end XnMiner
