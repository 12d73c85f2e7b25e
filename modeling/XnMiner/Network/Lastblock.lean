import XnMiner.App.Oracle
import XnMiner.Queue.Codec
import XnMiner.Mining.Argon2Encode
import XnMiner.Text.JsonUtf8
import XnMiner.Lists.Summary

/-! # The sealed-block poller

One pass over the rows keeps the newest row and counts the `m` values. It narrows the ids to
`int`, so a row can become the newest one, or as new as the newest, by the narrowing.
-/
namespace XnMiner
open TextCodec ListSummary

structure HttpResponse where
  status : ℤ := 0
  body : Str := []
  error : Str := []

/-- The id of a row and the `m` of its hash; `none` where the row is passed over. -/
def readRow (castInt : ℤ → ℤ) (row : Json) : Option (ℤ × Option ℤ) :=
  match row with
  | .obj fs => (value (.obj fs) "block_id".toList (getInt castInt) 0).map fun id =>
    (id, memoryCostFromHash ((value (.obj fs) "hash_to_verify".toList getStr []).getD []))
  | _ => none

structure RowScan where
  bestId : ℤ := -1
  bestM : Option ℤ := none
  counts : List (ℤ × ℕ) := []

def RowScan.take (scan : RowScan) (row : Json) : RowScan :=
  match readRow toInt32 row with
  | none => scan
  | some (id, m) =>
    { counts := match m with
        | some m => bump scan.counts m
        | none => scan.counts
      bestId := if scan.bestId < id then id else scan.bestId
      bestM := if scan.bestId < id then m else scan.bestM }

/-- The first of the values with the greatest count, in ascending order. -/
def majority (counts : List (ℤ × ℕ)) : ℤ :=
  (counts.foldl (fun maj kv => if maj.2 < kv.2 then kv else maj) (0, 0)).1

def RowScan.status (scan : RowScan) : PaperStatus :=
  match scan.bestM with
  | none => { error := "no m= in lastblock".toList }
  | some m =>
    if scan.bestId ≤ 0 then { error := "no m= in lastblock".toList }
    else
      { ok := true
        tipId := scan.bestId
        newestM := some m
        majorityM := if 0 < majority scan.counts then some (majority scan.counts) else none
        mixed := decide (1 < scan.counts.length) }

def paperStatusOf (rows : List Json) : PaperStatus :=
  if rows = [] then { error := "empty lastblock".toList } else (rows.foldl RowScan.take {}).status

def LastblockPoller.fetch (what : Str → Str) (resp : HttpResponse) : PaperStatus :=
  if resp.status = 0 ∨ resp.error ≠ [] then
    { error := if resp.error = [] then "no response".toList else resp.error }
  else if resp.status < 200 ∨ 300 ≤ resp.status then
    { error := "HTTP ".toList ++ intText resp.status }
  else match parse resp.body with
    | none => { error := what resp.body }
    | some (.arr rows) => paperStatusOf rows
    | some _ => { error := "empty lastblock".toList }

def rowReads (rows : List Json) : List (ℤ × Option ℤ) := rows.filterMap (readRow id)

def rowMs (rows : List Json) : List ℤ := (rowReads rows).filterMap Prod.snd

def narrowRead (r : ℤ × Option ℤ) : ℤ × Option ℤ := (toInt32 r.1, r.2)

/-- A conversion to `int` is one of the value that stands in the text. -/
theorem getInt_toInt32 (j : Json) : getInt toInt32 j = (getInt id j).map toInt32 := by
  cases j with
  | float x => cases x <;> rfl
  | bool b => cases b <;> decide
  | _ => rfl

theorem readRow_toInt32 (row : Json) : readRow toInt32 row = (readRow id row).map narrowRead := by
  cases row with
  | obj fs =>
    have hid : value (.obj fs) "block_id".toList (getInt toInt32) 0 =
        (value (.obj fs) "block_id".toList (getInt id) 0).map toInt32 := by
      simp only [value]
      cases field fs "block_id".toList with
      | none => decide
      | some v => exact getInt_toInt32 v
    simp only [readRow, hid, Option.map_map]
    rfl
  | _ => rfl

theorem rowReads_cons (row : Json) (rows : List Json) :
    rowReads (row :: rows) = (readRow id row).toList ++ rowReads rows := by
  unfold rowReads
  cases h : readRow id row with
  | none => rw [List.filterMap_cons_none h]; rfl
  | some r => rw [List.filterMap_cons_some h]; rfl

theorem scan_eq (rows : List Json) (scan : RowScan) :
    ((rows.foldl RowScan.take scan).bestId, (rows.foldl RowScan.take scan).bestM) =
        ((rowReads rows).map narrowRead).foldl (keepMax Prod.fst) (scan.bestId, scan.bestM) ∧
      (rows.foldl RowScan.take scan).counts = (rowMs rows).foldl bump scan.counts := by
  induction rows generalizing scan with
  | nil => exact ⟨rfl, rfl⟩
  | cons row rows ih =>
    rw [List.foldl_cons, rowMs, rowReads_cons]
    obtain ⟨hbest, hcounts⟩ := ih (scan.take row)
    have hread := readRow_toInt32 row
    cases hrow : readRow id row with
    | none =>
      rw [hrow] at hread
      have htake : scan.take row = scan := by rw [RowScan.take, hread]; rfl
      rw [htake] at hbest hcounts ⊢
      exact ⟨hbest, hcounts⟩
    | some r =>
      obtain ⟨id, m⟩ := r
      rw [hrow] at hread
      rw [hbest, hcounts]
      constructor
      · simp only [Option.toList_some, List.cons_append, List.nil_append, List.map_cons,
          List.foldl_cons, keepMax, RowScan.take, hread, Option.map_some, narrowRead]
        split_ifs
        · rfl
        · rfl
      · cases m <;> simp [rowMs, RowScan.take, hread, narrowRead]

/-- No positive id stands in two rows; a row without an id reads as 0. -/
def DistinctIds (rows : List Json) : Prop :=
  (((rowReads rows).map Prod.fst).filter fun id => 0 < id).Nodup

instance (rows : List Json) : Decidable (DistinctIds rows) :=
  inferInstanceAs (Decidable (List.Nodup _))

/-- The greatest id of the rows, and the `m` of a row that has it. -/
def NewestRow (rows : List Json) (id : ℤ) (m : Option ℤ) : Prop :=
  (id, m) ∈ rowReads rows ∧ ∀ r ∈ rowReads rows, r.1 ≤ id

theorem DistinctIds.eq {rows : List Json} (h : DistinctIds rows) {r s : ℤ × Option ℤ}
    (hr : r ∈ rowReads rows) (hs : s ∈ rowReads rows) (hpos : 0 < r.1) (heq : r.1 = s.1) : r = s := by
  rw [DistinctIds, List.filter_map] at h
  refine List.inj_on_of_nodup_map h (List.mem_filter.mpr ⟨hr, ?_⟩) (List.mem_filter.mpr ⟨hs, ?_⟩) heq
  · exact decide_eq_true hpos
  · exact decide_eq_true (heq ▸ hpos)

/-- A newest row with an id and an `m` is still the newest after the narrowing, and rows it
makes as new have the same `m`; without such a row, none of those it makes newest has both. -/
structure NarrowSafe (rows : List Json) : Prop where
  kept : ∀ id m, NewestRow rows id m → 0 < id → m.isSome = true →
    fitsInt id ∧ ∀ r ∈ rowReads rows, toInt32 r.1 ≤ id ∧ (toInt32 r.1 = id → r.2 = m)
  made : ∀ id m, NewestRow rows id m → ¬ (0 < id ∧ m.isSome = true) →
    ∀ r ∈ rowReads rows, (∀ q ∈ rowReads rows, toInt32 q.1 ≤ toInt32 r.1) →
      0 < toInt32 r.1 → r.2 = none

section Scan
variable {rows rows' : List Json}

theorem NewestRow.perm {id : ℤ} {m : Option ℤ} (h : NewestRow rows id m) (hp : rows.Perm rows') :
    NewestRow rows' id m := by
  have hreads : (rowReads rows).Perm (rowReads rows') := hp.filterMap _
  exact ⟨hreads.mem_iff.mp h.1, fun r hr => h.2 r (hreads.mem_iff.mpr hr)⟩

theorem NarrowSafe.perm (h : NarrowSafe rows) (hp : rows.Perm rows') : NarrowSafe rows' := by
  have hreads : ∀ {r}, r ∈ rowReads rows' ↔ r ∈ rowReads rows :=
    fun {r} => (hp.filterMap (readRow id)).mem_iff.symm
  constructor
  · intro id m hrow hpos hm
    obtain ⟨hfits, hrest⟩ := h.kept id m (hrow.perm hp.symm) hpos hm
    exact ⟨hfits, fun r hr => hrest r (hreads.mp hr)⟩
  · intro id m hrow hbad r hr hmost
    exact h.made id m (hrow.perm hp.symm) hbad r (hreads.mp hr) fun q hq => hmost q (hreads.mpr hq)

theorem exists_newestRow (hne : rowReads rows ≠ []) : ∃ id m, NewestRow rows id m := by
  obtain ⟨r, hr⟩ := List.exists_mem_of_ne_nil _ hne
  have hbest : (rowReads rows).foldl (keepMax Prod.fst) r ∈ rowReads rows := by
    rcases foldl_keepMax_mem Prod.fst r (rowReads rows) with h | h
    · rw [h]
      exact hr
    · exact h
  exact ⟨_, _, hbest, (le_foldl_keepMax Prod.fst r (rowReads rows)).2⟩

theorem DistinctIds.narrowSafe (hids : DistinctIds rows)
    (hfits : ∀ r ∈ rowReads rows, fitsInt r.1) : NarrowSafe rows := by
  have hsame : ∀ r ∈ rowReads rows, toInt32 r.1 = r.1 := fun r hr => toInt32_eq_iff.mpr (hfits r hr)
  constructor
  · rintro id m ⟨hmem, hgreatest⟩ hpos -
    refine ⟨hfits _ hmem, fun r hr => ?_⟩
    rw [hsame r hr]
    refine ⟨hgreatest r hr, fun heq => ?_⟩
    exact (congrArg Prod.snd (hids.eq hmem hr hpos heq.symm)).symm
  · rintro id m ⟨hmem, hgreatest⟩ hbad r hr hmost hpos
    have hle := hmost _ hmem
    rw [hsame r hr] at hle hpos
    rw [hsame _ hmem] at hle
    have heq : r.1 = id := le_antisymm (hgreatest r hr) hle
    have hrow : r = (id, m) := hids.eq hr hmem hpos heq
    rw [hrow]
    cases m with
    | none => rfl
    | some m => exact absurd ⟨heq ▸ hpos, rfl⟩ hbad

def bestRow (rows : List Json) : ℤ × Option ℤ :=
  ((rowReads rows).map narrowRead).foldl (keepMax Prod.fst) (-1, none)

theorem paperStatusOf_eq (hne : rows ≠ []) :
    paperStatusOf rows =
      RowScan.status ⟨(bestRow rows).1, (bestRow rows).2, tally (rowMs rows)⟩ := by
  obtain ⟨hbest, hcounts⟩ := scan_eq rows {}
  rw [paperStatusOf, if_neg hne]
  congr 1
  rw [bestRow, ← hbest, tally, ← hcounts]

theorem le_bestRow {r : ℤ × Option ℤ} (hr : r ∈ rowReads rows) :
    toInt32 r.1 ≤ (bestRow rows).1 :=
  (le_foldl_keepMax Prod.fst (-1, none) _).2 (narrowRead r) (List.mem_map_of_mem hr)

/-- A best row that is positive is one of the rows, narrowed. -/
theorem bestRow_mem (hpos : 0 < (bestRow rows).1) :
    ∃ r ∈ rowReads rows, bestRow rows = narrowRead r := by
  have hmem : bestRow rows = (-1, none) ∨ bestRow rows ∈ (rowReads rows).map narrowRead :=
    foldl_keepMax_mem Prod.fst (-1, none) _
  rcases hmem with h | h
  · rw [h] at hpos
    exact absurd hpos (by decide)
  · obtain ⟨r, hr, heq⟩ := List.mem_map.mp h
    exact ⟨r, hr, heq.symm⟩

/-- Of the rows that narrowing makes newest, the first one is the best. -/
theorem exists_perm_bestRow {r : ℤ × Option ℤ} (hr : r ∈ rowReads rows)
    (hmost : ∀ q ∈ rowReads rows, toInt32 q.1 ≤ toInt32 r.1) (hpos : 0 < toInt32 r.1) :
    ∃ rows', rows.Perm rows' ∧ bestRow rows' = narrowRead r := by
  obtain ⟨row, hrow, hread⟩ := List.mem_filterMap.mp hr
  obtain ⟨front, back, rfl⟩ := List.append_of_mem hrow
  have hperm : (front ++ row :: back).Perm (row :: (front ++ back)) := List.perm_middle
  refine ⟨row :: (front ++ back), hperm, ?_⟩
  have hfirst : keepMax Prod.fst (-1, none) (narrowRead r) = narrowRead r := by
    have hlt : -1 < toInt32 r.1 := by omega
    exact if_pos hlt
  rw [bestRow, rowReads_cons, hread, Option.toList_some, List.cons_append, List.map_cons,
    List.foldl_cons, hfirst]
  refine foldl_keepMax_of_le fun x hx => ?_
  obtain ⟨q, hq, rfl⟩ := List.mem_map.mp hx
  exact hmost q ((hperm.filterMap (readRow id)).mem_iff.mpr
    (by rw [← rowReads, rowReads_cons]; exact List.mem_append_right _ hq))

theorem RowScan.status_of_nonpos {id : ℤ} (h : id ≤ 0) (m : Option ℤ) (counts : List (ℤ × ℕ)) :
    RowScan.status ⟨id, m, counts⟩ = { error := "no m= in lastblock".toList } := by
  cases m with
  | none => rfl
  | some m => exact if_pos h

/-- A newest row with an id and an `m` is the best one, in every order. -/
theorem NarrowSafe.bestRow_eq (h : NarrowSafe rows) {id : ℤ} {m : Option ℤ}
    (hrow : NewestRow rows id m) (hpos : 0 < id) (hm : m.isSome = true) :
    bestRow rows = (id, m) := by
  obtain ⟨hfits, hrest⟩ := h.kept id m hrow hpos hm
  have hle : id ≤ (bestRow rows).1 := by
    have hown := le_bestRow hrow.1
    rwa [toInt32_eq_iff.mpr hfits] at hown
  obtain ⟨r, hr, hbest⟩ := bestRow_mem (hpos.trans_le hle)
  rw [hbest] at hle ⊢
  obtain ⟨hmost, hsame⟩ := hrest r hr
  have heq : toInt32 r.1 = id := le_antisymm hmost hle
  exact Prod.ext heq (hsame heq)

/-- Without such a row there is nothing to report, in every order. -/
theorem NarrowSafe.status_of_unsealed (h : NarrowSafe rows)
    (hnone : ∀ id m, NewestRow rows id m → ¬ (0 < id ∧ m.isSome = true))
    (counts : List (ℤ × ℕ)) : RowScan.status ⟨(bestRow rows).1, (bestRow rows).2, counts⟩ =
      { error := "no m= in lastblock".toList } := by
  by_cases hpos : 0 < (bestRow rows).1
  · obtain ⟨r, hr, hbest⟩ := bestRow_mem hpos
    obtain ⟨id, m, hrow⟩ := exists_newestRow (List.ne_nil_of_mem hr)
    have hmost : ∀ q ∈ rowReads rows, toInt32 q.1 ≤ toInt32 r.1 := by
      intro q hq
      have hle := le_bestRow hq
      rwa [hbest] at hle
    rw [hbest] at hpos ⊢
    have hm : (narrowRead r).2 = none := h.made id m hrow (hnone id m hrow) r hr hmost hpos
    rw [hm]
    rfl
  · exact RowScan.status_of_nonpos (not_lt.mp hpos) _ _

end Scan

/-- The newest row decides `ok`, the tip and the newest `m`; the values that occur decide
the rest. -/
structure PaperStatus.Describes (st : PaperStatus) (rows : List Json) : Prop where
  no_rows : (∀ row ∈ rows, readRow id row = none) → st.ok = false
  newest : ∀ id m, NewestRow rows id m →
    (st.ok = true ↔ 0 < id ∧ m.isSome = true) ∧ (st.ok = true → st.tipId = id ∧ st.newestM = m)
  mixed : st.ok = true → (st.mixed = true ↔ ∃ x ∈ rowMs rows, ∃ y ∈ rowMs rows, x ≠ y)
  majority : st.ok = true → ∃ mode ∈ rowMs rows,
    (∀ x, (rowMs rows).count x ≤ (rowMs rows).count mode) ∧
    (∀ x, (rowMs rows).count x = (rowMs rows).count mode → mode ≤ x) ∧
    st.majorityM = if 0 < mode then some mode else none

theorem RowScan.status_ok {id : ℤ} {m : Option ℤ} {counts : List (ℤ × ℕ)} :
    (RowScan.status ⟨id, m, counts⟩).ok = true ↔ 0 < id ∧ m.isSome = true := by
  cases m with
  | none => simp [status]
  | some m =>
    by_cases h : id ≤ 0
    · simp [status, h, not_lt.mpr h]
    · simp [status, h, not_le.mp h]

theorem RowScan.status_fields {id : ℤ} {m : Option ℤ} {counts : List (ℤ × ℕ)}
    (hok : (RowScan.status ⟨id, m, counts⟩).ok = true) :
    RowScan.status ⟨id, m, counts⟩ =
      { ok := true
        tipId := id
        newestM := m
        majorityM := if 0 < XnMiner.majority counts then some (XnMiner.majority counts) else none
        mixed := decide (1 < counts.length) } := by
  obtain ⟨hpos, hsome⟩ := status_ok.mp hok
  obtain ⟨m, rfl⟩ := Option.isSome_iff_exists.mp hsome
  exact if_neg (not_le.mpr hpos)

section Status
variable {rows rows' : List Json}

/-- The parts of a status that the newest row does not decide. -/
theorem paperStatusOf_values (hok : (paperStatusOf rows).ok = true) :
    ((paperStatusOf rows).mixed = true ↔ ∃ x ∈ rowMs rows, ∃ y ∈ rowMs rows, x ≠ y) ∧
    ∃ mode ∈ rowMs rows, (∀ x, (rowMs rows).count x ≤ (rowMs rows).count mode) ∧
      (∀ x, (rowMs rows).count x = (rowMs rows).count mode → mode ≤ x) ∧
      (paperStatusOf rows).majorityM = if 0 < mode then some mode else none := by
  have hne : rows ≠ [] := by
    rintro rfl
    exact absurd hok (by decide)
  rw [paperStatusOf_eq hne] at hok ⊢
  obtain ⟨hpos, hsome⟩ := RowScan.status_ok.mp hok
  obtain ⟨r, hr, hbest⟩ := bestRow_mem hpos
  obtain ⟨newest, hnewest⟩ := Option.isSome_iff_exists.mp hsome
  rw [hbest] at hnewest
  have hin : newest ∈ rowMs rows := List.mem_filterMap.mpr ⟨r, hr, hnewest⟩
  obtain ⟨mode, hmode, hmem, hmost, hleast⟩ := mode_tally 0 (List.ne_nil_of_mem hin)
  have hmaj : XnMiner.majority (tally (rowMs rows)) = mode := hmode
  rw [RowScan.status_fields hok, hmaj]
  exact ⟨decide_eq_true_iff.trans one_lt_length_tally, mode, hmem, hmost, hleast, rfl⟩

/-- Safe rows give one status in every order, and it describes them. -/
theorem NarrowSafe.paperStatusOf_perm (h : NarrowSafe rows) (hp : rows.Perm rows') :
    paperStatusOf rows' = paperStatusOf rows := by
  cases rows with
  | nil => rw [hp.nil_eq]
  | cons row rest =>
    have hne : row :: rest ≠ [] := List.cons_ne_nil row rest
    have hne' : rows' ≠ [] := fun heq => hne (heq ▸ hp).eq_nil
    have hreads : (rowReads (row :: rest)).Perm (rowReads rows') := hp.filterMap _
    have hsafe : NarrowSafe rows' := h.perm hp
    have hcounts : tally (rowMs (row :: rest)) = tally (rowMs rows') :=
      tally_perm (hreads.filterMap Prod.snd)
    rw [paperStatusOf_eq hne, paperStatusOf_eq hne', hcounts]
    by_cases hsealed : ∃ id m, NewestRow (row :: rest) id m ∧ 0 < id ∧ m.isSome = true
    · obtain ⟨id, m, hrow, hpos, hm⟩ := hsealed
      rw [h.bestRow_eq hrow hpos hm, hsafe.bestRow_eq (hrow.perm hp) hpos hm]
    · have hnone : ∀ id m, NewestRow (row :: rest) id m → ¬ (0 < id ∧ m.isSome = true) :=
        fun id m hrow hboth => hsealed ⟨id, m, hrow, hboth⟩
      rw [h.status_of_unsealed hnone, hsafe.status_of_unsealed fun id m hrow =>
        hnone id m (hrow.perm hp.symm)]

theorem NarrowSafe.describes (h : NarrowSafe rows) : (paperStatusOf rows).Describes rows := by
  refine ⟨fun hnone => ?_, fun id m hrow => ?_, fun hok => (paperStatusOf_values hok).1,
    fun hok => (paperStatusOf_values hok).2⟩
  · have hreads : rowReads rows = [] := List.filterMap_eq_nil_iff.mpr hnone
    by_cases hne : rows = []
    · rw [hne]
      rfl
    · rw [paperStatusOf_eq hne, bestRow, hreads]
      rfl
  · have hne : rows ≠ [] := by
      rintro rfl
      exact absurd hrow.1 List.not_mem_nil
    rw [paperStatusOf_eq hne]
    by_cases hsealed : ∃ id m, NewestRow rows id m ∧ 0 < id ∧ m.isSome = true
    · obtain ⟨id', m', hrow', hpos, hm⟩ := hsealed
      -- a row as new as one that can be sealed has its `m`
      have hid : id = id' := le_antisymm (hrow'.2 _ hrow.1) (hrow.2 _ hrow'.1)
      obtain ⟨hfits, hrest⟩ := h.kept id' m' hrow' hpos hm
      have hsame : m = m' := (hrest _ hrow.1).2 (by rw [hid]; exact toInt32_eq_iff.mpr hfits)
      rw [h.bestRow_eq hrow' hpos hm, hid, hsame]
      refine ⟨RowScan.status_ok, fun hok => ?_⟩
      rw [RowScan.status_fields hok]
      exact ⟨rfl, rfl⟩
    · rw [h.status_of_unsealed fun id m hrow hboth => hsealed ⟨id, m, hrow, hboth⟩]
      refine ⟨⟨fun hok => absurd hok Bool.false_ne_true, fun hboth => ?_⟩,
        fun hok => absurd hok Bool.false_ne_true⟩
      exact absurd ⟨id, m, hrow, hboth⟩ hsealed

/-- A status that describes the rows in every order is that of safe rows. -/
theorem narrowSafe_of_orders (hdescribes : (paperStatusOf rows).Describes rows)
    (horders : ∀ rows', rows.Perm rows' → paperStatusOf rows' = paperStatusOf rows) :
    NarrowSafe rows := by
  -- each row that narrowing makes newest gives the status, when it is put first
  have hfirst : ∀ r ∈ rowReads rows, (∀ q ∈ rowReads rows, toInt32 q.1 ≤ toInt32 r.1) →
      0 < toInt32 r.1 → ∃ counts, paperStatusOf rows = RowScan.status ⟨toInt32 r.1, r.2, counts⟩ := by
    intro r hr hmost hpos
    obtain ⟨rows', hp, hbest⟩ := exists_perm_bestRow hr hmost hpos
    have hne' : rows' ≠ [] := by
      rintro rfl
      rw [hp.eq_nil] at hr
      exact absurd hr List.not_mem_nil
    refine ⟨tally (rowMs rows'), ?_⟩
    rw [← horders rows' hp, paperStatusOf_eq hne', hbest]
    rfl
  constructor
  · intro id m hrow hpos hm
    obtain ⟨hok, hfields⟩ := hdescribes.newest id m hrow
    have hsealed := hok.mpr ⟨hpos, hm⟩
    have hne : rows ≠ [] := by
      rintro rfl
      exact absurd hrow.1 List.not_mem_nil
    -- the row the pass ended with
    have hbestpos : 0 < (bestRow rows).1 := by
      rw [paperStatusOf_eq hne] at hsealed
      exact (RowScan.status_ok.mp hsealed).1
    have hown : ∀ r ∈ rowReads rows, toInt32 r.1 = (bestRow rows).1 →
        toInt32 r.1 = id ∧ r.2 = m := by
      intro r hr heq
      obtain ⟨counts, hstatus⟩ :=
        hfirst r hr (fun q hq => heq ▸ le_bestRow hq) (heq ▸ hbestpos)
      obtain ⟨htip, hnewest⟩ := hfields hsealed
      rw [hstatus] at hsealed htip hnewest
      rw [RowScan.status_fields hsealed] at htip hnewest
      exact ⟨htip, hnewest⟩
    obtain ⟨best, hbest, heq⟩ := bestRow_mem hbestpos
    have hid : toInt32 best.1 = id := (hown best hbest (by rw [heq]; rfl)).1
    have htop : (bestRow rows).1 = id := by
      rw [heq]
      exact hid
    refine ⟨hid ▸ fitsInt_toInt32 best.1, fun r hr => ⟨htop ▸ le_bestRow hr, fun hr' => ?_⟩⟩
    exact (hown r hr (hr'.trans htop.symm)).2
  · intro id m hrow hbad r hr hmost hpos
    obtain ⟨counts, hstatus⟩ := hfirst r hr hmost hpos
    have hok := (hdescribes.newest id m hrow).1
    rw [hstatus, RowScan.status_ok] at hok
    by_contra hm
    exact hbad (hok.mp ⟨hpos, Option.isSome_iff_ne_none.mpr hm⟩)

end Status

def HttpResponse.delivered (resp : HttpResponse) : Prop :=
  200 ≤ resp.status ∧ resp.status < 300 ∧ resp.error = []

theorem fetch_eq {what : Str → Str} {resp : HttpResponse} (h : resp.delivered) {rows : List Json}
    (hbody : parse resp.body = some (.arr rows)) :
    LastblockPoller.fetch what resp = paperStatusOf rows := by
  obtain ⟨hlow, hhigh, herror⟩ := h
  rw [LastblockPoller.fetch, if_neg, if_neg, hbody]
  · omega
  · rw [not_or, not_not]
    exact ⟨by omega, herror⟩

def answerOf (rows : List Json) : HttpResponse := { status := 200, body := dumpText (.arr rows) }

theorem answerOf_delivered (rows : List Json) : (answerOf rows).delivered := by
  have hsuccess : (200 : ℤ) < 300 := by decide
  exact ⟨le_refl _, hsuccess, rfl⟩

theorem parse_answerOf_exact {rows : List Json} (h : exactOk (.arr rows) = true) :
    parse (answerOf rows).body = some (.arr rows) := (dump_of_exactOk h).2

/-- Rows that an answer has can be sent in every order. -/
theorem parse_answerOf {body : Str} {rows rows' : List Json}
    (hbody : parse body = some (.arr rows)) (hp : rows.Perm rows') :
    parse (answerOf rows').body = some (.arr rows') := by
  have hexact : allElems validUtf8 Double.isFinite rows = true := exactOk_of_parse hbody
  refine parse_answerOf_exact ?_
  show allElems validUtf8 Double.isFinite rows' = true
  rw [allElems_eq_all] at hexact ⊢
  exact hp.all_eq ▸ hexact

def lastblockRow (id : ℤ) (hash : Str) : Json :=
  .obj [("block_id".toList, .ofInt id), ("hash_to_verify".toList, .str hash)]

def mixedRows : List Json :=
  [lastblockRow 7 "$argon2id$v=19$m=1100,t=1,p=1$".toList, .null,
   lastblockRow 9 "$argon2id$v=19$m=100,t=1,p=1$".toList,
   lastblockRow 8 "$argon2id$v=19$m=1100,t=1,p=1$".toList,
   lastblockRow 6 "$argon2id$v=19$m=100,t=1,p=1$".toList]

def wideRows : List Json :=
  [lastblockRow 4294967303 "$argon2id$v=19$m=1100,t=1,p=1$".toList,
   lastblockRow 7 "$argon2id$v=19$m=100,t=1,p=1$".toList]

end XnMiner
