import XnMiner.Queue.Restart

/-! # Hits between machines and in files

A hit is written with all its fields. It is read back with `attempts` as the type of the
default, which is `int`.
-/
namespace XnMiner
open TextCodec

def bagRoot (hits : List BlockHit) (worker : Str) : Json :=
  .obj [("hits".toList, .arr (hits.map fun hit => .obj (hitToJson hit))),
    ("worker".toList, .str worker)]

def hitsToBagJson (hits : List BlockHit) (worker : Str) : Option Str := dump (bagRoot hits worker)

section Decoding
variable (castInt : ℤ → ℤ)

/-- An item that is no object or names no block is passed over. -/
def takeHit (out : List BlockHit) (item : Json) : Option (List BlockHit) :=
  match item with
  | .obj fs => (hitFromJson castInt (.obj fs)).map fun hit =>
    if hit.hashStr = [] ∧ hit.key = [] then out else out ++ [hit]
  | _ => some out

/-- The hits of a document and the name of its worker, if it has one; `none` is an exception. -/
def hitsFromBagJson (body : Str) : Option (List BlockHit × Option Str) :=
  match parse body with
  | none => some ([], none)
  | some root => do
    let worker ←
      if (member root "worker".toList).isSome then
        (value root "worker".toList getStr []).map some
      else if (member root "source".toList).isSome then
        (value root "source".toList getStr []).map some
      else some none
    let hits ← match member root "hits".toList, member root "pending".toList with
      | some (.arr items), _ => items.foldlM (takeHit castInt) []
      | _, some (.arr items) => items.foldlM (takeHit castInt) []
      | _, _ =>
        if (member root "hash_str".toList).isSome || (member root "key".toList).isSome then
          takeHit castInt [] root
        else some []
    some (hits, worker)

theorem hitFromJson_hitToJson (hit : BlockHit) :
    hitFromJson castInt (.obj (hitToJson hit)) = some (narrowHit castInt hit) := by
  rcases hit with ⟨key, hash, type, attempts, strategy, hps, found, cost⟩
  cases cost <;> rfl

def BlockHit.named (hit : BlockHit) : Bool := !(hit.hashStr.isEmpty && hit.key.isEmpty)

theorem takeHit_hitToJson (out : List BlockHit) (hit : BlockHit) :
    takeHit castInt out (.obj (hitToJson hit)) =
      some (out ++ ([hit].filter BlockHit.named).map (narrowHit castInt)) := by
  have hnamed : ((narrowHit castInt hit).hashStr = [] ∧ (narrowHit castInt hit).key = []) ↔
      hit.named = false := by
    simp [narrowHit, BlockHit.named]
  rw [takeHit, hitFromJson_hitToJson, Option.map_some]
  simp only [hnamed]
  cases hn : hit.named <;> simp [hn]

theorem takeHits_hitToJson (out : List BlockHit) (hits : List BlockHit) :
    (hits.map fun hit => Json.obj (hitToJson hit)).foldlM (takeHit castInt) out =
      some (out ++ (hits.filter BlockHit.named).map (narrowHit castInt)) := by
  induction hits generalizing out with
  | nil => simp
  | cons hit hits ih =>
    rw [List.map_cons, List.foldlM_cons, takeHit_hitToJson]
    dsimp only [Option.bind_eq_bind, Option.bind_some]
    rw [ih, List.append_assoc, ← List.map_append, ← List.filter_append, List.singleton_append]

end Decoding

/-- The hits that the program can hold and JSON can carry. -/
structure BlockHit.carried (hit : BlockHit) : Prop where
  utf8 : hit.utf8 = true
  finite : hit.hps.isFinite = true
  cost : ∀ m, hit.memoryCost = some m → fitsInt m

theorem exactOk_hitToJson {hit : BlockHit} (h : hit.carried) :
    exactOk (.obj (hitToJson hit)) = true := by
  obtain ⟨hutf8, hfinite, -⟩ := h
  rcases hit with ⟨key, hash, type, attempts, strategy, hps, found, cost⟩
  simp only [BlockHit.utf8, Bool.and_eq_true] at hutf8
  obtain ⟨⟨⟨⟨hkey, hhash⟩, htype⟩, hstrategy⟩, hfound⟩ := hutf8
  obtain ⟨x, rfl⟩ : ∃ x, hps = .finite x := by
    cases hps with
    | finite x => exact ⟨x, rfl⟩
    | nonfinite => cases hfinite
  have hmembers : exactOk (.obj (hitToJson ⟨key, hash, type, attempts, strategy, .finite x, found,
      cost⟩)) = (validUtf8 type && (validUtf8 found && (validUtf8 hash && (validUtf8 key &&
        (validUtf8 strategy && true))))) := by
    cases cost <;> rfl
  rw [hmembers, htype, hfound, hhash, hkey, hstrategy]
  rfl

/-- A carried hit is read back as it was exactly if `attempts` fits. -/
theorem BlockHit.carried.narrow_iff {hit : BlockHit} (h : hit.carried) :
    narrowHit toInt32 hit = hit ↔ fitsInt hit.attempts := by
  rw [narrowHit_eq_iff, toInt32_eq_iff]
  exact and_iff_left fun m hm => toInt32_eq_iff.mpr (h.cost m hm)

theorem exactOk_bagRoot {hits : List BlockHit} {worker : Str}
    (hhits : ∀ hit ∈ hits, hit.carried) (hworker : validUtf8 worker = true) :
    exactOk (bagRoot hits worker) = true := by
  have hitems : (hits.map fun hit => Json.obj (hitToJson hit)).all exactOk = true := by
    rw [List.all_map, List.all_eq_true]
    exact fun hit hmem => exactOk_hitToJson (hhits hit hmem)
  have hmembers : exactOk (bagRoot hits worker) = (allElems validUtf8 Double.isFinite
      (hits.map fun hit => .obj (hitToJson hit)) && (validUtf8 worker && true)) := rfl
  rw [hmembers, allElems_eq_all, hworker]
  exact Bool.and_eq_true_iff.mpr ⟨hitems, rfl⟩

/-- A bag of carried hits arrives with its worker; the hits are the named ones, narrowed. -/
theorem hitsFromBagJson_bag (castInt : ℤ → ℤ) {hits : List BlockHit} {worker : Str}
    (hhits : ∀ hit ∈ hits, hit.carried) (hworker : validUtf8 worker = true) :
    (hitsToBagJson hits worker).bind (hitsFromBagJson castInt) =
      some ((hits.filter BlockHit.named).map (narrowHit castInt), some worker) := by
  obtain ⟨hdump, hparse⟩ := dump_of_exactOk (exactOk_bagRoot hhits hworker)
  have hsent : hitsToBagJson hits worker = some (dumpText (bagRoot hits worker)) := hdump
  have hname : member (bagRoot hits worker) "worker".toList = some (.str worker) := rfl
  have hitems : member (bagRoot hits worker) "hits".toList =
      some (.arr (hits.map fun hit => .obj (hitToJson hit))) := rfl
  have hvalue : value (bagRoot hits worker) "worker".toList getStr [] = some worker := rfl
  have htake := takeHits_hitToJson castInt [] hits
  rw [hsent, Option.bind_some, hitsFromBagJson, hparse]
  dsimp only
  rw [hname, hitems, hvalue]
  simp only [Option.isSome_some, if_true, Option.map_some, Option.bind_eq_bind, Option.bind_some,
    htake, List.nil_append]

theorem narrow_all_iff {hits : List BlockHit} (hhits : ∀ hit ∈ hits, hit.carried) :
    hits.map (narrowHit toInt32) = hits ↔ ∀ hit ∈ hits, fitsInt hit.attempts := by
  conv_lhs => rhs; rw [← List.map_id hits]
  rw [List.map_inj_left]
  exact forall₂_congr fun hit hmem => (hhits hit hmem).narrow_iff

/-- The hits of the db document after saving and loading. -/
theorem loadDb_hits_iff {b : BlockStore} {text : Str} (hb : ∀ pb ∈ b.pending, pb.hit.carried)
    (htext : dump (dbJson b) = some text) :
    (loadDb toInt32 (some text)).pending.map PendingBlock.hit = b.pending.map PendingBlock.hit ↔
      ∀ pb ∈ b.pending, fitsInt pb.hit.attempts := by
  have hload := loadDb_savedAs toInt32 (.inr ⟨b, text, rfl, htext, rfl⟩)
    fun pb hpb => (hb pb hpb).finite
  have hhits : ∀ hit ∈ b.pending.map PendingBlock.hit, hit.carried := by
    intro hit hmem
    obtain ⟨pb, hpb, rfl⟩ := List.mem_map.mp hmem
    exact hb pb hpb
  have hmap : (b.pending.map (narrowBlock toInt32)).map PendingBlock.hit =
      (b.pending.map PendingBlock.hit).map (narrowHit toInt32) := by
    rw [List.map_map, List.map_map]
    rfl
  rw [hload, hmap, narrow_all_iff hhits]
  exact List.forall_mem_map

theorem recoverLine_hit_iff {b : BlockStore} {pb : PendingBlock} {queuedAt line : Str}
    (hpb : pb.hit.carried) (hnew : pb.hit.hashStr ≠ [] ∧ pb.hit.hashStr ∉ b.hashIndex)
    (hline : dump (queueRecord pb queuedAt) = some line) :
    (∃ b', recoverLine toInt32 b line = some b' ∧
        b'.pending.map PendingBlock.hit = b.pending.map PendingBlock.hit ++ [pb.hit]) ↔
      fitsInt pb.hit.attempts := by
  have hknown : ¬ (pb.hit.hashStr = [] ∨ pb.hit.hashStr ∈ b.hashIndex) := not_or.mpr hnew
  have hne : line ≠ [] := by
    rw [(dump_eq_some hline).2]
    exact dumpText_ne_nil _
  have hrecover : recoverLine toInt32 b line =
      some (addLoaded b (recoveredBlock toInt32 b pb)) := by
    obtain ⟨fs, hfs⟩ : ∃ fs, readBack (queueRecord pb queuedAt) = .obj fs := ⟨_, rfl⟩
    have hrecord := recoverRecord_queueRecord toInt32 b pb queuedAt
    rw [if_pos hpb.finite, if_neg hknown, hfs] at hrecord
    rw [recoverLine, if_neg hne, parse_of_dump hline, hfs]
    exact hrecord
  rw [hrecover]
  simp only [Option.some.injEq, exists_eq_left', addLoaded, recoveredBlock, List.map_append,
    List.map_cons, List.map_nil, List.append_cancel_left_eq, List.cons.injEq, and_true]
  exact hpb.narrow_iff

/-- In the codec, in a bag between machines, in the db document and in the log, a hit comes back
as it was if and only if its attempts fit an `int`. -/
theorem hit_codec_iff (hits : List BlockHit) (worker : Str) (b : BlockStore)
    (hhits : ∀ hit ∈ hits, hit.carried) (hworker : validUtf8 worker = true)
    (hbag : ∀ pb ∈ b.pending, pb.hit.carried) :
    (∀ hit ∈ hits,
      (hitFromJson toInt32 (.obj (hitToJson hit)) = some hit ↔ fitsInt hit.attempts)) ∧
    ((hitsToBagJson hits worker).bind (hitsFromBagJson toInt32) =
        some (hits.filter BlockHit.named, some worker) ↔
      ∀ hit ∈ hits, hit.named = true → fitsInt hit.attempts) ∧
    (∀ text, dump (dbJson b) = some text →
      ((loadDb toInt32 (some text)).pending.map PendingBlock.hit =
          b.pending.map PendingBlock.hit ↔ ∀ pb ∈ b.pending, fitsInt pb.hit.attempts)) ∧
    (∀ pb queuedAt line, pb.hit ∈ hits → pb.hit.hashStr ≠ [] ∧ pb.hit.hashStr ∉ b.hashIndex →
      dump (queueRecord pb queuedAt) = some line →
      ((∃ b', recoverLine toInt32 b line = some b' ∧
          b'.pending.map PendingBlock.hit = b.pending.map PendingBlock.hit ++ [pb.hit]) ↔
        fitsInt pb.hit.attempts)) := by
  refine ⟨?_, ?_, fun text => loadDb_hits_iff hbag, ?_⟩
  · intro hit hmem
    rw [hitFromJson_hitToJson, Option.some.injEq]
    exact (hhits hit hmem).narrow_iff
  · have hnamed : ∀ hit ∈ hits.filter BlockHit.named, hit.carried := fun hit hmem =>
      hhits hit (List.mem_of_mem_filter hmem)
    rw [hitsFromBagJson_bag toInt32 hhits hworker, Option.some.injEq, Prod.mk.injEq,
      and_iff_left rfl, narrow_all_iff hnamed]
    simp only [List.mem_filter, and_imp]
  · intro pb queuedAt line hmem
    exact recoverLine_hit_iff (hhits pb.hit hmem)

def lateHit : BlockHit := { key := "key".toList, hashStr := "digest".toList, attempts := 3000000000 }

theorem hit_codec_small :
    hitFromJson toInt32 (.obj (hitToJson { lateHit with attempts := 3000 })) =
      some { lateHit with attempts := 3000 } := by
  have hcarried : BlockHit.carried { lateHit with attempts := 3000 } :=
    ⟨by decide, rfl, by simp [lateHit]⟩
  exact ((hit_codec_iff [{ lateHit with attempts := 3000 }] [] {}
    (List.forall_mem_singleton.mpr hcarried) rfl nofun).1 _ List.mem_cons_self).mpr (by decide)

theorem hit_codec_narrows :
    lateHit.carried ∧
      (hitFromJson toInt32 (.obj (hitToJson lateHit))).map (fun hit => hit.attempts) =
        some (-1294967296) :=
  ⟨⟨by decide, rfl, by simp [lateHit]⟩, by decide +kernel⟩

end XnMiner
