import XnMiner.Queue.Index
import XnMiner.Queue.Outcome
import Mathlib.Data.List.Nodup
import Mathlib.Data.List.Pairwise

/-! # The representation invariant of the bag

The list, the hash index and the id counter agree. Only the id and the hash of a
block take part, so updates of the other fields keep the invariant; loading and
recovering add blocks one at a time by the same lemma as an enqueue.
-/
namespace XnMiner
open TextCodec

/-- Two blocks do not share a non-empty hash. -/
def Apart (p q : PendingBlock) : Prop := p.hit.hashStr ≠ [] → p.hit.hashStr ≠ q.hit.hashStr

structure BagInv (b : BlockStore) : Prop where
  nextId_pos : 1 ≤ b.nextId
  ids_range : ∀ pb ∈ b.pending, 1 ≤ pb.id ∧ pb.id < b.nextId
  ids_nodup : (b.pending.map PendingBlock.id).Nodup
  hashes_apart : b.pending.Pairwise Apart
  indexed : Indexed b

def blockKey (pb : PendingBlock) : ℤ × Str := (pb.id, pb.hit.hashStr)

theorem BagInv.empty : BagInv {} where
  nextId_pos := le_refl _
  ids_range := by simp
  ids_nodup := by simp
  hashes_apart := by simp
  indexed := rfl

theorem hashesOf_congr {xs ys : List PendingBlock} (h : xs.map blockKey = ys.map blockKey) :
    hashesOf xs = hashesOf ys := by
  have hh := congrArg (List.map Prod.snd) h
  simp only [List.map_map] at hh
  have hsnd : Prod.snd ∘ blockKey = fun pb => pb.hit.hashStr := rfl
  rw [hsnd] at hh
  rw [hashesOf, hh, hashesOf]

/-- Updates that keep ids and hashes keep the invariant. -/
theorem BagInv.of_keys {b b' : BlockStore} (h : BagInv b)
    (hk : b'.pending.map blockKey = b.pending.map blockKey)
    (hi : b'.hashIndex = b.hashIndex) (hn : b'.nextId = b.nextId) : BagInv b' where
  nextId_pos := hn ▸ h.nextId_pos
  ids_range := by
    intro pb hpb
    have hmem : blockKey pb ∈ b.pending.map blockKey := hk ▸ List.mem_map_of_mem hpb
    obtain ⟨e, he, hkey⟩ := List.mem_map.mp hmem
    have hid : e.id = pb.id := congrArg Prod.fst hkey
    rw [← hid, hn]
    exact h.ids_range e he
  ids_nodup := by
    have hids := congrArg (List.map Prod.fst) hk
    simp only [List.map_map] at hids
    have hfst : Prod.fst ∘ blockKey = PendingBlock.id := rfl
    rw [hfst] at hids
    exact hids ▸ h.ids_nodup
  hashes_apart := by
    have hkeys : (b.pending.map blockKey).Pairwise fun p q => p.2 ≠ [] → p.2 ≠ q.2 :=
      List.pairwise_map.mpr h.hashes_apart
    rw [← hk] at hkeys
    rw [List.pairwise_map] at hkeys
    exact hkeys
  indexed := by rw [Indexed, hi, h.indexed, hashesOf_congr hk]

theorem BagInv.dirty {b : BlockStore} (h : BagInv b) (n : ℕ) : BagInv { b with dirtyOps := n } :=
  h.of_keys rfl rfl rfl

/-- A block with a fresh id and a hash that is empty or not yet indexed can be added. -/
theorem BagInv.add {b : BlockStore} (h : BagInv b) {pb : PendingBlock} (hid : 1 ≤ pb.id)
    (hfresh : ∀ e ∈ b.pending, e.id ≠ pb.id)
    (hhash : pb.hit.hashStr = [] ∨ pb.hit.hashStr ∉ b.hashIndex) : BagInv (addLoaded b pb) where
  nextId_pos := by
    have := h.nextId_pos
    simp only [addLoaded]
    omega
  ids_range := by
    intro e he
    simp only [addLoaded, List.mem_append, List.mem_singleton] at he ⊢
    rcases he with he | rfl
    · have := h.ids_range e he
      omega
    · omega
  ids_nodup := by
    simp only [addLoaded, List.map_append, List.map_cons, List.map_nil]
    rw [List.nodup_append]
    refine ⟨h.ids_nodup, by simp, ?_⟩
    intro i hi j hj
    obtain ⟨e, he, rfl⟩ := List.mem_map.mp hi
    obtain rfl : j = pb.id := by simpa using hj
    exact hfresh e he
  hashes_apart := by
    simp only [addLoaded]
    rw [List.pairwise_append]
    refine ⟨h.hashes_apart, by simp, ?_⟩
    intro e he q hq hne heq
    obtain rfl : q = pb := by simpa using hq
    have hin : q.hit.hashStr ∈ b.hashIndex := by
      rw [h.indexed, mem_hashesOf, ← heq]
      exact ⟨hne, e, he, rfl⟩
    rcases hhash with hempty | hout
    · exact hne (heq ▸ hempty)
    · exact hout hin
  indexed := Indexed.addLoaded h.indexed pb

theorem addFresh_eq (b : BlockStore) (hit : BlockHit) (reason : Str) :
    addFresh b hit reason = addLoaded b (freshBlock b hit reason) := by
  simp only [addFresh, pushBlock, claimId, addLoaded, freshBlock]
  congr 1
  omega

theorem BagInv.fresh {b : BlockStore} (h : BagInv b) {hit : BlockHit} (reason : Str)
    (hd : ¬ isDuplicate b hit) : BagInv (addFresh b hit reason) := by
  rw [addFresh_eq]
  refine h.add h.nextId_pos ?_ ?_
  · intro e he
    have := (h.ids_range e he).2
    exact fun heq => by simp only [freshBlock] at heq; omega
  · by_cases hne : hit.hashStr = []
    · exact .inl hne
    · exact .inr fun hin => hd ⟨hne, hin⟩

/-- Distinct pending blocks have distinct non-empty hashes. -/
theorem BagInv.eq_of_hash {b : BlockStore} (h : BagInv b) {p q : PendingBlock}
    (hp : p ∈ b.pending) (hq : q ∈ b.pending) (hne : p.hit.hashStr ≠ [])
    (heq : p.hit.hashStr = q.hit.hashStr) : p = q := by
  by_contra hpq
  have : Std.Symm Apart := ⟨fun _ _ hxy hy heq => hxy (heq ▸ hy) heq.symm⟩
  exact h.hashes_apart.forall hp hq hpq hne heq

theorem BagInv.eq_of_id {b : BlockStore} (h : BagInv b) {p q : PendingBlock}
    (hp : p ∈ b.pending) (hq : q ∈ b.pending) (heq : p.id = q.id) : p = q :=
  List.inj_on_of_nodup_map h.ids_nodup hp hq heq

theorem BagInv.eraseId {b : BlockStore} (h : BagInv b) (id : ℤ) : BagInv (eraseId b id) where
  nextId_pos := h.nextId_pos
  ids_range := fun pb hpb => h.ids_range pb (List.mem_filter.mp hpb).1
  ids_nodup := (List.filter_sublist.map _).nodup h.ids_nodup
  hashes_apart := h.hashes_apart.sublist List.filter_sublist
  indexed := by
    ext x
    simp only [XnMiner.eraseId, h.indexed.mem_iff, Finset.mem_sdiff, mem_hashesOf, List.mem_filter,
      decide_eq_true_eq, not_and, not_exists]
    constructor
    · rintro ⟨⟨hne, pb, hpb, rfl⟩, hout⟩
      exact ⟨hne, pb, ⟨hpb, fun hid => hout hne pb ⟨hpb, hid⟩ rfl⟩, rfl⟩
    · rintro ⟨hne, pb, ⟨hpb, hid⟩, rfl⟩
      refine ⟨⟨hne, pb, hpb, rfl⟩, ?_⟩
      rintro - q ⟨hq, hqid⟩ heq
      obtain rfl := h.eq_of_hash hpb hq hne heq.symm
      exact hid hqid

theorem BagInv.eraseIds {b : BlockStore} (h : BagInv b) (ids : List ℤ) : BagInv (eraseIds b ids) := by
  induction ids generalizing b with
  | nil => exact h
  | cons id ids ih => exact ih (h.eraseId id)

theorem BagInv.setReason {b : BlockStore} (h : BagInv b) (id : ℤ) (reason : Str) :
    BagInv (setReason b id reason) := by
  refine h.of_keys ?_ rfl rfl
  dsimp only [XnMiner.setReason]
  exact map_modifyFirst (by exact fun _ => rfl) b.pending

theorem BagInv.setForwarded {b : BlockStore} (h : BagInv b) (id : ℤ) :
    BagInv (setForwarded b id) := by
  refine h.of_keys ?_ rfl rfl
  dsimp only [XnMiner.setForwarded]
  exact map_modifyFirst (by exact fun _ => rfl) b.pending

theorem BagInv.setForwardedAll {b : BlockStore} (h : BagInv b) (ids : List ℤ) :
    BagInv (ids.foldl XnMiner.setForwarded b) := by
  induction ids generalizing b with
  | nil => exact h
  | cons id ids ih => exact ih (h.setForwarded id)

theorem BagInv.deferAll {b : BlockStore} (h : BagInv b) (minute : ℕ) : BagInv (deferAll b minute) :=
  h.of_keys (by simp [XnMiner.deferAll, Function.comp_def, blockKey]) rfl rfl

end XnMiner
