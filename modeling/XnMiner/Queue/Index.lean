import XnMiner.Queue.Load
import Mathlib.Data.Finset.Lattice.Lemmas

/-! # The index of a constructed bag

Loading and recovering add blocks one at a time and index each, whatever the files
hold.
-/
namespace XnMiner
open TextCodec

/-- The index is the set of non-empty hashes of the list. -/
def Indexed (b : BlockStore) : Prop := b.hashIndex = hashesOf b.pending

theorem Indexed.mem_iff {b : BlockStore} (h : Indexed b) {x : Str} :
    x ∈ b.hashIndex ↔ x ≠ [] ∧ ∃ pb ∈ b.pending, pb.hit.hashStr = x := by
  rw [h, mem_hashesOf]

theorem hashesOf_append (xs ys : List PendingBlock) :
    hashesOf (xs ++ ys) = hashesOf xs ∪ hashesOf ys := by
  ext h
  simp only [mem_hashesOf, List.mem_append, Finset.mem_union]
  constructor
  · rintro ⟨hne, pb, hpb | hpb, he⟩
    · exact .inl ⟨hne, pb, hpb, he⟩
    · exact .inr ⟨hne, pb, hpb, he⟩
  · rintro (⟨hne, pb, hpb, he⟩ | ⟨hne, pb, hpb, he⟩)
    · exact ⟨hne, pb, .inl hpb, he⟩
    · exact ⟨hne, pb, .inr hpb, he⟩

theorem hashesOf_singleton (pb : PendingBlock) :
    hashesOf [pb] = if pb.hit.hashStr ≠ [] then {pb.hit.hashStr} else ∅ := by
  ext h
  split_ifs with hne
  · simp only [mem_hashesOf, List.mem_singleton, exists_eq_left, Finset.mem_singleton]
    exact ⟨fun hh => hh.2.symm, fun hh => ⟨hh ▸ hne, hh.symm⟩⟩
  · simp only [mem_hashesOf, List.mem_singleton, exists_eq_left, Finset.notMem_empty, iff_false,
      not_and]
    rintro hne' rfl
    exact hne hne'

theorem Indexed.empty (n : ℤ) : Indexed { nextId := n } := rfl

theorem Indexed.addLoaded {b : BlockStore} (h : Indexed b) (pb : PendingBlock) :
    Indexed (addLoaded b pb) := by
  simp only [Indexed, XnMiner.addLoaded]
  rw [hashesOf_append, hashesOf_singleton, h]
  split_ifs with hne
  · rw [← Finset.union_singleton]
  · simp

variable {castInt : ℤ → ℤ}

theorem Indexed.loadItems {b : BlockStore} (h : Indexed b) (items : List Json) :
    Indexed (loadItems castInt b items) := by
  induction items generalizing b with
  | nil => exact h
  | cons item items ih =>
    have hb : Indexed { b with nextId := b.nextId + 1 } := h
    rw [XnMiner.loadItems]
    cases pendingFromJson castInt item b.nextId with
    | none => exact hb
    | some pb => exact ih (hb.addLoaded pb)

theorem loadDb_indexed (db : Option Str) : Indexed (loadDb castInt db) := by
  unfold loadDb
  split
  · exact Indexed.empty 1
  · split
    · exact Indexed.empty 1
    · unfold loadRoot
      split
      · exact Indexed.empty 1
      · next n _ =>
        simp only
        split
        · split
          · exact (Indexed.empty n).loadItems _
          · exact Indexed.empty n
        · exact Indexed.empty n

/-- A recovered record is skipped when its digest is empty or known, and added otherwise. -/
theorem recoverRecord_cases {b b' : BlockStore} {rec : Json}
    (h : recoverRecord castInt b rec = some b') : ∃ hit, hitFromJson castInt rec = some hit ∧
      ((hit.hashStr = [] ∨ hit.hashStr ∈ b.hashIndex) ∧ b' = b ∨
        ¬ (hit.hashStr = [] ∨ hit.hashStr ∈ b.hashIndex) ∧ ∃ i reason count, b' = addLoaded b
          { id := repairId b i, hit, queueReason := reason, rejectCount := count }) := by
  simp only [recoverRecord, Option.bind_eq_bind, Option.bind_eq_some_iff] at h
  obtain ⟨hit, hhit, h⟩ := h
  refine ⟨hit, hhit, ?_⟩
  split_ifs at h with hseen
  · exact .inl ⟨hseen, (Option.some.inj h).symm⟩
  · simp only [Option.bind_eq_some_iff] at h
    obtain ⟨i, -, old, -, reason, -, count, -, hb⟩ := h
    exact .inr ⟨hseen, i, reason, count, (Option.some.inj hb).symm⟩

structure Extends (b b' : BlockStore) : Prop where
  indexed : Indexed b → Indexed b'
  index_subset : b.hashIndex ⊆ b'.hashIndex

theorem Extends.refl (b : BlockStore) : Extends b b := ⟨fun h => h, Finset.Subset.refl _⟩

theorem Extends.trans {b b1 b2 : BlockStore} (h : Extends b b1) (h' : Extends b1 b2) :
    Extends b b2 :=
  ⟨fun hb => h'.indexed (h.indexed hb), h.index_subset.trans h'.index_subset⟩

theorem Extends.addLoaded (b : BlockStore) (pb : PendingBlock) : Extends b (addLoaded b pb) where
  indexed := fun h => h.addLoaded pb
  index_subset := by
    simp only [XnMiner.addLoaded]
    split_ifs
    · exact Finset.subset_insert _ _
    · exact Finset.Subset.refl _

theorem extends_recoverLine {b b' : BlockStore} {line : Str}
    (h : recoverLine castInt b line = some b') : Extends b b' := by
  unfold recoverLine at h
  split at h
  · exact Option.some.inj h ▸ Extends.refl b
  · split at h
    · obtain ⟨hit, -, ⟨-, rfl⟩ | ⟨-, i, reason, count, rfl⟩⟩ := recoverRecord_cases h
      · exact Extends.refl _
      · exact Extends.addLoaded _ _
    · exact Option.some.inj h ▸ Extends.refl b

theorem extends_recoverLines {b b' : BlockStore} {lines : List Str}
    (h : recoverLines castInt b lines = some b') : Extends b b' := by
  induction lines generalizing b with
  | nil => exact Option.some.inj h ▸ Extends.refl b
  | cons line lines ih =>
    obtain ⟨b1, h1, h⟩ := Option.bind_eq_some_iff.mp h
    exact (extends_recoverLine h1).trans (ih h)

end XnMiner
