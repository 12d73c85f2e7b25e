import Mathlib.Data.List.Sort
import Mathlib.Data.List.MinMax

/-! # Prefixes of lists sorted by a key

A proper prefix of a sorted list without repeated keys misses the greatest element,
whichever elements the list was filled up with.
-/
namespace SortedPrefix

variable {α β : Type*} [LinearOrder β] (key : α → β)

theorem exists_greatest {l : List α} (h : l ≠ []) : ∃ g ∈ l, ∀ x ∈ l, key x ≤ key g := by
  cases hm : l.argmax key with
  | none => exact absurd (List.argmax_eq_none.mp hm) h
  | some g => exact ⟨g, List.argmax_mem hm, fun x hx => List.le_of_mem_argmax hx hm⟩

theorem greatest_notMem_take {l : List α} (hs : l.Pairwise fun x y => key x ≤ key y)
    (hn : (l.map key).Nodup) {g : α} (hg : ∀ x ∈ l, key x ≤ key g) {k : ℕ} (hk : k < l.length) :
    g ∉ l.take k := by
  intro hmem
  have hsplit := List.take_append_drop k l
  have hdrop : l.drop k ≠ [] := by
    rw [Ne, List.drop_eq_nil_iff]
    omega
  obtain ⟨y, hy⟩ := List.exists_mem_of_ne_nil _ hdrop
  have hle : key g ≤ key y := by
    rw [← hsplit, List.pairwise_append] at hs
    exact hs.2.2 g hmem y hy
  have heq : key g = key y := le_antisymm hle (hg y (List.mem_of_mem_drop hy))
  rw [← hsplit, List.map_append, List.nodup_append] at hn
  exact hn.2.2 _ (List.mem_map_of_mem hmem) _ (List.mem_map_of_mem hy) heq

theorem pairwise_insertionSort_key (r : α → α → Prop) [DecidableRel r]
    (hr : ∀ x y, r x y ↔ key x ≤ key y) (l : List α) :
    (l.insertionSort r).Pairwise fun x y => key x ≤ key y := by
  have : Std.Total r := ⟨fun x y => by simpa only [hr] using le_total _ _⟩
  have : IsTrans α r := ⟨fun x y z hxy hyz => by
    rw [hr] at hxy hyz ⊢
    exact hxy.trans hyz⟩
  exact (List.pairwise_insertionSort r l).imp fun h => (hr _ _).mp h

/-- A strictly sorted list is determined by its elements. -/
theorem eq_of_perm_of_pairwise {l k : List α} (hp : l.Perm k)
    (hl : l.Pairwise fun x y => key x < key y) (hk : k.Pairwise fun x y => key x < key y) :
    l = k :=
  hp.eq_of_pairwise (fun _ _ _ _ hxy hyx => absurd hxy hyx.asymm) hl hk

end SortedPrefix
