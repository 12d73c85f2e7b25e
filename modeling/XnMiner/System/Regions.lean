import XnMiner.System.Machine
import Mathlib.Algebra.Order.BigOperators.Group.Finset
import Mathlib.Data.Fintype.Basic
import Mathlib.Data.Set.Disjoint
import Mathlib.Logic.Function.Basic
import Mathlib.Order.CompletePartialOrder

/-! # Processes that work on regions of their own

Processes with a program each share a memory, and a scheduler picks whose operation is next. Where
each process reads and writes only in a region of its own, every schedule leaves in each region
what the process of that region computes alone.
-/
namespace Regions
open Transitions

variable {ι σ A V O : Type*}

structure Programs (ι σ A V O : Type*) where
  exec : O → σ → (A → V) → σ × (A → V)
  program : ι → List O
  start : ι → σ

structure World (ι σ A V O : Type*) where
  memory : A → V
  state : ι → σ
  rest : ι → List O

namespace Programs
variable (P : Programs ι σ A V O) (memory : A → V)

def alone (i : ι) (ops : List O) : σ × (A → V) :=
  ops.foldl (fun s op => P.exec op s.1 s.2) (P.start i, memory)

theorem alone_concat (i : ι) (ops : List O) (op : O) :
    P.alone memory i (ops ++ [op]) =
      P.exec op (P.alone memory i ops).1 (P.alone memory i ops).2 := by
  rw [alone, List.foldl_append]
  rfl

variable [DecidableEq ι]

def next (s : World ι σ A V O) (i : ι) (op : O) (ops : List O) : World ι σ A V O where
  memory := (P.exec op (s.state i) s.memory).2
  state := Function.update s.state i (P.exec op (s.state i) s.memory).1
  rest := Function.update s.rest i ops

def machine : Machine (World ι σ A V O) ι where
  init s := s = ⟨memory, P.start, P.program⟩
  step s i t := ∃ op ops, s.rest i = op :: ops ∧ t = P.next s i op ops

/-- The memories in which all processes can end. -/
def Ends (memory' : A → V) : Prop :=
  ∃ s, (P.machine memory).Reachable s ∧ (∀ i, s.rest i = []) ∧ s.memory = memory'

/-- What is left gets less with each step, so all programs can be run to their ends. -/
theorem exists_end [Fintype ι] {s : World ι σ A V O} (h : (P.machine memory).Reachable s) :
    ∃ memory', P.Ends memory memory' := by
  obtain ⟨n, hn⟩ : ∃ n, ∑ i, (s.rest i).length = n := ⟨_, rfl⟩
  induction n using Nat.strong_induction_on generalizing s with
  | _ n ih =>
    by_cases hend : ∀ i, s.rest i = []
    · exact ⟨s.memory, s, h, hend, rfl⟩
    · obtain ⟨i, hi⟩ := not_forall.mp hend
      obtain ⟨op, ops, hrest⟩ := List.exists_cons_of_ne_nil hi
      refine ih _ ?_ (h.next ⟨op, ops, hrest, rfl⟩) rfl
      rw [← hn]
      have hlt : ((P.next s i op ops).rest i).length < (s.rest i).length := by
        simp only [next, Function.update_self, hrest, List.length_cons, Nat.lt_succ_self]
      refine Finset.sum_lt_sum (fun j _ => ?_) ⟨i, Finset.mem_univ i, hlt⟩
      by_cases hj : j = i
      · exact hj ▸ hlt.le
      · simp only [next, Function.update_of_ne hj, le_refl]

end Programs

/-- From a state and a memory, and from all memories that look the same in the region, an operation
does the same in the region and nothing outside. -/
structure KeepsTo (exec : O → σ → (A → V) → σ × (A → V)) (region : Set A) (op : O) (s : σ)
    (memory : A → V) : Prop where
  state : ∀ m : A → V, (∀ a ∈ region, m a = memory a) → (exec op s m).1 = (exec op s memory).1
  inside : ∀ m : A → V, (∀ a ∈ region, m a = memory a) →
    ∀ a ∈ region, (exec op s m).2 a = (exec op s memory).2 a
  outside : ∀ m : A → V, (∀ a ∈ region, m a = memory a) → ∀ a ∉ region, (exec op s m).2 a = m a

variable [DecidableEq ι] {P : Programs ι σ A V O} {memory : A → V} {region : ι → Set A}

/-- Every process keeps to its region when it runs alone. -/
def Confined (P : Programs ι σ A V O) (memory : A → V) (region : ι → Set A) : Prop :=
  ∀ i ops op rest, P.program i = ops ++ op :: rest →
    KeepsTo P.exec (region i) op (P.alone memory i ops).1 (P.alone memory i ops).2

structure AsAlone (P : Programs ι σ A V O) (memory : A → V) (region : ι → Set A)
    (s : World ι σ A V O) (i : ι) (ops : List O) : Prop where
  program : P.program i = ops ++ s.rest i
  state : s.state i = (P.alone memory i ops).1
  inside : ∀ a ∈ region i, s.memory a = (P.alone memory i ops).2 a

/-- A step of a process takes this process on, and leaves the others where they are. -/
theorem AsAlone.step (hdisjoint : ∀ i j, i ≠ j → Disjoint (region i) (region j))
    (hconfined : Confined P memory region) {s : World ι σ A V O} {i j : ι} {op : O}
    {ops opsᵢ opsⱼ : List O} (hrest : s.rest i = op :: ops) (hi : AsAlone P memory region s i opsᵢ)
    (hj : AsAlone P memory region s j opsⱼ) :
    AsAlone P memory region (P.next s i op ops) j (if j = i then opsᵢ ++ [op] else opsⱼ) := by
  have hkeeps := hconfined i opsᵢ op ops (hrest ▸ hi.program)
  split
  next h =>
    subst h
    refine ⟨?_, ?_, ?_⟩
    · simp only [hi.program, hrest, Programs.next, Function.update_self, List.append_assoc,
        List.singleton_append]
    · simp only [Programs.alone_concat, Programs.next, Function.update_self, hi.state,
        hkeeps.state _ hi.inside]
    · intro a ha
      simp only [Programs.alone_concat, Programs.next, hi.state, hkeeps.inside _ hi.inside a ha]
  next h =>
    refine ⟨?_, ?_, ?_⟩
    · simp only [hj.program, Programs.next, Function.update_of_ne h]
    · simp only [Programs.next, Function.update_of_ne h, hj.state]
    · intro a ha
      have houtside : a ∉ region i := Set.disjoint_left.mp (hdisjoint j i h) ha
      simp only [Programs.next, hi.state, hkeeps.outside _ hi.inside a houtside, hj.inside a ha]

/-- In every state that can be reached, each process and its region are as if it ran alone, and
the memory outside all regions has not changed. -/
theorem asAlone_of_reachable (hdisjoint : ∀ i j, i ≠ j → Disjoint (region i) (region j))
    (hconfined : Confined P memory region) {s : World ι σ A V O}
    (h : (P.machine memory).Reachable s) :
    (∀ i, ∃ ops, AsAlone P memory region s i ops) ∧
      ∀ a, (∀ i, a ∉ region i) → s.memory a = memory a := by
  refine h.invariant (I := fun s => (∀ i, ∃ ops, AsAlone P memory region s i ops) ∧
    ∀ a, (∀ i, a ∉ region i) → s.memory a = memory a) ?_ ?_
  · rintro s rfl
    exact ⟨fun i => ⟨[], rfl, rfl, fun _ _ => rfl⟩, fun _ _ => rfl⟩
  · rintro s i t - ⟨hall, hframe⟩ ⟨op, ops, hrest, rfl⟩
    obtain ⟨opsᵢ, hi⟩ := hall i
    have hkeeps := hconfined i opsᵢ op ops (hrest ▸ hi.program)
    constructor
    · intro j
      obtain ⟨opsⱼ, hj⟩ := hall j
      exact ⟨_, hi.step hdisjoint hconfined hrest hj⟩
    · intro a ha
      rw [← hframe a ha]
      change (P.exec op (s.state i) s.memory).2 a = s.memory a
      rw [hi.state, hkeeps.outside _ hi.inside a (ha i)]

/-- Whatever the schedule, a region ends as its process leaves it alone. -/
theorem ends_eq_alone (hdisjoint : ∀ i j, i ≠ j → Disjoint (region i) (region j))
    (hconfined : Confined P memory region) {memory' : A → V} (h : P.Ends memory memory') (i : ι) :
    ∀ a ∈ region i, memory' a = (P.alone memory i (P.program i)).2 a := by
  obtain ⟨s, hreach, hend, rfl⟩ := h
  obtain ⟨ops, hi⟩ := (asAlone_of_reachable hdisjoint hconfined hreach).1 i
  have hprogram := hi.program
  rw [hend i, List.append_nil] at hprogram
  rw [hprogram]
  exact hi.inside

end Regions
