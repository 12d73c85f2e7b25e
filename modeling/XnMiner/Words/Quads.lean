import Mathlib.Data.List.Nodup
import Mathlib.Data.Fintype.Basic
import Mathlib.Tactic.FinCases

/-! # Steps on four places of a vector

A mixing function changes four places of a vector at a time. Steps on disjoint places do not see
each other.
-/

structure Quad (α : Type*) where
  a : α
  b : α
  c : α
  d : α
  deriving DecidableEq

namespace Quad

variable {α β : Type*} {n : ℕ}

def get (q : Quad α) : Fin 4 → α
  | 0 => q.a
  | 1 => q.b
  | 2 => q.c
  | 3 => q.d

@[ext] theorem ext_get {q r : Quad α} (h : ∀ k, q.get k = r.get k) : q = r := by
  cases q
  cases r
  rw [mk.injEq]
  exact ⟨h 0, h 1, h 2, h 3⟩

def map (f : α → β) (q : Quad α) : Quad β := ⟨f q.a, f q.b, f q.c, f q.d⟩

@[simp] theorem get_map (f : α → β) (q : Quad α) (k : Fin 4) : (q.map f).get k = f (q.get k) := by
  fin_cases k <;> rfl

def toList (q : Quad α) : List α := [q.a, q.b, q.c, q.d]

theorem get_mem_toList (q : Quad α) (k : Fin 4) : q.get k ∈ q.toList := by
  fin_cases k <;> simp [get, toList]

def read (q : Quad (Fin n)) (v : Vector α n) : Quad α := q.map fun i => v[i]

def write (q : Quad (Fin n)) (v : Vector α n) (x : Quad α) : Vector α n :=
  (((v.set q.a x.a).set q.b x.b).set q.c x.c).set q.d x.d

def on (q : Quad (Fin n)) (f : Quad α → Quad α) (v : Vector α n) : Vector α n :=
  q.write v (f (q.read v))

variable {q : Quad (Fin n)} {v : Vector α n} {f : Quad α → Quad α}

theorem get_read_of_eq {k : Fin 4} {i : ℕ} (hi : i < n) (hk : q.get k = ⟨i, hi⟩) :
    (q.read v).get k = v[i] := by
  have hval : i = (q.get k).val := by rw [hk]
  subst hval
  exact get_map _ q k

theorem getElem_on_of_notMem {i : Fin n} (hi : i ∉ q.toList) : (q.on f v)[i] = v[i] := by
  simp only [toList, List.mem_cons, List.not_mem_nil, or_false, not_or] at hi
  obtain ⟨ha, hb, hc, hd⟩ := hi
  simp only [on, write, Fin.getElem_fin, Vector.getElem_set, Fin.val_inj, Ne.symm ha,
    Ne.symm hb, Ne.symm hc, Ne.symm hd, if_false]

theorem getElem_on (hq : q.toList.Nodup) (k : Fin 4) :
    (q.on f v)[q.get k] = (f (q.read v)).get k := by
  simp only [toList, List.nodup_cons, List.mem_cons, List.not_mem_nil, or_false, not_or,
    List.nodup_nil, and_true, not_false_eq_true] at hq
  obtain ⟨⟨hab, hac, had⟩, ⟨hbc, hbd⟩, hcd⟩ := hq
  fin_cases k <;>
    simp [on, write, get, Fin.val_inj, Ne.symm hab, Ne.symm hac, Ne.symm had, Ne.symm hbc,
      Ne.symm hbd, Ne.symm hcd]

/-- One step after the other. -/
def onEach (qs : List (Quad (Fin n))) (f : Quad α → Quad α) (v : Vector α n) : Vector α n :=
  qs.foldl (fun v q => q.on f v) v

theorem getElem_onEach_of_notMem {qs : List (Quad (Fin n))} {i : Fin n}
    (hi : i ∉ qs.flatMap toList) : (onEach qs f v)[i] = v[i] := by
  induction qs generalizing v with
  | nil => rfl
  | cons q qs ih =>
    rw [List.flatMap_cons, List.mem_append, not_or] at hi
    exact (ih hi.2).trans (getElem_on_of_notMem hi.1)

/-- Where no two steps share a place, each works on the vector at the start. -/
theorem getElem_onEach {qs : List (Quad (Fin n))} (hqs : (qs.flatMap toList).Nodup)
    (hq : q ∈ qs) (k : Fin 4) : (onEach qs f v)[q.get k] = (f (q.read v)).get k := by
  induction qs generalizing v with
  | nil => cases hq
  | cons r qs ih =>
    rw [List.flatMap_cons, List.nodup_append] at hqs
    obtain ⟨hr, htail, hdisj⟩ := hqs
    have hstep : onEach (r :: qs) f v = onEach qs f (r.on f v) := rfl
    rw [hstep]
    rcases List.mem_cons.mp hq with rfl | hq
    · have hlater : q.get k ∉ qs.flatMap toList := by
        intro hmem
        exact hdisj _ (q.get_mem_toList k) _ hmem rfl
      rw [getElem_onEach_of_notMem hlater, getElem_on hr]
    · have hread : q.read (r.on f v) = q.read v := by
        apply ext_get
        intro j
        have hbefore : q.get j ∉ r.toList := by
          intro hmem
          exact hdisj _ hmem _ (List.mem_flatMap.mpr ⟨q, hq, q.get_mem_toList j⟩) rfl
        rw [read, read, get_map, get_map, getElem_on_of_notMem hbefore]
      rw [ih htail hq, hread]

theorem getElem_onEach_of_eq {qs : List (Quad (Fin n))} (hqs : (qs.flatMap toList).Nodup)
    (hq : q ∈ qs) {k : Fin 4} {i : ℕ} (hi : i < n) (hk : q.get k = ⟨i, hi⟩) :
    (onEach qs f v)[i] = (f (q.read v)).get k := by
  have hval : i = (q.get k).val := by rw [hk]
  subst hval
  exact getElem_onEach hqs hq k

end Quad
