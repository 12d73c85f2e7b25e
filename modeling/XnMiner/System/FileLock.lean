import Mathlib.Data.Nat.Notation
import Mathlib.Logic.Function.Basic
import Mathlib.Tactic.SplitIfs

/-! # Advisory locks on the inodes behind one path

`flock` locks an inode through an open file. Opening with `O_CREAT` follows the path,
or makes a new inode when it names none, and `remove` unlinks the path whoever has
the inode open.
-/
namespace FileLocks

/-- One path of a file system, with the locks on its inodes. `P` names open files. -/
structure LockFs (P : Type*) where
  path : Option ℕ
  fresh : ℕ
  owner : ℕ → Option P

variable {P : Type*}

def LockFs.empty : LockFs P := { path := none, fresh := 0, owner := fun _ => none }

/-- The inode `open` with `O_CREAT` ends up on. -/
def LockFs.target (fs : LockFs P) : ℕ := fs.path.getD fs.fresh

def LockFs.openCreate (fs : LockFs P) : LockFs P :=
  match fs.path with
  | some _ => fs
  | none => { fs with path := some fs.fresh, fresh := fs.fresh + 1 }

def LockFs.lock (fs : LockFs P) (p : P) (i : ℕ) : LockFs P :=
  { fs with owner := Function.update fs.owner i (some p) }

def LockFs.remove (fs : LockFs P) : LockFs P := { fs with path := none }

@[simp] theorem LockFs.openCreate_path (fs : LockFs P) :
    fs.openCreate.path = some fs.target := by
  unfold openCreate target
  cases h : fs.path <;> simp [h]

@[simp] theorem LockFs.openCreate_owner (fs : LockFs P) : fs.openCreate.owner = fs.owner := by
  unfold openCreate
  cases fs.path <;> rfl

theorem LockFs.target_of_path {fs : LockFs P} {i : ℕ} (h : fs.path = some i) : fs.target = i := by
  rw [target, h, Option.getD_some]

@[simp] theorem LockFs.lock_path (fs : LockFs P) (p : P) (i : ℕ) : (fs.lock p i).path = fs.path :=
  rfl

@[simp] theorem LockFs.lock_owner_self (fs : LockFs P) (p : P) (i : ℕ) :
    (fs.lock p i).owner i = some p := Function.update_self ..

theorem LockFs.lock_owner_ne (fs : LockFs P) (p : P) {i j : ℕ} (h : j ≠ i) :
    (fs.lock p i).owner j = fs.owner j := Function.update_of_ne h ..

section Ownership
variable [DecidableEq P]

/-- `flock(LOCK_EX | LOCK_NB)` would succeed. -/
def LockFs.available (fs : LockFs P) (p : P) (i : ℕ) : Bool :=
  fs.owner i == none || fs.owner i == some p

/-- `flock(LOCK_UN)`, and what closing the open file does to its lock. -/
def LockFs.unlock (fs : LockFs P) (p : P) (i : ℕ) : LockFs P :=
  if fs.owner i = some p then { fs with owner := Function.update fs.owner i none } else fs

@[simp] theorem LockFs.unlock_path (fs : LockFs P) (p : P) (i : ℕ) :
    (fs.unlock p i).path = fs.path := by
  unfold unlock
  split_ifs <;> rfl

theorem LockFs.unlock_owner {fs : LockFs P} {p q : P} {i j : ℕ} (hpq : q ≠ p)
    (h : fs.owner j = some q) : (fs.unlock p i).owner j = some q := by
  unfold unlock
  split_ifs with hown
  · rw [← h]
    refine Function.update_of_ne ?_ ..
    rintro rfl
    exact hpq (Option.some.inj (h.symm.trans hown))
  · exact h

/-- A lock that could be taken belonged to nobody else. -/
theorem LockFs.available_of_owner {fs : LockFs P} {p q : P} {i : ℕ} (h : fs.available p i = true)
    (hown : fs.owner i = some q) : q = p := by
  simp only [available, hown, Bool.or_eq_true, beq_iff_eq, reduceCtorEq, Option.some.injEq,
    false_or] at h
  exact h

end Ownership

end FileLocks
