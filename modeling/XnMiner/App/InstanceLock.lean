import XnMiner.System.FileLock
import XnMiner.System.Machine

/-! # The instance lock

Each process runs the system calls of `acquire` and `release` one at a time, and may
come back after a release or a refusal.
-/
namespace XnMiner
open FileLocks Transitions

inductive LockPc where
  | idle
  | opened (inode : ℕ)
  | refused (inode : ℕ)
  | locked (inode : ℕ)
  | held (inode : ℕ)
  | unlocked (inode : ℕ)
  | closed
  deriving DecidableEq

/-- The inode whose lock a process has, or may still get, through its open file. -/
def LockPc.claimOn (pc : LockPc) : Option ℕ :=
  match pc with
  | .opened i | .locked i | .held i => some i
  | .idle | .refused _ | .unlocked _ | .closed => none

def LockPc.lockOn (pc : LockPc) : Option ℕ :=
  match pc with
  | .locked i | .held i => some i
  | _ => none

structure LockWorld (P : Type*) where
  fs : LockFs P
  pc : P → LockPc

/-- The system calls of `acquire` and `release`; `keep` is the rest of `acquire` after the
lock, up to `held_ = true`. -/
inductive LockCall where
  | openFile
  | flock
  | closeRefused
  | keep
  | unlock
  | closeFile
  | removePath

section Calls
variable {P : Type*} [DecidableEq P]

def LockWorld.goto (s : LockWorld P) (p : P) (pc : LockPc) (fs : LockFs P) : LockWorld P :=
  { fs := fs, pc := Function.update s.pc p pc }

def LockWorld.call (s : LockWorld P) (p : P) (c : LockCall) : Option (LockWorld P) :=
  match s.pc p, c with
  | .idle, .openFile => some (s.goto p (.opened s.fs.target) s.fs.openCreate)
  | .opened i, .flock =>
    if s.fs.available p i then some (s.goto p (.locked i) (s.fs.lock p i))
    else some (s.goto p (.refused i) s.fs)
  | .refused i, .closeRefused => some (s.goto p .idle (s.fs.unlock p i))
  | .locked i, .keep => some (s.goto p (.held i) s.fs)
  | .held i, .unlock => some (s.goto p (.unlocked i) (s.fs.unlock p i))
  | .unlocked i, .closeFile => some (s.goto p .closed (s.fs.unlock p i))
  | .closed, .removePath => some (s.goto p .idle s.fs.remove)
  | _, _ => none

end Calls

def lockMachine (P : Type*) [DecidableEq P] : Machine (LockWorld P) (P × LockCall) where
  init s := s = { fs := LockFs.empty, pc := fun _ => .idle }
  step s a t := s.call a.1 a.2 = some t

/-- At most one process has `held_` set and has not begun its release. -/
def LockWorld.exclusive {P : Type*} (s : LockWorld P) : Prop :=
  ∀ p q i j, s.pc p = .held i → s.pc q = .held j → p = q

/-- The path is removed while no other process has, or may still get, the lock of what it names. -/
def quietRemoval {P : Type*} (s : LockWorld P) (a : P × LockCall) : Prop :=
  a.2 = .removePath → ∀ q i, q ≠ a.1 → (s.pc q).claimOn = some i → s.fs.path ≠ some i

section Invariant
variable {P : Type*}

/-- Who has or may get a lock has it on the inode the path names, and who got it owns it. -/
structure LockInv (s : LockWorld P) : Prop where
  claim_path : ∀ p i, (s.pc p).claimOn = some i → s.fs.path = some i
  owner : ∀ p i, (s.pc p).lockOn = some i → s.fs.owner i = some p

theorem LockPc.claimOn_of_lockOn {pc : LockPc} {i : ℕ} (h : pc.lockOn = some i) :
    pc.claimOn = some i := by
  cases pc <;> first | exact h | cases h

theorem LockInv.exclusive {s : LockWorld P} (h : LockInv s) : s.exclusive := by
  intro p q i j hp hq
  have hpi := h.owner p i (by rw [hp]; rfl)
  have hqj := h.owner q j (by rw [hq]; rfl)
  have hpath := (h.claim_path p i (by rw [hp]; rfl)).symm.trans (h.claim_path q j (by rw [hq]; rfl))
  rw [Option.some.inj hpath] at hpi
  exact Option.some.inj (hpi.symm.trans hqj)

theorem LockInv.start : LockInv ({ fs := LockFs.empty, pc := fun _ => .idle } : LockWorld P) where
  claim_path := fun p i hp => by cases hp
  owner := fun p i hp => by cases hp

variable [DecidableEq P]

/-- A call that moves only `p` keeps the invariant when it holds for `p` afterwards and for
the others in the new file system. -/
theorem LockInv.goto {s : LockWorld P} {p : P} {pc : LockPc} {fs : LockFs P}
    (hself : ∀ i, pc.claimOn = some i → fs.path = some i)
    (hlock : ∀ i, pc.lockOn = some i → fs.owner i = some p)
    (hpath : ∀ q, q ≠ p → ∀ i, (s.pc q).claimOn = some i → fs.path = some i)
    (howner : ∀ q, q ≠ p → ∀ i, (s.pc q).lockOn = some i → fs.owner i = some q) :
    LockInv (s.goto p pc fs) where
  claim_path := by
    intro q i hq
    by_cases hqp : q = p
    · subst hqp
      simp only [LockWorld.goto, Function.update_self] at hq
      exact hself i hq
    · simp only [LockWorld.goto, Function.update_of_ne hqp] at hq
      exact hpath q hqp i hq
  owner := by
    intro q i hq
    by_cases hqp : q = p
    · subst hqp
      simp only [LockWorld.goto, Function.update_self] at hq
      exact hlock i hq
    · simp only [LockWorld.goto, Function.update_of_ne hqp] at hq
      exact howner q hqp i hq

theorem LockInv.call {s t : LockWorld P} (h : LockInv s) {p : P} {c : LockCall}
    (hs : s.call p c = some t) (hquiet : quietRemoval s (p, c)) : LockInv t := by
  unfold LockWorld.call at hs
  split at hs
  · -- open: whoever has a claim already has it on the inode the path names
    obtain rfl := Option.some.inj hs
    refine LockInv.goto (fun i hi => ?_) (fun i hi => by cases hi) (fun q _ i hq => ?_)
      (fun q _ i hq => ?_)
    · rw [← hi, LockFs.openCreate_path]
      rfl
    · rw [LockFs.openCreate_path, LockFs.target_of_path (h.claim_path q i hq)]
    · rw [LockFs.openCreate_owner]
      exact h.owner q i hq
  · next i hpc =>
    have hpath : s.fs.path = some i := h.claim_path p i (by rw [hpc]; rfl)
    split_ifs at hs with havail
    · obtain rfl := Option.some.inj hs
      refine LockInv.goto (fun j hj => ?_) (fun j hj => ?_) (fun q _ j hq => h.claim_path q j hq)
        (fun q hqp j hq => ?_)
      · exact hj ▸ hpath
      · rw [← Option.some.inj hj, LockFs.lock_owner_self]
      · have hown := h.owner q j hq
        have hne : j ≠ i := by
          rintro rfl
          exact hqp (LockFs.available_of_owner havail hown)
        rw [LockFs.lock_owner_ne _ _ hne, hown]
    · obtain rfl := Option.some.inj hs
      exact LockInv.goto (fun j hj => by cases hj) (fun j hj => by cases hj)
        (fun q _ j hq => h.claim_path q j hq) (fun q _ j hq => h.owner q j hq)
  · obtain rfl := Option.some.inj hs
    refine LockInv.goto (fun j hj => by cases hj) (fun j hj => by cases hj) (fun q _ j hq => ?_)
      (fun q hqp j hq => LockFs.unlock_owner hqp (h.owner q j hq))
    rw [LockFs.unlock_path]
    exact h.claim_path q j hq
  · next i hpc =>
    obtain rfl := Option.some.inj hs
    refine LockInv.goto (fun j hj => h.claim_path p j ?_) (fun j hj => h.owner p j ?_)
      (fun q _ j hq => h.claim_path q j hq) (fun q _ j hq => h.owner q j hq)
    · rw [hpc]
      exact hj
    · rw [hpc]
      exact hj
  · next i hpc =>
    obtain rfl := Option.some.inj hs
    refine LockInv.goto (fun j hj => by cases hj) (fun j hj => by cases hj) (fun q _ j hq => ?_)
      (fun q hqp j hq => LockFs.unlock_owner hqp (h.owner q j hq))
    rw [LockFs.unlock_path]
    exact h.claim_path q j hq
  · obtain rfl := Option.some.inj hs
    refine LockInv.goto (fun j hj => by cases hj) (fun j hj => by cases hj) (fun q _ j hq => ?_)
      (fun q hqp j hq => LockFs.unlock_owner hqp (h.owner q j hq))
    rw [LockFs.unlock_path]
    exact h.claim_path q j hq
  · -- remove: by the condition nobody else has a claim
    obtain rfl := Option.some.inj hs
    have hnone : ∀ q, q ≠ p → ∀ j, (s.pc q).claimOn ≠ some j := by
      exact fun q hqp j hq => hquiet rfl q j hqp hq (h.claim_path q j hq)
    exact LockInv.goto (fun j hj => by cases hj) (fun j hj => by cases hj)
      (fun q hqp j hq => absurd hq (hnone q hqp j))
      (fun q hqp j hq => absurd (LockPc.claimOn_of_lockOn hq) (hnone q hqp j))
  · cases hs

end Invariant

/-- Any number of processes exclude each other in runs whose removals are quiet. -/
theorem instanceLock_exclusive {P : Type*} [DecidableEq P] (s : LockWorld P)
    (hs : ((lockMachine P).restrict quietRemoval).Reachable s) : s.exclusive := by
  have hinv : LockInv s := by
    refine Machine.Reachable.invariant (I := LockInv) ?_ ?_ hs
    · rintro s rfl
      exact LockInv.start
    · rintro s ⟨p, c⟩ t - hinv ⟨hquiet, hst⟩
      exact hinv.call hst hquiet
  exact hinv.exclusive

def runCalls {P : Type*} [DecidableEq P] (s : LockWorld P) (calls : List (P × LockCall)) :
    Option (LockWorld P) := runSteps (fun u a => u.call a.1 a.2) s calls

theorem reachable_calls {P : Type*} [DecidableEq P] {C : LockWorld P → P × LockCall → Prop}
    {s t : LockWorld P} (hs : ((lockMachine P).restrict C).Reachable s)
    {calls : List (P × LockCall)} (hC : ∀ a ∈ calls, ∀ u, C u a)
    (h : runCalls s calls = some t) :
    ((lockMachine P).restrict C).Reachable t :=
  hs.runSteps (fun a ha u _ hu => ⟨hC a ha u, hu⟩) h

/-- Process 1 waits with the first inode open while process 0 releases it; process 2 then
finds no file. -/
def staleInodeCalls : List (ℕ × LockCall) :=
  [(0, .openFile), (0, .flock), (0, .keep), (1, .openFile), (0, .unlock), (0, .closeFile),
    (1, .flock), (1, .keep), (0, .removePath), (2, .openFile), (2, .flock), (2, .keep)]

theorem instanceLock_not_exclusive :
    ¬ ∀ s : LockWorld ℕ, (lockMachine ℕ).Reachable s → s.exclusive := by
  intro hall
  obtain ⟨t, ht⟩ : ∃ t, runCalls { fs := LockFs.empty, pc := fun _ => .idle }
      staleInodeCalls = some t := ⟨_, rfl⟩
  have hpc : (runCalls { fs := LockFs.empty, pc := fun _ => .idle } staleInodeCalls).map
      (fun t => (t.pc 1, t.pc 2)) = some (.held 0, .held 1) := by decide
  rw [ht, Option.map_some, Option.some.injEq, Prod.mk.injEq] at hpc
  have hreach : ((lockMachine ℕ).restrict fun _ _ => True).Reachable t :=
    reachable_calls (.start rfl) (fun _ _ _ => trivial) ht
  have hone := hall t hreach.of_restrict 1 2 0 1 hpc.1 hpc.2
  cases hone

/-- A quiet release, and the next owner on a new inode. -/
theorem instanceLock_exclusive_run : ∃ s : LockWorld ℕ, s.pc 1 = .held 1 ∧ s.exclusive := by
  have hstart : ((lockMachine ℕ).restrict quietRemoval).Reachable
      { fs := LockFs.empty, pc := fun _ => .idle } := .start rfl
  have hplain : ∀ c : LockCall, c ≠ .removePath → ∀ (p : ℕ) u, quietRemoval u (p, c) :=
    fun c hc p u h => absurd h hc
  obtain ⟨t, ht⟩ : ∃ t, runCalls { fs := LockFs.empty, pc := fun _ => .idle }
      [(0, .openFile), (0, .flock), (0, .keep), (0, .unlock), (0, .closeFile)] = some t := ⟨_, rfl⟩
  have hclosed := reachable_calls hstart (by simp [hplain]) ht
  have hidle : ∀ q, q ≠ 0 → t.pc q = .idle := by
    intro q hq
    obtain rfl := Option.some.inj ht
    simp [LockWorld.goto, hq]
  have hquiet : quietRemoval t (0, .removePath) := by
    intro _ q i hq hopen
    rw [hidle q hq] at hopen
    cases hopen
  obtain ⟨u, hu⟩ : ∃ u, t.call 0 .removePath = some u := by
    obtain rfl := Option.some.inj ht
    exact ⟨_, rfl⟩
  have hstep : (lockMachine ℕ).step t (0, .removePath) u := hu
  have hremoved := hclosed.next_restrict hstep hquiet
  obtain ⟨v, hv, hpc⟩ : ∃ v, runCalls u [(1, .openFile), (1, .flock), (1, .keep)] = some v ∧
      v.pc 1 = .held 1 := by
    obtain rfl := Option.some.inj ht
    obtain rfl := Option.some.inj hu
    exact ⟨_, rfl, rfl⟩
  exact ⟨v, hpc, instanceLock_exclusive v (reachable_calls hremoved (by simp [hplain]) hv)⟩

end XnMiner
