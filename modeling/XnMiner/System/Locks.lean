import XnMiner.System.Machine
import Mathlib.Algebra.BigOperators.Group.Finset.Basic
import Mathlib.Algebra.Order.BigOperators.Group.Finset
import Mathlib.Data.Finset.Max
import Mathlib.Data.Fintype.Basic
import Mathlib.Logic.Relation

/-! # Threads with scoped locks, and signals

A thread runs code with scoped locks on a stack of frames; it holds the locks of the scopes it
is in. A signal puts the code of its handler on the stack of the thread it interrupts. Locks
are not recursive, and ranks give the order in which scopes may be nested.
-/
namespace Locks
open Transitions

inductive Code (μ : Type*) where
  | skip
  | locked (m : μ) (body : Code μ)
  | andThen (c d : Code μ)
  | either (c d : Code μ)
  | loop (body : Code μ)

inductive Frame (μ : Type*) where
  | run (c : Code μ)
  | unlock (m : μ)

variable {ι μ : Type*}

def seq (cs : List (Code μ)) : Code μ :=
  match cs with
  | [] => .skip
  | c :: cs => .andThen c (seq cs)

/-- The parts in order, up to the place where an exception or an early return leaves them. -/
def upTo (cs : List (Code μ)) : Code μ :=
  match cs with
  | [] => .skip
  | c :: cs => .either (.andThen c (upTo cs)) .skip

def maybe (c : Code μ) : Code μ := .either .skip c

def times (n : ℕ) (c : Code μ) : Code μ :=
  match n with
  | 0 => .skip
  | n + 1 => .andThen c (times n c)

def held (k : List (Frame μ)) : List μ :=
  match k with
  | [] => []
  | .run _ :: k => held k
  | .unlock m :: k => m :: held k

def Frame.wants (f : Frame μ) : Option μ :=
  match f with
  | .run (.locked m _) => some m
  | _ => none

/-- What a step leaves of a frame; the number decides where the code may go several ways. -/
def Frame.expand (n : ℕ) (f : Frame μ) : List (Frame μ) :=
  match f with
  | .run .skip | .unlock _ => []
  | .run (.locked m body) => [.run body, .unlock m]
  | .run (.andThen c d) => [.run c, .run d]
  | .run (.either c d) => [.run (if n = 0 then c else d)]
  | .run (.loop body) => if n = 0 then [] else [.run body, .run (.loop body)]

def free (s : ι → List (Frame μ)) (m : μ) : Prop := ∀ u, m ∉ held (s u)

inductive Event (ι : Type*) where
  | go (u : ι) (n : ℕ)
  | signal (u : ι) (n : ℕ)

section System
variable [DecidableEq ι]

/-- A step of a thread, which waits for the lock it wants. -/
def Step (s : ι → List (Frame μ)) (u : ι) (n : ℕ) (s' : ι → List (Frame μ)) : Prop :=
  ∃ f k, s u = f :: k ∧ (∀ m, f.wants = some m → free s m) ∧
    s' = Function.update s u (f.expand n ++ k)

/-- The thread is interrupted by the handler. -/
def interrupt (handler : Code μ) (s : ι → List (Frame μ)) (u : ι) : ι → List (Frame μ) :=
  Function.update s u (.run handler :: s u)

def threadMachine (main : ι → Code μ) (handler : ℕ → Code μ) :
    Machine (ι → List (Frame μ)) (Event ι) where
  init s := s = fun u => [.run (main u)]
  step s a s' := match a with
    | .go u n => Step s u n s'
    | .signal u n => s' = interrupt (handler n) s u

/-- A step while the handler stands above the interrupted stack. -/
def During (M : Machine (ι → List (Frame μ)) (Event ι)) (t : ι) (k : List (Frame μ))
    (s s' : ι → List (Frame μ)) : Prop :=
  s t ≠ k ∧ ∃ a, M.step s a s'

/-- However the system goes on, the handler never wants a lock of its own thread, and it can run
to its end. -/
def Terminates (M : Machine (ι → List (Frame μ)) (Event ι)) (handler : ℕ → Code μ)
    (s : ι → List (Frame μ)) (t : ι) : Prop :=
  ∀ n s', Relation.ReflTransGen (During M t (s t)) (interrupt (handler n) s t) s' →
    (s' t ≠ s t → ∀ f k m, s' t = f :: k → f.wants = some m → m ∉ held (s' t)) ∧
    ∃ s'', Relation.ReflTransGen (During M t (s t)) s' s'' ∧ s'' t = s t

end System

def alone [DecidableEq μ] (k : List (Frame μ)) (n : ℕ) : Option (List (Frame μ)) :=
  match k with
  | [] => none
  | f :: k => if f.wants.all (fun m => m ∉ held k) then some (f.expand n ++ k) else none

theorem held_cons_of_wants {f : Frame μ} {m : μ} (h : f.wants = some m) (k : List (Frame μ)) :
    held (f :: k) = held k := by
  cases f with
  | run c => rfl
  | unlock m' => cases h

/-- What a thread does alone from the start, it can do in the system. -/
theorem reachable_alone [DecidableEq ι] [DecidableEq μ] {main : ι → Code μ}
    {handler : ℕ → Code μ} {C : (ι → List (Frame μ)) → Event ι → Prop}
    (hC : ∀ s u n, C s (.go u n)) {u : ι} {ns : List ℕ} {k : List (Frame μ)}
    (h : runSteps alone [.run (main u)] ns = some k) :
    ((threadMachine main handler).restrict C).Reachable
      (Function.update (fun v => [.run (main v)]) u k) := by
  let start : ι → List (Frame μ) := fun v => [.run (main v)]
  suffices hruns : ∀ ns k₀,
      ((threadMachine main handler).restrict C).Reachable (Function.update start u k₀) →
      runSteps alone k₀ ns = some k →
      ((threadMachine main handler).restrict C).Reachable (Function.update start u k) by
    refine hruns ns _ (.start ?_) h
    exact Function.update_eq_self u start
  intro ns
  induction ns with
  | nil =>
    intro k₀ hk₀ hrun
    rw [runSteps, Option.some.injEq] at hrun
    exact hrun ▸ hk₀
  | cons n ns ih =>
    intro k₀ hk₀ hrun
    obtain ⟨k₁, hstep, hrun⟩ := Option.bind_eq_some_iff.mp hrun
    refine ih k₁ (hk₀.next_restrict (a := .go u n) ?_ (hC _ u n)) hrun
    unfold alone at hstep
    split at hstep
    next => cases hstep
    next f rest =>
      split_ifs at hstep with hfree
      obtain rfl := Option.some.inj hstep
      refine ⟨f, rest, Function.update_self .., fun m hm v => ?_, ?_⟩
      · by_cases hv : v = u
        · subst hv
          rw [Function.update_self, held_cons_of_wants hm]
          simpa [hm] using hfree
        · rw [Function.update_of_ne hv]
          exact List.not_mem_nil
      · rw [Function.update_idem]

section Order
variable (rank : μ → ℕ)

def Code.ordered (bound : ℕ) (c : Code μ) : Prop :=
  match c with
  | .skip => True
  | .locked m body => bound ≤ rank m ∧ body.ordered (rank m + 1)
  | .andThen c d => c.ordered bound ∧ d.ordered bound
  | .either c d => c.ordered bound ∧ d.ordered bound
  | .loop body => body.ordered bound

instance Code.decidableOrdered (bound : ℕ) (c : Code μ) : Decidable (c.ordered rank bound) :=
  match c with
  | .skip => .isTrue trivial
  | .locked m body =>
    have := Code.decidableOrdered (rank m + 1) body
    inferInstanceAs (Decidable (bound ≤ rank m ∧ body.ordered rank (rank m + 1)))
  | .andThen c d =>
    have := Code.decidableOrdered bound c
    have := Code.decidableOrdered bound d
    inferInstanceAs (Decidable (c.ordered rank bound ∧ d.ordered rank bound))
  | .either c d =>
    have := Code.decidableOrdered bound c
    have := Code.decidableOrdered bound d
    inferInstanceAs (Decidable (c.ordered rank bound ∧ d.ordered rank bound))
  | .loop body => Code.decidableOrdered bound body

def bound (k : List (Frame μ)) : ℕ :=
  match k with
  | [] => 0
  | .run _ :: k => bound k
  | .unlock m :: _ => rank m + 1

def StackOrdered (k : List (Frame μ)) : Prop :=
  match k with
  | [] => True
  | .run c :: k => c.ordered rank (bound rank k) ∧ StackOrdered k
  | .unlock m :: k => bound rank k ≤ rank m ∧ StackOrdered k

def Clear (guard : ℕ) (k : List (Frame μ)) : Prop := ∀ m ∈ held k, rank m < guard

def clearSignals (guard : ℕ) (s : ι → List (Frame μ)) (a : Event ι) : Prop :=
  match a with
  | .go _ _ => True
  | .signal u _ => Clear rank guard (s u)

def Frame.above (guard : ℕ) (f : Frame μ) : Prop :=
  match f with
  | .run c => c.ordered rank guard
  | .unlock _ => True

variable {rank}

theorem Code.ordered.mono {c : Code μ} {b b' : ℕ} (h : c.ordered rank b) (hb : b' ≤ b) :
    c.ordered rank b' := by
  induction c generalizing b b' with
  | skip => trivial
  | locked m body _ => exact ⟨hb.trans h.1, h.2⟩
  | andThen c d ihc ihd => exact ⟨ihc h.1 hb, ihd h.2 hb⟩
  | either c d ihc ihd => exact ⟨ihc h.1 hb, ihd h.2 hb⟩
  | loop body ih => exact ih h hb

theorem StackOrdered.lt_bound {k : List (Frame μ)} (h : StackOrdered rank k) {m : μ}
    (hm : m ∈ held k) : rank m < bound rank k := by
  induction k with
  | nil => cases hm
  | cons f k ih =>
    cases f with
    | run c => exact ih h.2 hm
    | unlock m' =>
      rcases List.mem_cons.mp hm with rfl | hm
      · exact Nat.lt_succ_self _
      · exact (ih h.2 hm).trans_le (h.1.trans (Nat.le_succ _))

theorem Code.ordered.times {c : Code μ} {b : ℕ} (h : c.ordered rank b) (n : ℕ) :
    (times n c).ordered rank b := by
  induction n with
  | zero => trivial
  | succ n ih => exact ⟨h, ih⟩

theorem Clear.bound_le {guard : ℕ} {k : List (Frame μ)} (h : Clear rank guard k) :
    bound rank k ≤ guard := by
  induction k with
  | nil => exact Nat.zero_le _
  | cons f k ih =>
    cases f with
    | run c => exact ih h
    | unlock m => exact h m List.mem_cons_self

/-- What a thread in order wants is above everything that it holds. -/
theorem StackOrdered.wants {f : Frame μ} {k : List (Frame μ)} (h : StackOrdered rank (f :: k))
    {m : μ} (hm : f.wants = some m) : bound rank k ≤ rank m := by
  unfold Frame.wants at hm
  split at hm
  next m' body =>
    obtain rfl := Option.some.inj hm
    exact h.1.1
  next => cases hm

theorem StackOrdered.lt_wanted {f : Frame μ} {k : List (Frame μ)}
    (h : StackOrdered rank (f :: k)) {m m' : μ} (hm : f.wants = some m)
    (hm' : m' ∈ held (f :: k)) : rank m' < rank m := by
  have hrest : StackOrdered rank k := by cases f <;> exact h.2
  rw [held_cons_of_wants hm] at hm'
  exact (hrest.lt_bound hm').trans_le (h.wants hm)

theorem StackOrdered.not_held {f : Frame μ} {k : List (Frame μ)} (h : StackOrdered rank (f :: k))
    {m : μ} (hm : f.wants = some m) : m ∉ held (f :: k) :=
  fun hin => lt_irrefl _ (h.lt_wanted hm hin)

theorem StackOrdered.expand {f : Frame μ} {k : List (Frame μ)} (h : StackOrdered rank (f :: k))
    (n : ℕ) : StackOrdered rank (f.expand n ++ k) := by
  cases f with
  | unlock m => exact h.2
  | run c =>
    obtain ⟨hc, hk⟩ := h
    cases c with
    | skip => exact hk
    | locked m body => exact ⟨hc.2, hc.1, hk⟩
    | andThen c d => exact ⟨hc.1, hc.2, hk⟩
    | either c d =>
      refine ⟨?_, hk⟩
      split_ifs
      · exact hc.1
      · exact hc.2
    | loop body =>
      unfold Frame.expand
      split_ifs
      · exact hk
      · exact ⟨hc, hc, hk⟩

theorem Frame.above.expand {guard : ℕ} {f : Frame μ} (h : f.above rank guard) (n : ℕ) :
    ∀ g ∈ f.expand n, g.above rank guard := by
  cases f with
  | unlock m => simp [Frame.expand]
  | run c =>
    cases c with
    | skip => simp [Frame.expand]
    | locked m body =>
      have hbody := Code.ordered.mono h.2 (h.1.trans (Nat.le_succ _))
      simpa [Frame.expand, Frame.above] using hbody
    | andThen c d =>
      have hboth : c.ordered rank guard ∧ d.ordered rank guard := h
      simpa [Frame.expand, Frame.above] using hboth
    | either c d =>
      have hboth : c.ordered rank guard ∧ d.ordered rank guard := h
      unfold Frame.expand
      split_ifs
      · simpa [Frame.above] using hboth.1
      · simpa [Frame.above] using hboth.2
    | loop body =>
      have hbody : body.ordered rank guard := h
      unfold Frame.expand
      split_ifs
      · simp
      · simpa [Frame.above] using And.intro hbody h

end Order

/-- The steps that code takes when it leaves every loop. -/
def Code.cost (c : Code μ) : ℕ :=
  match c with
  | .skip => 1
  | .locked _ body => body.cost + 2
  | .andThen c d => c.cost + d.cost + 1
  | .either c _ => c.cost + 1
  | .loop _ => 1

def Frame.cost (f : Frame μ) : ℕ :=
  match f with
  | .run c => c.cost
  | .unlock _ => 1

def stackCost (k : List (Frame μ)) : ℕ :=
  match k with
  | [] => 0
  | f :: k => f.cost + stackCost k

theorem stackCost_expand (f : Frame μ) (k : List (Frame μ)) :
    stackCost (f.expand 0 ++ k) < stackCost (f :: k) := by
  cases f with
  | unlock m => simp [stackCost, Frame.expand, Frame.cost]
  | run c =>
    cases c <;> simp [stackCost, Frame.expand, Frame.cost, Code.cost] <;> omega

section Progress
variable [DecidableEq ι] {rank : μ → ℕ} {s s' : ι → List (Frame μ)} {t u : ι}

theorem Step.ordered {n : ℕ} (h : Step s u n s') (hs : ∀ v, StackOrdered rank (s v)) :
    ∀ v, StackOrdered rank (s' v) := by
  obtain ⟨f, k, hk, -, rfl⟩ := h
  intro v
  by_cases hv : v = u
  · subst hv
    rw [Function.update_self]
    exact StackOrdered.expand (hk ▸ hs v) n
  · rw [Function.update_of_ne hv]
    exact hs v

def Handles (rank : μ → ℕ) (guard : ℕ) (k : List (Frame μ)) (s : ι → List (Frame μ)) (t : ι) :
    Prop :=
  ∃ h, s t = h ++ k ∧ ∀ f ∈ h, f.above rank guard

theorem Handles.step {guard n : ℕ} {k : List (Frame μ)} (h : Handles rank guard k s t)
    (hne : s t ≠ k) (hstep : Step s u n s') : Handles rank guard k s' t := by
  obtain ⟨hs, hstack, habove⟩ := h
  obtain ⟨f, rest, hu, -, rfl⟩ := hstep
  by_cases hut : u = t
  · subst hut
    cases hs with
    | nil => exact absurd hstack hne
    | cons g hs =>
      rw [hu, List.cons_append, List.cons.injEq] at hstack
      obtain ⟨rfl, rfl⟩ := hstack
      refine ⟨f.expand n ++ hs, by rw [Function.update_self, List.append_assoc], ?_⟩
      intro g hg
      rcases List.mem_append.mp hg with hg | hg
      · exact (habove f List.mem_cons_self).expand n g hg
      · exact habove g (List.mem_cons_of_mem _ hg)
  · exact ⟨hs, by rwa [Function.update_of_ne (Ne.symm hut)], habove⟩

theorem Handles.interrupt {guard : ℕ} {k : List (Frame μ)} (h : Handles rank guard k s t)
    {handler : Code μ} (hhandler : handler.ordered rank guard) :
    Handles rank guard k (interrupt handler s u) t := by
  obtain ⟨hs, hstack, habove⟩ := h
  by_cases hut : u = t
  · subst hut
    refine ⟨.run handler :: hs, ?_, ?_⟩
    · rw [Locks.interrupt, Function.update_self, hstack, List.cons_append]
    · exact List.forall_mem_cons.mpr ⟨hhandler, habove⟩
  · refine ⟨hs, ?_, habove⟩
    rwa [Locks.interrupt, Function.update_of_ne (Ne.symm hut)]

theorem Frame.above.wants {guard : ℕ} {f : Frame μ} (h : f.above rank guard) {m : μ}
    (hm : f.wants = some m) : guard ≤ rank m := by
  unfold Frame.wants at hm
  split at hm
  next m' body =>
    obtain rfl := Option.some.inj hm
    exact h.1
  next => cases hm

/-- While the handler has something to do, one of the threads that it may wait for can move:
the one that wants the last lock in the order. -/
theorem exists_step [Fintype ι] {guard : ℕ} {k : List (Frame μ)}
    (hs : ∀ v, StackOrdered rank (s v)) (ht : Handles rank guard k s t) (hne : s t ≠ k) :
    ∃ u f rest, s u = f :: rest ∧ ∀ m, f.wants = some m → free s m := by
  classical
  by_contra hstuck
  push Not at hstuck
  let waits : ι → Prop := fun u => u = t ∨ ∃ m ∈ held (s u), guard ≤ rank m
  let wanted : ι → ℕ := fun u => ((s u).head?.bind Frame.wants).elim 0 rank
  have hblocked : ∀ u, waits u → ∃ f rest m, s u = f :: rest ∧ f.wants = some m ∧ ¬ free s m ∧
      guard ≤ rank m := by
    rintro u (rfl | ⟨m₀, hm₀, hguard⟩)
    · obtain ⟨hs', hstack, habove⟩ := ht
      cases hs' with
      | nil => exact absurd hstack hne
      | cons f rest =>
        obtain ⟨m, hwants, hheld⟩ := hstuck u f (rest ++ k) hstack
        have hguard := (habove f List.mem_cons_self).wants hwants
        exact ⟨f, rest ++ k, m, hstack, hwants, hheld, hguard⟩
    · cases hu : s u with
      | nil =>
        rw [hu] at hm₀
        cases hm₀
      | cons f rest =>
        obtain ⟨m, hwants, hheld⟩ := hstuck u f rest hu
        rw [hu] at hm₀
        have hlt := StackOrdered.lt_wanted (hu ▸ hs u) hwants hm₀
        exact ⟨f, rest, m, rfl, hwants, hheld, hguard.trans hlt.le⟩
  -- the holder of the last wanted lock wants a later one
  obtain ⟨u, hu, hmax⟩ := Finset.exists_max_image (Finset.univ.filter waits) wanted
    ⟨t, Finset.mem_filter.mpr ⟨Finset.mem_univ _, .inl rfl⟩⟩
  obtain ⟨f, rest, m, hstack, hwants, hheld, hguard⟩ := hblocked u (Finset.mem_filter.mp hu).2
  obtain ⟨v, hv⟩ : ∃ v, m ∈ held (s v) := by simpa [free] using hheld
  have hwait : waits v := .inr ⟨m, hv, hguard⟩
  obtain ⟨g, rest', m', hstack', hwants', -, -⟩ := hblocked v hwait
  have hlt : rank m < rank m' := by
    rw [hstack'] at hv
    exact StackOrdered.lt_wanted (hstack' ▸ hs v) hwants' hv
  have hle := hmax v (Finset.mem_filter.mpr ⟨Finset.mem_univ _, hwait⟩)
  have hwanted : wanted u = rank m := by simp [wanted, hstack, hwants]
  have hwanted' : wanted v = rank m' := by simp [wanted, hstack', hwants']
  omega

variable {main : ι → Code μ} {handler : ℕ → Code μ} {guard : ℕ} {k : List (Frame μ)}

theorem ordered_step (hhandler : ∀ n, (handler n).ordered rank guard) {a : Event ι}
    (hs : ∀ v, StackOrdered rank (s v))
    (hstep : ((threadMachine main handler).restrict (clearSignals rank guard)).step s a s') :
    ∀ v, StackOrdered rank (s' v) := by
  obtain ⟨hclear, hstep⟩ := hstep
  cases a with
  | go u n => exact Step.ordered hstep hs
  | signal u n =>
    obtain rfl : s' = interrupt (handler n) s u := hstep
    intro v
    by_cases hv : v = u
    · subst hv
      rw [interrupt, Function.update_self]
      exact ⟨(hhandler n).mono (Clear.bound_le hclear), hs v⟩
    · rw [interrupt, Function.update_of_ne hv]
      exact hs v

theorem ordered_of_reachable (hmain : ∀ u, (main u).ordered rank 0)
    (hhandler : ∀ n, (handler n).ordered rank guard)
    (hs : ((threadMachine main handler).restrict (clearSignals rank guard)).Reachable s) :
    ∀ v, StackOrdered rank (s v) := by
  refine hs.invariant (I := fun s => ∀ v, StackOrdered rank (s v)) ?_ ?_
  · rintro _ rfl v
    exact ⟨hmain v, trivial⟩
  · intro s a s' _ hs hstep
    exact ordered_step hhandler hs hstep

/-- The handler's frames stay above the interrupted stack until it has ended. -/
theorem Handles.during (hhandler : ∀ n, (handler n).ordered rank guard)
    (h : Handles rank guard k s t)
    (hstep : During ((threadMachine main handler).restrict (clearSignals rank guard)) t k s s') :
    Handles rank guard k s' t := by
  obtain ⟨hne, a, -, hstep⟩ := hstep
  cases a with
  | go u n => exact h.step hne hstep
  | signal u n =>
    obtain rfl : s' = Locks.interrupt (handler n) s u := hstep
    exact h.interrupt (hhandler n)

/-- By induction on the steps that the threads have left when every loop is left. -/
theorem exists_end [Fintype ι] (hhandler : ∀ n, (handler n).ordered rank guard)
    (hs : ∀ v, StackOrdered rank (s v)) (ht : Handles rank guard k s t) :
    ∃ s'', Relation.ReflTransGen
      (During ((threadMachine main handler).restrict (clearSignals rank guard)) t k) s s'' ∧
      s'' t = k := by
  induction hcost : ∑ u, stackCost (s u) using Nat.strong_induction_on generalizing s with
  | _ cost ih =>
    by_cases hne : s t = k
    · exact ⟨s, .refl, hne⟩
    obtain ⟨u, f, rest, hu, hfree⟩ := exists_step hs ht hne
    let s₁ := Function.update s u (f.expand 0 ++ rest)
    have hduring : During ((threadMachine main handler).restrict (clearSignals rank guard)) t k
        s s₁ := ⟨hne, .go u 0, trivial, f, rest, hu, hfree, rfl⟩
    have hless : ∑ v, stackCost (s₁ v) < cost := by
      rw [← hcost]
      refine Finset.sum_lt_sum (fun v _ => ?_) ⟨u, Finset.mem_univ u, ?_⟩
      · by_cases hv : v = u
        · subst hv
          simpa [s₁, hu] using (stackCost_expand f rest).le
        · simp [s₁, hv]
      · simpa [s₁, hu] using stackCost_expand f rest
    have hordered := ordered_step hhandler hs hduring.2.choose_spec
    obtain ⟨s'', hrun, hend⟩ := ih _ hless hordered (ht.during hhandler hduring) rfl
    exact ⟨s'', .head hduring hrun, hend⟩

end Progress

def Code.needs (m : μ) (c : Code μ) : Prop :=
  match c with
  | .skip | .loop _ => False
  | .locked m' body => m' = m ∨ body.needs m
  | .andThen c d => c.needs m ∨ d.needs m
  | .either c d => c.needs m ∧ d.needs m

def Frame.needs (m : μ) (f : Frame μ) : Prop :=
  match f with
  | .run c => c.needs m
  | .unlock _ => False

/-- The need for a lock is passed on, until the frame wants it. -/
theorem Frame.needs.expand {m : μ} {f : Frame μ} (h : f.needs m) (hw : f.wants ≠ some m)
    (n : ℕ) : ∃ g ∈ f.expand n, g.needs m := by
  cases f with
  | unlock m' => cases h
  | run c =>
    cases c with
    | skip => cases h
    | loop body => cases h
    | locked m' body =>
      rcases h with rfl | h
      · exact absurd rfl hw
      · exact ⟨.run body, List.mem_cons_self, h⟩
    | andThen c d =>
      rcases h with h | h
      · exact ⟨.run c, List.mem_cons_self, h⟩
      · exact ⟨.run d, List.mem_cons_of_mem _ List.mem_cons_self, h⟩
    | either c d =>
      refine ⟨.run (if n = 0 then c else d), List.mem_cons_self, ?_⟩
      split_ifs
      · exact h.1
      · exact h.2

section Needs
variable [DecidableEq ι] {main : ι → Code μ} {handler : ℕ → Code μ} {k : List (Frame μ)}
  {s s' : ι → List (Frame μ)} {t u : ι} {m : μ}

theorem held_append (h k : List (Frame μ)) : held (h ++ k) = held h ++ held k := by
  induction h with
  | nil => rfl
  | cons f h ih => cases f <;> simp [held, ih]

/-- A handler that needs a lock of the thread it has interrupted. -/
def Starved (m : μ) (k : List (Frame μ)) (s : ι → List (Frame μ)) (t : ι) : Prop :=
  ∃ h, s t = h ++ k ∧ ∃ f ∈ h, f.needs m

theorem Starved.step {n : ℕ} (hm : m ∈ held k) (h : Starved m k s t) (hstep : Step s u n s') :
    Starved m k s' t := by
  obtain ⟨hs, hstack, f, hf, hneeds⟩ := h
  obtain ⟨g, rest, hu, hfree, rfl⟩ := hstep
  by_cases hut : u = t
  · subst hut
    cases hs with
    | nil => cases hf
    | cons g' hs =>
      rw [hu, List.cons_append, List.cons.injEq] at hstack
      obtain ⟨rfl, rfl⟩ := hstack
      have hheld : m ∈ held (s u) := by
        rw [hu, ← List.cons_append, held_append]
        exact List.mem_append_right _ hm
      refine ⟨g.expand n ++ hs, by rw [Function.update_self, List.append_assoc], ?_⟩
      rcases List.mem_cons.mp hf with rfl | hf
      · have hw : f.wants ≠ some m := fun hw => hfree m hw u hheld
        obtain ⟨g, hg, hneeds⟩ := hneeds.expand hw n
        exact ⟨g, List.mem_append_left _ hg, hneeds⟩
      · exact ⟨f, List.mem_append_right _ hf, hneeds⟩
  · exact ⟨hs, by rwa [Function.update_of_ne (Ne.symm hut)], f, hf, hneeds⟩

theorem Starved.interrupt (h : Starved m k s t) (c : Code μ) :
    Starved m k (interrupt c s u) t := by
  obtain ⟨hs, hstack, f, hf, hneeds⟩ := h
  by_cases hut : u = t
  · subst hut
    refine ⟨.run c :: hs, ?_, f, List.mem_cons_of_mem _ hf, hneeds⟩
    rw [Locks.interrupt, Function.update_self, hstack, List.cons_append]
  · refine ⟨hs, ?_, f, hf, hneeds⟩
    rwa [Locks.interrupt, Function.update_of_ne (Ne.symm hut)]

theorem Starved.during (hm : m ∈ held k) (h : Starved m k s t)
    (hstep : During (threadMachine main handler) t k s s') : Starved m k s' t := by
  obtain ⟨-, a, hstep⟩ := hstep
  cases a with
  | go u n => exact h.step hm hstep
  | signal u n =>
    obtain rfl : s' = Locks.interrupt (handler n) s u := hstep
    exact h.interrupt (handler n)

omit [DecidableEq ι] in
theorem Starved.ne (h : Starved m k s t) : s t ≠ k := by
  obtain ⟨hs, hstack, f, hf, -⟩ := h
  intro heq
  have hnil : hs = [] := List.append_left_eq_self.mp (hstack.symm.trans heq)
  rw [hnil] at hf
  cases hf

/-- A handler never ends when it needs a lock that the interrupted thread holds. -/
theorem not_terminates {M : Machine (ι → List (Frame μ)) (Event ι)}
    (hM : ∀ s a s', M.step s a s' → (threadMachine main handler).step s a s')
    (hm : m ∈ held (s t)) {n : ℕ} (hneeds : (handler n).needs m) :
    ¬ Terminates M handler s t := by
  intro hends
  obtain ⟨-, s', hrun, hend⟩ := hends n _ .refl
  have hstart : Starved m (s t) (interrupt (handler n) s t) t :=
    ⟨[.run (handler n)], Function.update_self .., _, List.mem_singleton_self _, hneeds⟩
  clear hends
  have hlast : Starved m (s t) s' t := by
    clear hend
    induction hrun with
    | refl => exact hstart
    | tail _ hstep ih =>
      obtain ⟨hne, a, ha⟩ := hstep
      exact ih.during hm ⟨hne, a, hM _ a _ ha⟩
  exact hlast.ne hend

end Needs

section Order
variable [DecidableEq ι] [Fintype ι] {rank : μ → ℕ} {main : ι → Code μ} {handler : ℕ → Code μ}
  {guard : ℕ} {s : ι → List (Frame μ)}

/-- Among the runs whose signals arrive where no guarded lock is held, these are the signals whose
handler always ends. -/
theorem terminates_iff (hmain : ∀ u, (main u).ordered rank 0)
    (hhandler : ∀ n, (handler n).ordered rank guard)
    (hneeds : ∃ n, ∀ m, guard ≤ rank m → (handler n).needs m)
    (hs : ((threadMachine main handler).restrict (clearSignals rank guard)).Reachable s) (t : ι) :
    Terminates ((threadMachine main handler).restrict (clearSignals rank guard)) handler s t ↔
      Clear rank guard (s t) := by
  constructor
  · intro hends m hm
    by_contra hguard
    obtain ⟨n, hn⟩ := hneeds
    have hsteps : ∀ s a s', ((threadMachine main handler).restrict (clearSignals rank guard)).step
        s a s' → (threadMachine main handler).step s a s' := fun _ _ _ hstep => hstep.2
    exact not_terminates hsteps hm (hn m (not_lt.mp hguard)) hends
  · intro hclear n s' hrun
    have hinv : (∀ v, StackOrdered rank (s' v)) ∧ Handles rank guard (s t) s' t := by
      induction hrun with
      | refl =>
        have hsignal : ((threadMachine main handler).restrict (clearSignals rank guard)).step s
            (.signal t n) (interrupt (handler n) s t) := ⟨hclear, rfl⟩
        refine ⟨ordered_step hhandler (ordered_of_reachable hmain hhandler hs) hsignal,
          [.run (handler n)], Function.update_self .., ?_⟩
        exact List.forall_mem_singleton.mpr (hhandler n)
      | tail _ hstep ih =>
        exact ⟨ordered_step hhandler ih.1 hstep.2.choose_spec, ih.2.during hhandler hstep⟩
    refine ⟨fun _ f k m hstack hwants => ?_, exists_end hhandler hinv.1 hinv.2⟩
    rw [hstack]
    exact StackOrdered.not_held (hstack ▸ hinv.1 t) hwants

end Order

end Locks
