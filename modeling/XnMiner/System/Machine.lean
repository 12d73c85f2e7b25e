import Mathlib.Logic.Basic
import Mathlib.Tactic.TypeStar

/-! # Labelled transition systems and their invariants

A system is given by its initial states and its labelled steps. A condition on
steps cuts a system down to the runs whose steps all meet it.
-/
namespace Transitions

structure Machine (σ α : Type*) where
  init : σ → Prop
  step : σ → α → σ → Prop

variable {σ α τ β : Type*}

/-- Finite runs, by the labels of their steps and their last state. -/
inductive Machine.Run (M : Machine σ α) : List α → σ → Prop where
  | start {s : σ} (h : M.init s) : Run M [] s
  | next {as : List α} {s t : σ} {a : α} (hr : Run M as s) (hs : M.step s a t) : Run M (as ++ [a]) t

def Machine.Reachable (M : Machine σ α) (s : σ) : Prop := ∃ as, M.Run as s

/-- The runs all of whose steps meet a condition on the state before the step and its label. -/
def Machine.restrict (M : Machine σ α) (C : σ → α → Prop) : Machine σ α where
  init := M.init
  step s a t := C s a ∧ M.step s a t

theorem Machine.Reachable.start {M : Machine σ α} {s : σ} (h : M.init s) : M.Reachable s :=
  ⟨[], .start h⟩

theorem Machine.Reachable.next {M : Machine σ α} {s t : σ} {a : α} (hr : M.Reachable s)
    (hs : M.step s a t) : M.Reachable t := by
  obtain ⟨as, hr⟩ := hr
  exact ⟨as ++ [a], .next hr hs⟩

/-- The invariant rule; a step may use that its source is reachable. -/
theorem Machine.Reachable.invariant {M : Machine σ α} {I : σ → Prop}
    (hinit : ∀ s, M.init s → I s)
    (hstep : ∀ s a t, M.Reachable s → I s → M.step s a t → I t) :
    ∀ {s}, M.Reachable s → I s := by
  rintro s ⟨as, hr⟩
  induction hr with
  | start h => exact hinit _ h
  | next hr hs ih => exact hstep _ _ _ ⟨_, hr⟩ ih hs

theorem Machine.Run.of_restrict {M : Machine σ α} {C : σ → α → Prop} {as : List α} {s : σ}
    (h : (M.restrict C).Run as s) : M.Run as s := by
  induction h with
  | start h => exact .start h
  | next _ hs ih => exact .next ih hs.2

/-- A step that meets the condition continues a restricted run. -/
theorem Machine.Reachable.next_restrict {M : Machine σ α} {C : σ → α → Prop} {s t : σ} {a : α}
    (hr : (M.restrict C).Reachable s) (hs : M.step s a t) (hc : C s a) :
    (M.restrict C).Reachable t := hr.next ⟨hc, hs⟩

theorem Machine.Reachable.of_restrict {M : Machine σ α} {C : σ → α → Prop} {s : σ}
    (h : (M.restrict C).Reachable s) : M.Reachable s := by
  obtain ⟨as, hr⟩ := h
  exact ⟨as, hr.of_restrict⟩

/-- The runs whose steps all meet a condition end where no step has broken it. -/
theorem Machine.Run.restrict_iff {M : Machine σ α} {C : σ → α → Prop} {I : σ → Prop}
    (hinit : ∀ s, M.init s → I s) (hstep : ∀ s a t, M.step s a t → (I t ↔ I s ∧ C s a))
    {as : List α} {s : σ} (h : M.Run as s) : (M.restrict C).Run as s ↔ I s := by
  constructor
  · intro hrun
    induction hrun with
    | start hs => exact hinit _ hs
    | next hr hs ih => exact (hstep _ _ _ hs.2).mpr ⟨ih hr.of_restrict, hs.1⟩
  · intro hend
    induction h with
    | start hs => exact .start hs
    | next hr hs ih =>
      obtain ⟨hbefore, hmet⟩ := (hstep _ _ _ hs).mp hend
      exact .next (ih hbefore) ⟨hmet, hs⟩

/-- Where an invariant of the runs under one condition gives another condition, these runs also
meet the other one. -/
theorem Machine.Run.restrict_of {M : Machine σ α} {C D : σ → α → Prop} {I : σ → Prop}
    (hinit : ∀ s, M.init s → I s) (hstep : ∀ s a t, I s → D s a → M.step s a t → C s a ∧ I t)
    {as : List α} {s : σ} (h : (M.restrict D).Run as s) : (M.restrict C).Run as s ∧ I s := by
  induction h with
  | start hs => exact ⟨.start hs, hinit _ hs⟩
  | next hr hs ih =>
    obtain ⟨hmet, hi⟩ := hstep _ _ _ ih.2 hs.1 hs.2
    exact ⟨.next ih.1 ⟨hmet, hs.2⟩, hi⟩

def runSteps (step : σ → α → Option σ) (s : σ) (as : List α) : Option σ :=
  match as with
  | [] => some s
  | a :: as => (step s a).bind fun t => runSteps step t as

theorem Machine.Run.runSteps {M : Machine σ α} {step : σ → α → Option σ} {s t : σ} {bs : List α}
    (hr : M.Run bs s) {as : List α}
    (hstep : ∀ a ∈ as, ∀ u v, step u a = some v → M.step u a v)
    (h : Transitions.runSteps step s as = some t) : M.Run (bs ++ as) t := by
  induction as generalizing s bs with
  | nil =>
    rw [List.append_nil]
    exact Option.some.inj h ▸ hr
  | cons a as ih =>
    rw [List.forall_mem_cons] at hstep
    obtain ⟨u, hu, h⟩ := Option.bind_eq_some_iff.mp h
    have hrest := ih (hr.next (hstep.1 s u hu)) hstep.2 h
    rwa [List.append_assoc, List.singleton_append] at hrest

theorem Machine.Reachable.runSteps {M : Machine σ α} {step : σ → α → Option σ} {s t : σ}
    (hr : M.Reachable s) {as : List α}
    (hstep : ∀ a ∈ as, ∀ u v, step u a = some v → M.step u a v)
    (h : Transitions.runSteps step s as = some t) : M.Reachable t := by
  obtain ⟨bs, hr⟩ := hr
  exact ⟨bs ++ as, hr.runSteps hstep h⟩

def guarded (C : σ → α → Bool) (step : σ → α → Option σ) (s : σ) (a : α) : Option σ :=
  if C s a = true then step s a else none

/-- A list of steps that all meet the condition runs in the restricted machine. -/
theorem Machine.Run.runSteps_guarded {M : Machine σ α} {C : σ → α → Bool}
    {step : σ → α → Option σ} {s t : σ} {as bs : List α}
    (hr : (M.restrict fun s a => C s a = true).Run bs s)
    (hstep : ∀ a ∈ as, ∀ u v, step u a = some v → M.step u a v)
    (h : Transitions.runSteps (guarded C step) s as = some t) :
    (M.restrict fun s a => C s a = true).Run (bs ++ as) t := by
  refine hr.runSteps (fun a ha u v huv => ?_) h
  unfold guarded at huv
  split at huv
  next hc => exact ⟨hc, hstep a ha u v huv⟩
  next => cases huv

theorem Machine.Reachable.runSteps_guarded {M : Machine σ α} {C : σ → α → Bool}
    {step : σ → α → Option σ} {s t : σ} {as : List α}
    (hr : (M.restrict fun s a => C s a = true).Reachable s)
    (hstep : ∀ a ∈ as, ∀ u v, step u a = some v → M.step u a v)
    (h : Transitions.runSteps (guarded C step) s as = some t) :
    (M.restrict fun s a => C s a = true).Reachable t := by
  obtain ⟨bs, hr⟩ := hr
  exact ⟨bs ++ as, hr.runSteps_guarded hstep h⟩

end Transitions
