import XnMiner.Mining.RingSafety
import Mathlib.Data.List.Nodup

/-! # A failed wave stays at the head of its ring

`mine_batch` reports a failed result by an exception, and does so before it counts the
lane. The next call waits for a result of every lane and finds the same one again.
-/
namespace XnMiner
open Transitions RingBuffers

def RingEngine.reports (s : RingEngine) : List (ℕ × ℕ) := s.calls.filterMap id

/-- How the calls after the first report ended. -/
def RingEngine.furtherCalls (s : RingEngine) : List (Option (ℕ × ℕ)) :=
  (s.calls.dropWhile Option.isNone).tail

def RingEngine.failed (s : RingEngine) : List (ℕ × ℕ) :=
  (List.range s.lanes).flatMap fun i =>
    ((List.range (s.made i).length).filter fun k =>
      (s.made i)[k]?.any Option.isNone).map (Prod.mk i)

/-- No result is reported twice, and of more further calls than there are failed results one
has returned normally. -/
def RingEngine.recovers (s : RingEngine) : Prop :=
  s.reports.Nodup ∧ (s.failed.length < s.furtherCalls.length → none ∈ s.furtherCalls)

structure RingEngine.stuckAt (s : RingEngine) (r : ℕ × ℕ) : Prop where
  lane : r.1 < s.lanes
  index : r.2 = (s.mailbox r.1).ring.consumed
  waits : (s.mailbox r.1).ring.consumed < (s.mailbox r.1).ring.produced
  front : (s.mailbox r.1).ring.front kRing = none

def BatchPc.passed (pc : BatchPc) : ℕ :=
  match pc with
  | .outside | .waiting => 0
  | .reading i | .absorbing i _ => i

structure StickyInv (s : RingEngine) : Prop where
  stuck : ∀ r ∈ s.reports, s.stuckAt r
  ahead : ∀ r ∈ s.reports, s.pc.passed ≤ r.1
  order : s.calls.Pairwise fun c d => c.isSome = true → d.isSome = true

variable {s t : RingEngine} {i : ℕ}

theorem RingEngine.stuckAt.grows {r : ℕ × ℕ} (h : s.stuckAt r) (hlanes : t.lanes = s.lanes)
    (hgrows : Grows (s.mailbox r.1).ring (t.mailbox r.1).ring) : t.stuckAt r where
  lane := hlanes ▸ h.lane
  index := h.index.trans hgrows.consumed.symm
  waits := by
    rw [hgrows.consumed]
    exact h.waits.trans_le hgrows.produced
  front := (hgrows.front h.waits).trans h.front

/-- A step that reports nothing and leaves the reported results where they are. -/
theorem StickyInv.keep (hi : StickyInv s) (hcalls : t.calls = s.calls) (hlanes : t.lanes = s.lanes)
    (hpassed : ∀ r ∈ s.reports, t.pc.passed ≤ r.1)
    (hgrows : ∀ r ∈ s.reports, Grows (s.mailbox r.1).ring (t.mailbox r.1).ring) : StickyInv t := by
  have hreports : t.reports = s.reports := by rw [RingEngine.reports, hcalls]; rfl
  refine ⟨fun r hr => ?_, fun r hr => ?_, hcalls ▸ hi.order⟩
  · rw [hreports] at hr
    exact (hi.stuck r hr).grows hlanes (hgrows r hr)
  · rw [hreports] at hr
    exact hpassed r hr

/-- A lane with a failed result at its head is read and reported. -/
theorem StickyInv.report (hi : StickyInv s) (hr : s.stuckAt (i, (s.mailbox i).ring.consumed)) :
    StickyInv { s with
      pc := .outside, calls := s.calls ++ [some (i, (s.mailbox i).ring.consumed)] } := by
  have hreports : ∀ r ∈ (s.calls ++ [some (i, (s.mailbox i).ring.consumed)]).filterMap id,
      s.stuckAt r := by
    intro r hr'
    rw [List.filterMap_append, List.mem_append] at hr'
    rcases hr' with hold | hnew
    · exact hi.stuck r hold
    · obtain rfl : r = (i, (s.mailbox i).ring.consumed) := by simpa using hnew
      exact hr
  refine ⟨fun r hr' => ?_, fun _ _ => Nat.zero_le _, ?_⟩
  · obtain ⟨hlane, hindex, hwaits, hfront⟩ := hreports r hr'
    exact ⟨hlane, hindex, hwaits, hfront⟩
  · exact List.pairwise_append.mpr ⟨hi.order, List.pairwise_singleton _ _, by simp⟩

/-- A call returns normally only when nothing was reported before. -/
theorem StickyInv.finish (hi : StickyInv s) (hpc : s.pc = .reading s.lanes) :
    StickyInv { s with pc := .outside, calls := s.calls ++ [none] } := by
  have hnone : s.reports = [] := by
    rw [List.eq_nil_iff_forall_not_mem]
    intro r hr
    have hpassed := hi.ahead r hr
    rw [hpc] at hpassed
    exact absurd (hi.stuck r hr).lane (Nat.not_lt.mpr hpassed)
  have hreports : (s.calls ++ [none]).filterMap id = [] := by
    rw [List.filterMap_append]
    exact List.append_eq_nil_iff.mpr ⟨hnone, rfl⟩
  have hcalls : ∀ c ∈ s.calls, c = none := List.filterMap_eq_nil_iff.mp hnone
  refine ⟨fun r hr => ?_, fun r hr => ?_, ?_⟩
  · rw [RingEngine.reports, hreports] at hr
    cases hr
  · rw [RingEngine.reports, hreports] at hr
    cases hr
  · refine List.pairwise_append.mpr ⟨hi.order, List.pairwise_singleton _ _, fun c hc d _ hsome => ?_⟩
    rw [hcalls c hc] at hsome
    cases hsome

theorem StickyInv.mine (hi : StickyInv s) (hr : RingInv s) {a : BatchAction}
    (h : s.mine a = some t) : StickyInv t := by
  cases RingEngine.mine_mines h with
  | sets => exact hi.keep rfl rfl hi.ahead fun _ _ => Grows.refl _
  | calls =>
    refine hi.keep rfl rfl (fun _ _ => Nat.zero_le _) fun r _ => ?_
    simpa only [publishJobs_ring] using Grows.refl _
  | gathers => exact hi.keep rfl rfl (fun _ _ => Nat.zero_le _) fun _ _ => Grows.refl _
  | reads hpc =>
    have hahead := hi.ahead
    rw [hpc] at hahead
    exact hi.keep rfl rfl hahead fun _ _ => Grows.refl _
  | @throws j hpc hlt hfront =>
    have hfilled := hr.batch
    rw [RingEngine.batchOk, hpc] at hfilled
    exact hi.report ⟨hlt, rfl, hfilled j le_rfl hlt, hfront⟩
  | @counts j ms hpc =>
    have hb := hr.batch
    rw [RingEngine.batchOk, hpc] at hb
    -- the lane that is counted had a good result, so it is not a reported one
    have hother : ∀ r ∈ s.reports, j < r.1 := by
      intro r hmem
      have hahead := hi.ahead r hmem
      rw [hpc] at hahead
      refine lt_of_le_of_ne hahead fun heq => ?_
      have hfront := (hi.stuck r hmem).front
      rw [← heq, hb.2.2] at hfront
      cases hfront
    refine hi.keep rfl rfl (fun r hmem => hother r hmem) fun r hmem => ?_
    have hne : r.1 ≠ j := (hother r hmem).ne'
    simpa [RingEngine.setRing, hne] using Grows.refl _
  | returns hpc => exact hi.finish hpc

theorem StickyInv.step (hi : StickyInv s) (hr : RingInv s) {a : RingAction} (h : s.step a = some t) :
    StickyInv t := by
  cases a with
  | work i a =>
    have hwork := hr.workerStep h
    exact hi.keep hwork.calls hwork.lanes (hwork.pc ▸ hi.ahead) fun r _ => hwork.grows r.1
  | mine a => exact hi.mine hr h

theorem StickyInv.init (h : s.fresh) : StickyInv s := by
  have hreports : s.reports = [] := by rw [RingEngine.reports, h.calls]; rfl
  refine ⟨fun r hr => ?_, fun r hr => ?_, ?_⟩
  · rw [hreports] at hr
    cases hr
  · rw [hreports] at hr
    cases hr
  · rw [h.calls]
    exact List.Pairwise.nil

theorem stickyInv_of_reachable (hs : ringMachine.Reachable s) : StickyInv s :=
  Machine.Reachable.invariant (M := ringMachine) (I := StickyInv) (fun _ => StickyInv.init)
    (fun _ _ _ hreach hi h => hi.step (ringInv_of_reachable hreach) h) hs

theorem none_notMem_tail {α : Type*} {calls : List (Option α)}
    (horder : calls.Pairwise fun c d => c.isSome = true → d.isSome = true) :
    none ∉ (calls.dropWhile Option.isNone).tail := by
  induction calls with
  | nil => simp
  | cons c calls ih =>
    obtain ⟨hfirst, hrest⟩ := List.pairwise_cons.mp horder
    cases c with
    | none => exact ih hrest
    | some r =>
      intro hmem
      exact absurd (hfirst none hmem rfl) (by simp)

theorem reports_subset (hi : StickyInv s) (hr : RingInv s) : s.reports ⊆ s.failed := by
  intro r hmem
  obtain ⟨hlane, hindex, hwaits, hfront⟩ := hi.stuck r hmem
  have hok := hr.lane r.1 hlane
  have hmade : (s.made r.1)[r.2]? = some none := by
    rw [hok.history, contents_eq_cons hwaits, hfront, hindex, ← hok.counted]
    simp
  have hlt : r.2 < (s.made r.1).length := (List.getElem?_eq_some_iff.mp hmade).1
  refine List.mem_flatMap.mpr ⟨r.1, List.mem_range.mpr hlane, ?_⟩
  refine List.mem_map.mpr ⟨r.2, List.mem_filter.mpr ⟨List.mem_range.mpr hlt, ?_⟩, rfl⟩
  rw [hmade]
  rfl

/-- Once a failed result was reported no call returns normally, and when there were more calls
than failed results one of these was reported twice. -/
theorem lane_errors_stick (s : RingEngine) (hs : ringMachine.Reachable s) :
    none ∉ s.furtherCalls ∧
      (s.failed.length < s.furtherCalls.length → ¬ s.reports.Nodup ∧ ¬ s.recovers) := by
  have hi := stickyInv_of_reachable hs
  have hnone : none ∉ s.furtherCalls := none_notMem_tail hi.order
  refine ⟨hnone, fun hmore => ⟨fun hnodup => ?_, fun hrecovers => hnone (hrecovers.2 hmore)⟩⟩
  have hsome : ∀ c ∈ s.furtherCalls, (id c).isSome = true := by
    intro c hc
    rw [id, Option.isSome_iff_ne_none]
    rintro rfl
    exact hnone hc
  have hfurther : s.furtherCalls.length ≤ s.reports.length := by
    rw [← List.filterMap_length_eq_length.mpr hsome]
    have hsub : s.furtherCalls.Sublist s.calls :=
      (List.tail_sublist _).trans (List.dropWhile_sublist _)
    exact (hsub.filterMap id).length_le
  have hreports : s.reports.length ≤ s.failed.length :=
    hnodup.length_le_of_subset (reports_subset hi (ringInv_of_reachable hs))
  omega

def reportingCall : List RingAction :=
  [.mine (.call fun _ => false), .mine .gather, .mine .read]

def oneFailure : List RingAction :=
  ringCalled ++ laneWave 0 .failed ++ laneWave 1 (.wave []) ++ laneWave 0 (.wave []) ++
    [.mine .gather, .mine .read] ++ reportingCall ++ reportingCall

theorem oneFailure_run : ∃ s, ringMachine.Reachable s ∧ s.failed = [(0, 0)] ∧
    s.calls = [some (0, 0), some (0, 0), some (0, 0)] := by
  have hrun : (runSteps RingEngine.step ringStart oneFailure).map (fun t => (t.failed, t.calls)) =
      some ([(0, 0)], [some (0, 0), some (0, 0), some (0, 0)]) := by decide +kernel
  obtain ⟨s, hsteps, hvalues⟩ := Option.map_eq_some_iff.mp hrun
  obtain ⟨hfailed, hcalls⟩ := Prod.mk.inj hvalues
  exact ⟨s, (Machine.Reachable.start (M := ringMachine) ringStart_fresh).runSteps
    (fun _ _ _ _ h => h) hsteps, hfailed, hcalls⟩

theorem lane_error_not_recovered : ¬ ∀ s, ringMachine.Reachable s → s.recovers := by
  intro hall
  obtain ⟨s, hs, -, hcalls⟩ := oneFailure_run
  have hnodup := (hall s hs).1
  rw [RingEngine.reports, hcalls] at hnodup
  exact absurd hnodup (by decide)

theorem lane_errors_stick_run : ∃ s, ringMachine.Reachable s ∧ s.furtherCalls.length = 2 ∧
    none ∉ s.furtherCalls ∧ ¬ s.reports.Nodup ∧ ¬ s.recovers := by
  obtain ⟨s, hs, hfailed, hcalls⟩ := oneFailure_run
  have hlength : s.furtherCalls.length = 2 := by
    rw [RingEngine.furtherCalls, hcalls]
    rfl
  obtain ⟨hnone, hmore⟩ := lane_errors_stick s hs
  exact ⟨s, hs, hlength, hnone, hmore (by rw [hfailed, hlength]; decide)⟩

end XnMiner
