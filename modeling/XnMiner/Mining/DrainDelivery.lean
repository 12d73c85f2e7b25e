import XnMiner.Mining.Provenance
import Mathlib.Algebra.BigOperators.Group.Finset.Piecewise
import Mathlib.Algebra.Order.BigOperators.Group.Multiset
import Mathlib.Algebra.Order.BigOperators.Group.Finset

/-! # What `drain_pipeline` delivers

It takes the buffered wave of every lane and leaves the rings. So it completes what
`mine_batch` returned just when the rings hold no match that would be returned.
-/
namespace XnMiner
open TextCodec Transitions

/-- Key, hash and kind of a match that is returned. -/
abbrev MatchLabel := Str × Str × Str

def Found.label (f : Found) : Option MatchLabel :=
  let kind := classifyBlock (base64Encode f.digest) f.matchedPattern
  if kind = "OTHER".toList then none
  else if isHex64Key f.key = false then none
  else some (f.key, base64Encode f.digest, kind)

def ReturnedHit.label (r : ReturnedHit) : MatchLabel :=
  (r.hit.key, r.hit.hashStr, r.hit.blockType)

def labels (ms : List HashApiMatch) : Multiset MatchLabel :=
  ↑(ms.filterMap fun m => m.toFound.label)

variable {cfg : Settings} {s t : CudaEngine}

theorem returnHit_label (difficulty : ℤ) (r : BatchReport) (m : HashApiMatch) :
    (returnHit cfg difficulty r m).map ReturnedHit.label = m.toFound.label := by
  unfold returnHit hitFromMatch Found.label
  dsimp only [HashApiMatch.hash]
  split_ifs <;> rfl

theorem labels_append (ms ns : List HashApiMatch) : labels (ms ++ ns) = labels ms + labels ns := by
  simp only [labels, List.filterMap_append, Multiset.coe_add]

theorem labels_under (difficulty : ℕ) (found : List Found) :
    labels (found.map (Found.under difficulty)) = ↑(found.filterMap Found.label) := by
  simp only [labels, List.filterMap_map]
  rfl

theorem labels_eq_zero_iff {ms : List HashApiMatch} :
    labels ms = 0 ↔ ∀ m ∈ ms, m.toFound.label = none := by
  rw [labels, Multiset.coe_eq_zero, List.filterMap_eq_nil_iff]

def CudaEngine.pendingLabels (s : CudaEngine) (i : ℕ) : Multiset MatchLabel :=
  labels ((s.pending i).getD [])

def LaneMailbox.labels (box : LaneMailbox) : Multiset MatchLabel :=
  (box.ring.map fun result => XnMiner.labels (result.getD [])).sum

def WorkerPhase.labels (p : WorkerPhase) : Multiset MatchLabel :=
  match p with
  | .holding _ _ result => XnMiner.labels (result.getD [])
  | _ => 0

def CudaEngine.delivered (s : CudaEngine) : Multiset MatchLabel :=
  ↑(s.returned.map ReturnedHit.label)

def CudaEngine.buffered (s : CudaEngine) : Multiset MatchLabel :=
  ∑ i ∈ Finset.range s.impl, s.pendingLabels i

def CudaEngine.queued (s : CudaEngine) : Multiset MatchLabel :=
  ∑ i ∈ Finset.range s.workers, (s.mailbox i).labels

def CudaEngine.held (s : CudaEngine) : Multiset MatchLabel :=
  ∑ i ∈ Finset.range s.workers, (s.phase i).labels

def completed (as : List EngineAction) : Multiset MatchLabel :=
  ↑(as.flatMap fun a => match a with
    | .hash _ (.wave found) | .mineSingle (.wave found) _ => found.filterMap Found.label
    | _ => [])

/-- No ring holds a match that would be returned. -/
def CudaEngine.ringsClear (s : CudaEngine) : Prop :=
  ∀ i < s.workers, ∀ result ∈ (s.mailbox i).ring, ∀ m ∈ result.getD [], m.toFound.label = none

/-- Steps of the workers, `mine_batch`, `set_difficulty` and `drain_pipeline`; waves succeed. -/
def EngineAction.succeeds (a : EngineAction) : Bool :=
  match a with
  | .start _ | .stop | .laneCap _ _ => false
  | .hash _ run | .mineSingle run _ => match run with
    | .wave _ => true
    | .rejected | .failed => false
  | _ => true

structure CudaEngine.justStarted (s : CudaEngine) : Prop where
  started : s.started = true
  impl : s.impl = s.lanes
  workers : s.workers = if s.lanes ≤ 1 then 0 else s.lanes

def pipelineMachine (cfg : Settings) : Machine CudaEngine EngineAction where
  init s := (engineMachine cfg).init s ∧ s.justStarted
  step s a t := (engineMachine cfg).step s a t ∧ a.succeeds = true

/-- A lane that a new plan drops has no match buffered, and rings whose workers it restarts
hold none. -/
def keepsResults (s : CudaEngine) (a : EngineAction) : Prop :=
  ∀ d n, a = .setDifficulty d (some n) → d ≠ s.difficulty →
    (∀ i < s.impl, n ≤ i → s.pendingLabels i = 0) ∧
    (n ≤ 1 ∨ s.workers ≠ n → ∀ i < s.workers, (s.mailbox i).labels = 0)

/-- The worker waits for a job, or for room in its ring. -/
def CudaEngine.waits (s : CudaEngine) (i : ℕ) : Bool :=
  match s.phase i with
  | .waiting seen => (s.mailbox i).seq = seen
  | .ready seen _ => (s.mailbox i).seq = seen ∧ kRing ≤ (s.mailbox i).ring.length
  | .hashing _ _ | .holding _ _ _ => false

def CudaEngine.quiescent (s : CudaEngine) : Bool := (List.range s.workers).all s.waits

def drainActions (n : ℕ) (r : BatchReport) : List EngineAction :=
  .drain :: List.replicate (n + 1) (.drainLane r)

theorem sum_update {β M : Type*} [AddCommMonoid M] (f : β → M) (g : ℕ → β) {i n : ℕ} (hi : i < n)
    (b : β) : ∑ j ∈ Finset.range n, f (Function.update g i b j) + f (g i) =
      ∑ j ∈ Finset.range n, f (g j) + f b := by
  have hmem : i ∈ Finset.range n := Finset.mem_range.mpr hi
  have hrest : ∀ j ∈ Finset.range n \ {i}, f (Function.update g i b j) = f (g j) := by
    intro j hj
    have hne : j ≠ i := by simpa using (Finset.mem_sdiff.mp hj).2
    rw [Function.update_of_ne hne]
  rw [Finset.sum_eq_add_sum_sdiff_singleton_of_mem hmem,
    Finset.sum_eq_add_sum_sdiff_singleton_of_mem hmem (fun j => f (g j)),
    Finset.sum_congr rfl hrest, Function.update_self]
  ac_rfl

section Cancel
variable {β M : Type*} [AddCancelCommMonoid M] {f : β → M} {g : ℕ → β} {i n : ℕ} {b : β} {c : M}

theorem sum_gained (hi : i < n) (h : f b = f (g i) + c) :
    ∑ j ∈ Finset.range n, f (Function.update g i b j) = ∑ j ∈ Finset.range n, f (g j) + c := by
  have hsum := sum_update f g hi b
  rw [h, ← add_assoc, add_right_comm] at hsum
  exact add_right_cancel hsum

theorem sum_lost (hi : i < n) (h : f (g i) = f b + c) :
    ∑ j ∈ Finset.range n, f (Function.update g i b j) + c = ∑ j ∈ Finset.range n, f (g j) := by
  have hsum := sum_update f g hi b
  rw [h, ← add_assoc, add_right_comm] at hsum
  exact add_right_cancel hsum

end Cancel

theorem box_push (box : LaneMailbox) (result : Option (List HashApiMatch)) :
    ({ box with ring := box.ring ++ [result] } : LaneMailbox).labels =
      box.labels + labels (result.getD []) := by
  simp only [LaneMailbox.labels, List.map_append, List.sum_append, List.map_cons, List.map_nil,
    List.sum_singleton]

theorem box_cons {box : LaneMailbox} {ms : List HashApiMatch}
    {ring : List (Option (List HashApiMatch))} (h : box.ring = some ms :: ring) :
    box.labels = ({ box with ring := ring } : LaneMailbox).labels + labels ms := by
  simp only [LaneMailbox.labels, h, List.map_cons, List.sum_cons, Option.getD_some]
  exact add_comm _ _

/-- The oldest results are all good, so none stays behind. -/
theorem absorb_conserves {mailbox : ℕ → LaneMailbox} {lanes : List ℕ} {a : List HashApiMatch}
    {n : ℕ} (hnodup : lanes.Nodup) (hlt : ∀ i ∈ lanes, i < n)
    (hfull : ∀ i ∈ lanes, ∃ ms ring, (mailbox i).ring = some ms :: ring) :
    labels ((absorb mailbox lanes a).2.getD []) +
        ∑ j ∈ Finset.range n, ((absorb mailbox lanes a).1 j).labels =
      labels a + ∑ j ∈ Finset.range n, (mailbox j).labels := by
  induction lanes generalizing mailbox a with
  | nil => rfl
  | cons i rest ih =>
    rw [List.nodup_cons] at hnodup
    rw [List.forall_mem_cons] at hlt hfull
    obtain ⟨⟨ms, ring, hring⟩, hrest⟩ := hfull
    have hfull' : ∀ j ∈ rest, ∃ ms ring',
        (Function.update mailbox i { mailbox i with ring } j).ring = some ms :: ring' := by
      intro j hj
      have hji : j ≠ i := fun h => hnodup.1 (h ▸ hj)
      rw [Function.update_of_ne hji]
      exact hrest j hj
    have hlost := sum_lost (f := LaneMailbox.labels) (g := mailbox) hlt.1 (box_cons hring)
    have hih := ih (a := a ++ ms) hnodup.2 hlt.2 hfull'
    unfold absorb
    simp only [hring]
    rw [hih, labels_append, ← hlost]
    ac_rfl

structure CudaEngine.unfailed (s : CudaEngine) : Prop where
  ring : ∀ i < s.workers, ∀ result ∈ (s.mailbox i).ring, result.isSome = true
  held : ∀ i < s.workers, ∀ seen d result, s.phase i = .holding seen d result → result.isSome = true

structure DrainInv (as : List EngineAction) (s : CudaEngine) : Prop where
  shape : s.justStarted
  several : s.pc = .mining → s.lanes ≠ 1
  unfailed : s.unfailed
  balance : completed as = s.delivered + s.buffered + s.queued + s.held

theorem completed_append (as bs : List EngineAction) :
    completed (as ++ bs) = completed as + completed bs := by
  simp only [completed, List.flatMap_append, Multiset.coe_add]

theorem giveBack_labels (s : CudaEngine) (r : BatchReport) (ms : List HashApiMatch) :
    (s.giveBack cfg r ms).returned.map ReturnedHit.label =
      s.returned.map ReturnedHit.label ++ ms.filterMap fun m => m.toFound.label := by
  rw [CudaEngine.giveBack, List.map_append, List.map_filterMap]
  simp only [returnHit_label]

theorem delivered_giveBack (s : CudaEngine) (r : BatchReport) (ms : List HashApiMatch) :
    (s.giveBack cfg r ms).delivered = s.delivered + labels ms := by
  rw [CudaEngine.delivered, giveBack_labels, ← Multiset.coe_add]
  rfl

/-- The backend hands out the buffered wave and keeps the new one. -/
theorem runLane_wave (s : CudaEngine) (i d : ℕ) (found : List Found) :
    s.runLane i d (.wave found) =
      ({ s with pending := Function.update s.pending i (some (found.map (Found.under d))) },
        some ((s.pending i).getD [])) := rfl

theorem buffered_wave {i : ℕ} (hi : i < s.impl) (d : ℕ) (found : List Found) :
    CudaEngine.buffered { s with
        pending := Function.update s.pending i (some (found.map (Found.under d))) } +
      s.pendingLabels i = s.buffered + ↑(found.filterMap Found.label) := by
  have hsum := sum_update (fun pending => labels (Option.getD pending [])) s.pending hi
    (some (found.map (Found.under d)))
  rw [Option.getD_some, labels_under] at hsum
  exact hsum

variable {as : List EngineAction} {i : ℕ}

theorem CudaEngine.unfailed.goto (h : s.unfailed) {p : WorkerPhase}
    (hp : ∀ seen d result, p = .holding seen d result → result.isSome = true) :
    CudaEngine.unfailed { s with phase := Function.update s.phase i p } where
  ring := h.ring
  held := by
    intro j hj seen d result hphase
    by_cases hji : j = i
    · subst hji
      simp only [Function.update_self] at hphase
      exact hp seen d result hphase
    · simp only [Function.update_of_ne hji] at hphase
      exact h.held j hj seen d result hphase

/-- A step of a worker that completes no wave and moves no result. -/
theorem DrainInv.goto (hi : DrainInv as s) {a : EngineAction} (hlt : i < s.workers) {p : WorkerPhase}
    (hbefore : (s.phase i).labels = 0) (hafter : p.labels = 0)
    (hp : ∀ seen d result, p ≠ .holding seen d result) (hnone : completed [a] = 0) :
    DrainInv (as ++ [a]) { s with phase := Function.update s.phase i p } where
  shape := ⟨hi.shape.started, hi.shape.impl, hi.shape.workers⟩
  several := hi.several
  unfailed := hi.unfailed.goto fun seen d result h => absurd h (hp seen d result)
  balance := by
    have hheld : CudaEngine.held { s with phase := Function.update s.phase i p } = s.held + 0 :=
      sum_gained hlt (by rw [hbefore, hafter, add_zero])
    rw [completed_append, hnone, hheld, add_zero, add_zero]
    exact hi.balance

theorem DrainInv.hash (hi : DrainInv as s) (hlt : i < s.workers) (himpl : i < s.impl) {seen d : ℕ}
    {found : List Found} (hphase : s.phase i = .hashing seen d) :
    DrainInv (as ++ [EngineAction.hash i (.wave found)]) { (s.runLane i d (.wave found)).1 with
      phase := Function.update s.phase i (.holding seen d (some ((s.pending i).getD []))) } := by
  rw [runLane_wave]
  set t : CudaEngine := { s with
    pending := Function.update s.pending i (some (found.map (Found.under d)))
    phase := Function.update s.phase i (.holding seen d (some ((s.pending i).getD []))) } with ht
  refine ⟨⟨hi.shape.started, hi.shape.impl, hi.shape.workers⟩, hi.several, ?_, ?_⟩
  · have hgoto := hi.unfailed.goto (i := i) (p := .holding seen d (some ((s.pending i).getD [])))
      fun _ _ _ h => by cases h; rfl
    exact ⟨hgoto.ring, hgoto.held⟩
  · have hbuffered : t.buffered + s.pendingLabels i = s.buffered + ↑(found.filterMap Found.label) :=
      buffered_wave himpl d found
    have hheld : t.held = s.held + s.pendingLabels i := by
      refine sum_gained hlt ?_
      rw [hphase]
      exact (zero_add _).symm
    have hnew : completed [.hash i (.wave found)] = ↑(found.filterMap Found.label) := by
      simp [completed]
    calc completed (as ++ [EngineAction.hash i (.wave found)])
        = s.delivered + s.buffered + s.queued + s.held + ↑(found.filterMap Found.label) := by
          rw [completed_append, hnew, hi.balance]
      _ = s.delivered + (s.buffered + ↑(found.filterMap Found.label)) + s.queued + s.held := by
          ac_rfl
      _ = s.delivered + t.buffered + s.queued + (s.held + s.pendingLabels i) := by
          rw [← hbuffered]
          ac_rfl
      _ = t.delivered + t.buffered + t.queued + t.held := by
          rw [hheld]
          rfl

/-- The result a worker holds goes into its ring. -/
theorem DrainInv.push (hi : DrainInv as s) (hlt : i < s.workers) {seen d : ℕ}
    {result : Option (List HashApiMatch)} (hphase : s.phase i = .holding seen d result) :
    DrainInv (as ++ [EngineAction.push i]) { s with
      mailbox := Function.update s.mailbox i
        { s.mailbox i with ring := (s.mailbox i).ring ++ [result] }
      phase := Function.update s.phase i (.ready seen d) } := by
  set t : CudaEngine := { s with
    mailbox := Function.update s.mailbox i
      { s.mailbox i with ring := (s.mailbox i).ring ++ [result] }
    phase := Function.update s.phase i (.ready seen d) } with ht
  refine ⟨⟨hi.shape.started, hi.shape.impl, hi.shape.workers⟩, hi.several, ?_, ?_⟩
  · refine ⟨fun j hj res hres => ?_, ?_⟩
    · by_cases hji : j = i
      · subst hji
        simp only [ht, Function.update_self, List.mem_append, List.mem_singleton] at hres
        rcases hres with hres | rfl
        · exact hi.unfailed.ring j hj res hres
        · exact hi.unfailed.held j hj seen d res hphase
      · simp only [ht, Function.update_of_ne hji] at hres
        exact hi.unfailed.ring j hj res hres
    · exact (hi.unfailed.goto fun _ _ _ h => by cases h).held
  · have hqueued : t.queued = s.queued + labels (result.getD []) :=
      sum_gained hlt (box_push _ _)
    have hheld : t.held + labels (result.getD []) = s.held := by
      refine sum_lost hlt ?_
      rw [hphase]
      exact (zero_add _).symm
    have hnew : completed [.push i] = 0 := rfl
    calc completed (as ++ [EngineAction.push i])
        = s.delivered + s.buffered + s.queued + (t.held + labels (result.getD [])) := by
          rw [completed_append, hnew, add_zero, hheld, hi.balance]
      _ = s.delivered + s.buffered + (s.queued + labels (result.getD [])) + t.held := by
          ac_rfl
      _ = t.delivered + t.buffered + t.queued + t.held := by
          rw [hqueued]
          rfl

theorem DrainInv.work (hi : DrainInv as s) {a : EngineAction} (hgood : a.succeeds = true)
    (h : s.Works a t) : DrainInv (as ++ [a]) t := by
  cases h with
  | woken hphase hlt | skipped hphase hlt | checked hphase hlt | left hphase hlt =>
    exact hi.goto hlt (by rw [hphase]; rfl) rfl (by simp) rfl
  | @hashed i seen d run hphase hlt himpl =>
    cases run with
    | wave found => exact hi.hash hlt himpl hphase
    | rejected => cases hgood
    | failed => cases hgood
  | pushed hphase hlt => exact hi.push hlt hphase

theorem CudaEngine.justStarted.workers_eq (h : s.justStarted) (hone : s.lanes ≠ 1) :
    s.workers = s.lanes := by
  rw [h.workers]
  split_ifs <;> omega

theorem ensureLaneWorkers_same (hs : s.justStarted) (h : s.ensureLaneWorkers = some t) : t = s := by
  unfold CudaEngine.ensureLaneWorkers at h
  split_ifs at h with hone hsame
  · rw [stopLaneWorkers_eq h, ← hs.workers.trans (if_pos hone)]
  · exact (Option.some.inj h).symm
  · exact absurd (hs.workers.trans (if_neg hone)) hsame

theorem DrainInv.keep (hi : DrainInv as s) {a : EngineAction} (hnone : completed [a] = 0)
    (hstarted : t.started = s.started) (hlanes : t.lanes = s.lanes) (himpl : t.impl = s.impl)
    (hworkers : t.workers = s.workers) (hpending : t.pending = s.pending)
    (hring : ∀ j, (t.mailbox j).ring = (s.mailbox j).ring) (hphase : t.phase = s.phase)
    (hreturned : t.returned = s.returned) (hpc : t.pc = .mining → s.lanes ≠ 1) :
    DrainInv (as ++ [a]) t where
  shape := ⟨hstarted ▸ hi.shape.started, by rw [himpl, hlanes]; exact hi.shape.impl,
    by rw [hworkers, hlanes]; exact hi.shape.workers⟩
  several := fun h => hlanes ▸ hpc h
  unfailed := by
    constructor
    · intro j hj res hres
      rw [hring] at hres
      exact hi.unfailed.ring j (hworkers ▸ hj) res hres
    · intro j hj
      rw [hphase]
      exact hi.unfailed.held j (hworkers ▸ hj)
  balance := by
    have hqueued : t.queued = s.queued := by
      simp only [CudaEngine.queued, LaneMailbox.labels, hworkers, hring]
    have hbuffered : t.buffered = s.buffered := by
      simp only [CudaEngine.buffered, CudaEngine.pendingLabels, himpl, hpending]
    have hheld : t.held = s.held := by simp only [CudaEngine.held, hworkers, hphase]
    have hdelivered : t.delivered = s.delivered := by simp only [CudaEngine.delivered, hreturned]
    rw [completed_append, hnone, add_zero, hqueued, hbuffered, hheld, hdelivered]
    exact hi.balance

theorem publish_ring (s : CudaEngine) (changed : ℕ → Bool) (j : ℕ) :
    ((s.publish changed).mailbox j).ring = (s.mailbox j).ring := by
  simp only [CudaEngine.publish]
  split_ifs <;> rfl

theorem DrainInv.collect (hi : DrainInv as s) (hpc : s.pc = .mining)
    (hfull : ((List.range s.lanes).all fun i => !(s.mailbox i).ring.isEmpty) = true)
    (r : BatchReport) :
    DrainInv (as ++ [EngineAction.collect r]) (({ s with
        mailbox := (absorb s.mailbox (List.range s.lanes) []).1, pc := .outside } :
      CudaEngine).giveBack cfg r ((absorb s.mailbox (List.range s.lanes) []).2.getD [])) := by
  set t : CudaEngine := ({ s with
      mailbox := (absorb s.mailbox (List.range s.lanes) []).1, pc := .outside } :
    CudaEngine).giveBack cfg r ((absorb s.mailbox (List.range s.lanes) []).2.getD []) with ht
  have hworkers : s.workers = s.lanes := hi.shape.workers_eq (hi.several hpc)
  have hheads : ∀ i ∈ List.range s.lanes, ∃ ms ring, (s.mailbox i).ring = some ms :: ring := by
    intro i hmem
    have hne := List.all_eq_true.mp hfull i hmem
    have hlt : i < s.workers := hworkers ▸ List.mem_range.mp hmem
    cases hring : (s.mailbox i).ring with
    | nil => simp [hring] at hne
    | cons result ring =>
      have hsome := hi.unfailed.ring i hlt result (hring ▸ List.mem_cons_self)
      obtain ⟨ms, rfl⟩ := Option.isSome_iff_exists.mp hsome
      exact ⟨ms, ring, rfl⟩
  refine ⟨⟨hi.shape.started, hi.shape.impl, hi.shape.workers⟩, fun h => ?_, ⟨?_, ?_⟩, ?_⟩
  · simp [ht, CudaEngine.giveBack] at h
  · intro j hj res hres
    have hsub := (absorb_mailbox s.mailbox (List.range s.lanes) [] j).2.2 res hres
    exact hi.unfailed.ring j hj res hsub
  · exact hi.unfailed.held
  · have hconserved := absorb_conserves (a := []) (n := s.workers) List.nodup_range
      (fun i hmem => hworkers ▸ List.mem_range.mp hmem) hheads
    have hqueued : labels ((absorb s.mailbox (List.range s.lanes) []).2.getD []) + t.queued =
        s.queued := hconserved.trans (zero_add _)
    have hnew : completed [EngineAction.collect r] = 0 := rfl
    calc completed (as ++ [EngineAction.collect r])
        = s.delivered + s.buffered + s.queued + s.held := by
          rw [completed_append, hnew, add_zero, hi.balance]
      _ = s.delivered + labels ((absorb s.mailbox (List.range s.lanes) []).2.getD []) +
            s.buffered + t.queued + s.held := by
          rw [← hqueued]
          ac_rfl
      _ = t.delivered + t.buffered + t.queued + t.held := by
          rw [ht, delivered_giveBack]
          rfl

theorem DrainInv.mineSingle (hi : DrainInv as s) (himpl : 0 < s.impl) (d : ℕ) (found : List Found)
    (hpc : s.pc = .outside) (r : BatchReport) :
    DrainInv (as ++ [EngineAction.mineSingle (.wave found) r])
      (((s.runLane 0 d (.wave found)).1).giveBack cfg r ((s.pending 0).getD [])) := by
  rw [runLane_wave]
  set u : CudaEngine := { s with
    pending := Function.update s.pending 0 (some (found.map (Found.under d))) } with hu
  refine ⟨⟨hi.shape.started, hi.shape.impl, hi.shape.workers⟩, fun h => ?_,
    ⟨hi.unfailed.ring, hi.unfailed.held⟩, ?_⟩
  · exact absurd (hpc.symm.trans h) (by decide)
  · have hbuffered : u.buffered + s.pendingLabels 0 =
        s.buffered + ↑(found.filterMap Found.label) := buffered_wave himpl d found
    have hnew : completed [.mineSingle (.wave found) r] = ↑(found.filterMap Found.label) := by
      simp [completed]
    calc completed (as ++ [EngineAction.mineSingle (.wave found) r])
        = s.delivered + (s.buffered + ↑(found.filterMap Found.label)) + s.queued + s.held := by
          rw [completed_append, hnew, hi.balance]
          ac_rfl
      _ = s.delivered + s.pendingLabels 0 + u.buffered + s.queued + s.held := by
          rw [← hbuffered]
          ac_rfl
      _ = (u.giveBack cfg r ((s.pending 0).getD [])).delivered + u.buffered + s.queued + s.held := by
          rw [delivered_giveBack]
          rfl

theorem DrainInv.drainLane (hi : DrainInv as s) (hlt : i < s.impl) {pc : EnginePc} (hpc : pc ≠ .mining)
    (r : BatchReport) : DrainInv (as ++ [EngineAction.drainLane r])
      (({ s with pending := Function.update s.pending i none, pc } : CudaEngine).giveBack cfg r
        ((s.pending i).getD [])) := by
  set u : CudaEngine := { s with pending := Function.update s.pending i none, pc } with hu
  refine ⟨⟨hi.shape.started, hi.shape.impl, hi.shape.workers⟩, fun h => absurd h hpc,
    ⟨hi.unfailed.ring, hi.unfailed.held⟩, ?_⟩
  have hbuffered : u.buffered + s.pendingLabels i = s.buffered :=
    sum_lost (f := fun pending => labels (Option.getD pending [])) hlt (zero_add _).symm
  have hnew : completed [EngineAction.drainLane r] = 0 := rfl
  calc completed (as ++ [EngineAction.drainLane r])
      = s.delivered + s.pendingLabels i + u.buffered + s.queued + s.held := by
        rw [completed_append, hnew, add_zero, hi.balance, ← hbuffered]
        ac_rfl
    _ = (u.giveBack cfg r ((s.pending i).getD [])).delivered + u.buffered + s.queued + s.held := by
        rw [delivered_giveBack]
        rfl

/-- Every worker can be joined, so none holds a result. -/
theorem held_of_joinable (h : s.joinable = true) : s.held = 0 := by
  refine Finset.sum_eq_zero fun i hmem => ?_
  have hjoin := List.all_eq_true.mp h i (List.mem_range.mpr (Finset.mem_range.mp hmem))
  cases hphase : s.phase i with
  | waiting seen => rfl
  | ready seen d => rfl
  | hashing seen d => simp [hphase, WorkerPhase.joinable] at hjoin
  | holding seen d result => simp [hphase, WorkerPhase.joinable] at hjoin

theorem stopLaneWorkers_joinable (h : s.stopLaneWorkers = some t) : s.joinable = true := by
  unfold CudaEngine.stopLaneWorkers at h
  split_ifs at h with hjoin
  exact hjoin

/-- The lanes that stay keep their waves, and the others have none. -/
theorem buffered_syncLanes (h : ∀ i < s.impl, s.lanes ≤ i → s.pendingLabels i = 0) :
    s.syncLanes.buffered = s.buffered := by
  have hkept : ∀ i < s.impl, s.syncLanes.pendingLabels i = s.pendingLabels i := by
    intro i hlt
    simp only [CudaEngine.pendingLabels, CudaEngine.syncLanes, if_pos hlt]
  have hnew : ∀ i, s.impl ≤ i → s.syncLanes.pendingLabels i = 0 := by
    intro i hle
    simp only [CudaEngine.pendingLabels, CudaEngine.syncLanes, if_neg (Nat.not_lt.mpr hle)]
    rfl
  have hsame : s.syncLanes.buffered = ∑ i ∈ Finset.range s.lanes, s.syncLanes.pendingLabels i := rfl
  rcases Nat.le_total s.impl s.lanes with hle | hle
  · have hsub : Finset.range s.impl ⊆ Finset.range s.lanes := Finset.range_mono hle
    rw [hsame, ← Finset.sum_subset hsub fun i _ hout => hnew i (by simpa using hout)]
    exact Finset.sum_congr rfl fun i hmem => hkept i (Finset.mem_range.mp hmem)
  · have hsub : Finset.range s.lanes ⊆ Finset.range s.impl := Finset.range_mono hle
    have hlost : ∀ i ∈ Finset.range s.impl, i ∉ Finset.range s.lanes → s.pendingLabels i = 0 :=
      fun i hmem hout => h i (Finset.mem_range.mp hmem) (by simpa using hout)
    rw [hsame, CudaEngine.buffered, ← Finset.sum_subset hsub hlost]
    exact Finset.sum_congr rfl fun i hmem => hkept i ((Finset.mem_range.mp hmem).trans_le hle)

/-- Workers that are joined hold nothing, and their rings have nothing to lose. -/
theorem DrainInv.replan (hi : DrainInv as s) (hpc : s.pc = .outside) {d : ℤ} {n : ℕ}
    (hne : d ≠ s.difficulty) (hkeeps : keepsResults s (.setDifficulty d (some n)))
    (h : ({ s with difficulty := d, lanes := n } : CudaEngine).syncLanes.ensureLaneWorkers = some t) :
    DrainInv (as ++ [EngineAction.setDifficulty d (some n)]) t := by
  obtain ⟨hpending, hrings⟩ := hkeeps d n rfl hne
  have hbuffered : ({ s with difficulty := d, lanes := n } : CudaEngine).syncLanes.buffered =
      s.buffered := buffered_syncLanes hpending
  have hnew : completed [EngineAction.setDifficulty d (some n)] = 0 := rfl
  have hidle : n ≤ 1 ∨ s.workers ≠ n → s.joinable = true → s.queued = 0 ∧ s.held = 0 :=
    fun hlost hjoin => ⟨Finset.sum_eq_zero fun i hmem =>
      hrings hlost i (Finset.mem_range.mp hmem), held_of_joinable hjoin⟩
  unfold CudaEngine.ensureLaneWorkers at h
  split_ifs at h with hone hsame
  · obtain ⟨hqueued, hheld⟩ := hidle (.inl hone) (stopLaneWorkers_joinable h :)
    obtain rfl := stopLaneWorkers_eq h
    refine ⟨⟨hi.shape.started, rfl, (if_pos hone).symm⟩, fun h => ?_, ⟨?_, ?_⟩, ?_⟩
    · exact absurd (hpc.symm.trans h) (by decide)
    · simp
    · simp
    · rw [completed_append, hnew, add_zero, hi.balance, hqueued, hheld, ← hbuffered]
      rfl
  · obtain rfl := Option.some.inj h
    refine ⟨⟨hi.shape.started, rfl, ?_⟩, fun h => ?_, ⟨hi.unfailed.ring, hi.unfailed.held⟩, ?_⟩
    · exact hsame.trans (if_neg hone).symm
    · exact absurd (hpc.symm.trans h) (by decide)
    · rw [completed_append, hnew, add_zero, hi.balance, ← hbuffered]
      rfl
  · obtain ⟨u, hu, rfl⟩ := Option.map_eq_some_iff.mp h
    obtain ⟨hqueued, hheld⟩ := hidle (.inr hsame) (stopLaneWorkers_joinable hu :)
    obtain rfl := stopLaneWorkers_eq hu
    refine ⟨⟨hi.shape.started, rfl, (if_neg hone).symm⟩, fun h => ?_, ⟨?_, ?_⟩, ?_⟩
    · exact absurd (hpc.symm.trans h) (by decide)
    · simp
    · simp
    · rw [completed_append, hnew, add_zero, hi.balance, hqueued, hheld, ← hbuffered]
      have hempty : ∑ i ∈ Finset.range n, LaneMailbox.labels {} = 0 :=
        Finset.sum_eq_zero fun _ _ => rfl
      have hwaiting : ∑ i ∈ Finset.range n, WorkerPhase.labels (.waiting 0) = 0 :=
        Finset.sum_eq_zero fun _ _ => rfl
      exact congrArg₂ (· + ·) (congrArg _ hempty.symm) hwaiting.symm

theorem DrainInv.setDifficulty (hi : DrainInv as s) (hpc : s.pc = .outside) {d : ℤ}
    {plan : Option ℕ} (hkeeps : keepsResults s (.setDifficulty d plan))
    (h : s.setDifficulty d plan = some t) :
    DrainInv (as ++ [EngineAction.setDifficulty d plan]) t := by
  have hstarted := hi.shape.started
  have hout : ∀ {u : CudaEngine}, u.pc = s.pc → u.pc = .mining → s.lanes ≠ 1 :=
    fun hu h => absurd (hpc.symm.trans (hu.symm.trans h)) (by decide)
  unfold CudaEngine.setDifficulty at h
  split_ifs at h with hsame hstopped
  · obtain rfl := Option.some.inj h
    exact hi.keep rfl rfl rfl rfl rfl rfl (fun _ => rfl) rfl rfl (hout rfl)
  · rw [hstarted] at hstopped
    cases hstopped
  · cases plan with
    | none =>
      obtain rfl := Option.some.inj h
      exact hi.keep rfl rfl rfl rfl rfl rfl (fun _ => rfl) rfl rfl (hout rfl)
    | some n =>
      have hne : d ≠ s.difficulty := fun heq => hsame ⟨heq, hstarted⟩
      exact hi.replan hpc hne hkeeps h

theorem DrainInv.call (hi : DrainInv as s) {a : EngineAction} (hgood : a.succeeds = true)
    (hkeeps : keepsResults s a) (h : s.Calls cfg a t) : DrainInv (as ++ [a]) t := by
  cases h with
  | runsAlready | unplanned | starts | stops | recaps | narrows => cases hgood
  | sets hpc ht => exact hi.setDifficulty hpc hkeeps ht
  | @minesSingle run r hpc _ himpl _ =>
    cases run with
    | wave found => exact hi.mineSingle himpl _ found hpc r
    | rejected => cases hgood
    | failed => cases hgood
  | @mines changed u hpc _ _ hseveral hu =>
    obtain rfl := ensureLaneWorkers_same hi.shape hu
    exact hi.keep rfl rfl rfl rfl rfl rfl (publish_ring _ changed) rfl rfl fun _ => hseveral
  | collects hpc hfull => exact hi.collect hpc hfull _
  | drains hpc | drainsNothing hpc =>
    exact hi.keep rfl rfl rfl rfl rfl rfl (fun _ => rfl) rfl rfl (by simp [hpc])
  | drainsLane _ hlt => exact hi.drainLane hlt (by simp) _
  | drained => exact hi.keep rfl rfl rfl rfl rfl rfl (fun _ => rfl) rfl rfl (by simp)

theorem DrainInv.step (hi : DrainInv as s) {a : EngineAction} (hkeeps : keepsResults s a)
    (h : (pipelineMachine cfg).step s a t) : DrainInv (as ++ [a]) t := by
  obtain ⟨⟨hstep, -⟩, hgood⟩ := h
  cases CudaEngine.step_moves hstep with
  | inl hworks => exact hi.work hgood hworks
  | inr hcalls => exact hi.call hgood hkeeps hcalls

theorem DrainInv.init (h : (pipelineMachine cfg).init s) : DrainInv [] s := by
  obtain ⟨⟨hfresh, -⟩, hstarted⟩ := h
  have hdelivered : s.delivered = 0 := by rw [CudaEngine.delivered, hfresh.returned]; rfl
  have hbuffered : s.buffered = 0 := Finset.sum_eq_zero fun i _ => by
    rw [CudaEngine.pendingLabels, hfresh.pending]; rfl
  have hqueued : s.queued = 0 := Finset.sum_eq_zero fun i _ => by rw [hfresh.mailbox]; rfl
  have hheld : s.held = 0 := Finset.sum_eq_zero fun i _ => by rw [hfresh.phase]; rfl
  refine ⟨hstarted, fun h => ?_, ⟨?_, ?_⟩, ?_⟩
  · exact absurd (hfresh.outside.symm.trans h) (by decide)
  · simp [hfresh.mailbox]
  · simp [hfresh.phase]
  · rw [hdelivered, hbuffered, hqueued, hheld]
    rfl

theorem drainInv_of_run (h : ((pipelineMachine cfg).restrict keepsResults).Run as s) :
    DrainInv as s := by
  induction h with
  | start h => exact DrainInv.init h
  | next _ hs ih => exact ih.step hs.1 hs.2

/-- The lanes from `i` on are drained one by one. -/
theorem drainLanes_run (cfg : Settings) (r : BatchReport) (n : ℕ) :
    ∀ (s : CudaEngine) (i : ℕ), s.pc = .draining i → s.impl = i + n →
      ∃ t, runSteps (CudaEngine.step cfg) s (List.replicate (n + 1) (.drainLane r)) = some t ∧
        t.impl = s.impl ∧ t.workers = s.workers ∧ t.mailbox = s.mailbox ∧ t.phase = s.phase ∧
        (∀ j, i ≤ j → j < s.impl → t.pending j = none) ∧ ∀ j < i, t.pending j = s.pending j := by
  induction n with
  | zero =>
    intro s i hpc himpl
    have hlast : ¬ i < s.impl := by omega
    refine ⟨{ s with pc := .outside }, ?_, rfl, rfl, rfl, rfl, fun j hij hj => by omega, fun _ _ => rfl⟩
    simp only [List.replicate, runSteps, CudaEngine.step, CudaEngine.call, hpc, if_neg hlast,
      Option.bind_some]
  | succ n ih =>
    intro s i hpc himpl
    have hlt : i < s.impl := by omega
    set u : CudaEngine := ({ s with
      pending := Function.update s.pending i none, pc := .draining (i + 1) } :
        CudaEngine).giveBack cfg r ((s.pending i).getD []) with hu
    have hstep : s.step cfg (.drainLane r) = some u := by
      simp only [CudaEngine.step, CudaEngine.call, hpc, if_pos hlt, hu]
    obtain ⟨t, hrun, h1, h2, h3, h4, hnone, hkept⟩ := ih u (i + 1) rfl (by
      simp only [hu, CudaEngine.giveBack]
      omega)
    refine ⟨t, ?_, h1, h2, h3, h4, fun j hij hj => ?_, fun j hj => ?_⟩
    · rw [List.replicate_succ, runSteps, hstep, Option.bind_some, hrun]
    · rcases hij.eq_or_lt with rfl | hlt'
      · rw [hkept i (Nat.lt_succ_self i)]
        simp [hu, CudaEngine.giveBack]
      · exact hnone j hlt' hj
    · rw [hkept j (by omega)]
      have hji : j ≠ i := by omega
      simp [hu, CudaEngine.giveBack, hji]

theorem queued_eq_zero_iff : s.queued = 0 ↔ s.ringsClear := by
  rw [CudaEngine.queued, Finset.sum_eq_zero_iff]
  refine forall_congr' fun i => ?_
  rw [Finset.mem_range]
  refine imp_congr_right fun _ => ?_
  rw [LaneMailbox.labels, List.sum_eq_zero_iff, List.forall_mem_map]
  exact forall₂_congr fun result _ => labels_eq_zero_iff

theorem completed_drainActions (n : ℕ) (r : BatchReport) : completed (drainActions n r) = 0 := by
  simp [completed, drainActions, List.flatMap_replicate]

/-- Where no change of the difficulty has dropped results: once the workers can be joined, draining
the lanes completes what was returned to the matches of all completed waves just when the rings hold
no match. -/
theorem drain_delivers_iff (cfg : Settings) (as : List EngineAction) (s : CudaEngine)
    (hrun : ((pipelineMachine cfg).restrict keepsResults).Run as s) (hpc : s.pc = .outside)
    (hquiet : s.joinable = true) (r : BatchReport) :
    ∃ t, runSteps (CudaEngine.step cfg) s (drainActions s.impl r) = some t ∧
      (t.delivered = completed as ↔ s.ringsClear) := by
  have hstarted := (drainInv_of_run hrun).shape.started
  set u : CudaEngine := { s with pc := .draining 0 } with hu
  have hfirst : s.step cfg .drain = some u := by
    simp only [CudaEngine.step, CudaEngine.call, hpc, hstarted, if_true, hu]
  obtain ⟨t, hlanes, himpl, hworkers, hmailbox, hphase, hnone, -⟩ :=
    drainLanes_run cfg r s.impl u 0 rfl (Nat.zero_add _).symm
  have hsteps : runSteps (CudaEngine.step cfg) s (drainActions s.impl r) = some t := by
    rw [drainActions, runSteps, hfirst, Option.bind_some, hlanes]
  refine ⟨t, hsteps, ?_⟩
  have hdrained : ((pipelineMachine cfg).restrict keepsResults).Run (as ++ drainActions s.impl r) t := by
    refine hrun.runSteps (fun a ha v w hvw => ?_) hsteps
    have ha : a = .drain ∨ a = .drainLane r := by
      rcases List.mem_cons.mp ha with rfl | hrest
      · exact .inl rfl
      · exact .inr (List.eq_of_mem_replicate hrest)
    rcases ha with rfl | rfl
    · exact ⟨by simp [keepsResults], ⟨hvw, by simp⟩, rfl⟩
    · exact ⟨by simp [keepsResults], ⟨hvw, by simp⟩, rfl⟩
  have hbalance := (drainInv_of_run hdrained).balance
  have hbuffered : t.buffered = 0 := by
    refine Finset.sum_eq_zero fun i hmem => ?_
    have hlt : i < s.impl := himpl ▸ Finset.mem_range.mp hmem
    rw [CudaEngine.pendingLabels, hnone i (Nat.zero_le i) hlt]
    rfl
  have hheld : t.held = 0 := by
    rw [CudaEngine.held, hworkers, hphase]
    exact held_of_joinable hquiet
  have hqueued : t.queued = s.queued := by
    rw [CudaEngine.queued, hworkers, hmailbox]
    rfl
  rw [completed_append, completed_drainActions, hbuffered, hheld, hqueued] at hbalance
  simp only [add_zero] at hbalance
  rw [hbalance, left_eq_add]
  exact queued_eq_zero_iff

def twoLanes : CudaEngine := { difficulty := 1100, lanes := 2, impl := 2, workers := 2 }

theorem twoLanes_init : (pipelineMachine classicMine).init twoLanes :=
  ⟨⟨⟨rfl, rfl, rfl, rfl, rfl, by decide⟩, by decide⟩, rfl, rfl, rfl⟩

def workerWave (i : ℕ) (found : List Found) : List EngineAction :=
  [.check i, .hash i (.wave found), .push i]

/-- A block is found in the first wave of lane 0. One call takes a result of each lane, and
the workers fill their rings again. -/
def blockQueued : List EngineAction :=
  [.mine fun _ => false, .wake 0 true, .wake 1 true] ++ workerWave 0 [foundBlock] ++
    (List.replicate 3 (workerWave 0 [])).flatten ++ (List.replicate 4 (workerWave 1 [])).flatten ++
    [.collect anyReport] ++ workerWave 0 [] ++ workerWave 1 []

def blockTaken : List EngineAction := blockQueued ++ [.mine fun _ => false, .collect anyReport]

def EngineAction.keepsDifficulty (a : EngineAction) : Bool :=
  match a with
  | .setDifficulty _ _ => false
  | _ => true

theorem twoLanes_run {as : List EngineAction}
    (hall : ∀ a ∈ as, (a.succeeds && a.keepsDifficulty) = true)
    (ht : runSteps (CudaEngine.step classicMine) twoLanes as = some t) :
    ((pipelineMachine classicMine).restrict keepsResults).Run as t := by
  have hstart : ((pipelineMachine classicMine).restrict keepsResults).Run [] twoLanes :=
    .start twoLanes_init
  refine hstart.runSteps (fun a ha u v huv => ?_) ht
  obtain ⟨hgood, hsame⟩ := Bool.and_eq_true_iff.mp (hall a ha)
  refine ⟨?_, ⟨huv, fun _ _ _ hforced => absurd hforced (by decide)⟩, hgood⟩
  rintro d n rfl
  cases hsame

theorem drain_incomplete : ¬ ∀ (cfg : Settings) (as : List EngineAction) (s : CudaEngine),
    (pipelineMachine cfg).Run as s → s.pc = .outside → s.quiescent = true →
      ∀ r t, runSteps (CudaEngine.step cfg) s (drainActions s.impl r) = some t →
        t.delivered = completed as := by
  intro hall
  have hrun : ((runSteps (CudaEngine.step classicMine) twoLanes blockQueued).bind fun s =>
      (runSteps (CudaEngine.step classicMine) s (drainActions s.impl anyReport)).map fun t =>
        (s.pc, s.quiescent, t.returned.length)) = some (.outside, true, 0) := by decide +kernel
  obtain ⟨s, hs, hdrain⟩ := Option.bind_eq_some_iff.mp hrun
  obtain ⟨t, ht, hvalues⟩ := Option.map_eq_some_iff.mp hdrain
  obtain ⟨hpc, hquiet, hreturned⟩ : s.pc = .outside ∧ s.quiescent = true ∧ t.returned.length = 0 := by
    simpa using hvalues
  have hsame := hall classicMine blockQueued s (twoLanes_run (by decide +kernel) hs).of_restrict
    hpc hquiet anyReport t ht
  have hcard : t.delivered.card = 0 := by
    rw [CudaEngine.delivered, Multiset.coe_card, List.length_map, hreturned]
  have hone : (completed blockQueued).card = 1 := by decide +kernel
  rw [hsame, hone] at hcard
  cases hcard

theorem drain_delivers_run : ∃ s t : CudaEngine, s.impl = 2 ∧ s.returned.length = 1 ∧
    runSteps (CudaEngine.step classicMine) s (drainActions 2 anyReport) = some t ∧
      t.delivered = completed blockTaken := by
  have hrun : (runSteps (CudaEngine.step classicMine) twoLanes blockTaken).map (fun s =>
      (s.pc, s.joinable, s.impl, s.workers, s.returned.length,
        (List.range 2).all fun i => (s.mailbox i).ring.all fun result => (result.getD []).isEmpty)) =
      some (.outside, true, 2, 2, 1, true) := by decide +kernel
  obtain ⟨s, hs, hvalues⟩ := Option.map_eq_some_iff.mp hrun
  simp only [Prod.mk.injEq] at hvalues
  obtain ⟨hpc, hjoin, himpl, hworkers, hreturned, hempty⟩ := hvalues
  obtain ⟨t, ht, hiff⟩ := drain_delivers_iff classicMine blockTaken s
    (twoLanes_run (by decide +kernel) hs) hpc hjoin anyReport
  have hclear : s.ringsClear := by
    intro i hi result hresult m hm
    rw [List.all_eq_true] at hempty
    have hnil := List.all_eq_true.mp (hempty i (List.mem_range.mpr (hworkers ▸ hi))) result hresult
    rw [List.isEmpty_iff.mp hnil] at hm
    cases hm
  exact ⟨s, t, himpl, hreturned, himpl ▸ ht, hiff.mpr hclear⟩

end XnMiner
