import XnMiner.Config.Settings
import XnMiner.Queue.Policy

/-! # The XUNI throttle

A full queue pauses XUNI mining until it has drained to the resume level, and while it is not
paused one batch in `xuniEveryNBatches` hunts XUNI. A paused batch is not counted.
-/
namespace XnMiner

structure XuniState where
  pendingXuni : ℤ := 0
  pendingXnm : ℤ := 0
  pendingXblk : ℤ := 0
  xuniQueuePaused : Bool := false
  batchSeq : ℕ := 0

def XuniState.setQueueCounts (st : XuniState) (pendingXuni pendingXnm pendingXblk : ℤ) :
    XuniState :=
  { st with
    pendingXuni := max 0 pendingXuni
    pendingXnm := max 0 pendingXnm
    pendingXblk := max 0 pendingXblk }

/-- The clock is asked for the mine window and again for the taper minute. -/
def computeAllowXuniBase (cfg : Settings) (minute taperMinute : ℕ) (st : XuniState) :
    XuniState × Bool :=
  if !cfg.xuniMiningEnabled then (st, false)
  else if !inXuniWindow minute then ({ st with xuniQueuePaused := false }, false)
  else
    let soft := max 0 cfg.xuniQueueSoftCap
    let resume := max 0 cfg.xuniQueueResume
    let st :=
      if soft ≤ st.pendingXuni then { st with xuniQueuePaused := true }
      else if st.xuniQueuePaused && decide (st.pendingXuni ≤ resume) then
        { st with xuniQueuePaused := false }
      else st
    if st.xuniQueuePaused then (st, false)
    else if cfg.xuniMaxLanes ≤ 0 then (st, false)
    else
      let st := { st with batchSeq := st.batchSeq + 1 }
      let every := max 1 cfg.xuniEveryNBatches
      let every := if inXuniTaperWindow taperMinute then max (every * 3) 6 else every
      (st, decide ((st.batchSeq : ℤ) % every = 0))

/-- What `load_settings` makes of the limits it has read. -/
def Settings.clampXuni (s : Settings) : Settings :=
  let resume := if s.xuniQueueSoftCap < s.xuniQueueResume then
    max 0 (s.xuniQueueSoftCap.tdiv 2) else s.xuniQueueResume
  let lanes := if s.xuniMaxLanes < 0 then 0 else s.xuniMaxLanes
  { s with
    xuniQueueResume := resume
    xuniEveryNBatches := if s.xuniEveryNBatches < 1 then 1 else s.xuniEveryNBatches
    xuniMaxLanes := if !s.xuniMiningEnabled then 0 else lanes }

structure Settings.XuniLimits (s : Settings) : Prop where
  enabled : s.xuniMiningEnabled = true
  lanes : 0 < s.xuniMaxLanes
  every : 1 ≤ s.xuniEveryNBatches
  resume_nonneg : 0 ≤ s.xuniQueueResume
  resume_le : s.xuniQueueResume ≤ s.xuniQueueSoftCap

theorem Settings.clampXuni_limits {s : Settings} (hen : s.xuniMiningEnabled = true)
    (hlanes : 0 < s.xuniMaxLanes) (hsoft : 0 ≤ s.xuniQueueSoftCap)
    (hresume : 0 ≤ s.xuniQueueResume) : s.clampXuni.XuniLimits := by
  have hhalf : 0 ≤ s.xuniQueueSoftCap.tdiv 2 ∧ s.xuniQueueSoftCap.tdiv 2 ≤ s.xuniQueueSoftCap := by
    rw [Int.tdiv_eq_ediv_of_nonneg hsoft]
    omega
  refine ⟨hen, ?_, ?_, ?_, ?_⟩
  · simp only [clampXuni, hen, Bool.not_true, Bool.false_eq_true, if_false]
    omega
  · dsimp only [clampXuni]
    split_ifs <;> omega
  · dsimp only [clampXuni]
    split_ifs <;> omega
  · dsimp only [clampXuni]
    split_ifs <;> omega

def XuniState.pausedNext (cfg : Settings) (st : XuniState) : Bool :=
  decide (cfg.xuniQueueSoftCap ≤ st.pendingXuni) ||
    (st.xuniQueuePaused && decide (cfg.xuniQueueResume < st.pendingXuni))

theorem computeAllowXuniBase_window {cfg : Settings} (hcfg : cfg.XuniLimits)
    {minute taperMinute : ℕ} (hin : inXuniWindow minute = true)
    (htaper : inXuniTaperWindow taperMinute = false) (st : XuniState) :
    computeAllowXuniBase cfg minute taperMinute st =
      ({ st with
         xuniQueuePaused := st.pausedNext cfg
         batchSeq := if st.pausedNext cfg then st.batchSeq else st.batchSeq + 1 },
       !st.pausedNext cfg && decide (((st.batchSeq + 1 : ℕ) : ℤ) % cfg.xuniEveryNBatches = 0)) := by
  have hsoft : max 0 cfg.xuniQueueSoftCap = cfg.xuniQueueSoftCap :=
    max_eq_right (hcfg.resume_nonneg.trans hcfg.resume_le)
  have hresume : max 0 cfg.xuniQueueResume = cfg.xuniQueueResume := max_eq_right hcfg.resume_nonneg
  have hevery : max 1 cfg.xuniEveryNBatches = cfg.xuniEveryNBatches := max_eq_right hcfg.every
  have hlanes : ¬ cfg.xuniMaxLanes ≤ 0 := by
    have := hcfg.lanes
    omega
  obtain ⟨pending, xnm, xblk, paused, seq⟩ := st
  unfold computeAllowXuniBase XuniState.pausedNext
  rw [if_neg (by simp [hcfg.enabled]), if_neg (by simp [hin]), hsoft, hresume, hevery, htaper]
  dsimp only
  by_cases hfull : cfg.xuniQueueSoftCap ≤ pending
  · simp [hfull]
  · cases paused with
    | false => simp [hfull, hlanes]
    | true =>
      by_cases hlow : pending ≤ cfg.xuniQueueResume
      · simp [hfull, hlow, hlanes, not_lt.mpr hlow]
      · simp [hfull, hlow, not_le.mp hlow]

inductive XuniAct where
  | setQueueCounts (pendingXuni pendingXnm pendingXblk : ℤ)
  | computeAllow (minute taperMinute : ℕ)

structure XuniCall where
  pending : ℤ
  paused : Bool
  allowed : Bool

def xuniRun (cfg : Settings) : XuniState → List XuniAct → XuniState × List XuniCall
  | st, [] => (st, [])
  | st, .setQueueCounts x n b :: acts => xuniRun cfg (st.setQueueCounts x n b) acts
  | st, .computeAllow minute taperMinute :: acts =>
    let (next, allowed) := computeAllowXuniBase cfg minute taperMinute st
    let (last, calls) := xuniRun cfg next acts
    (last, ⟨st.pendingXuni, next.xuniQueuePaused, allowed⟩ :: calls)

/-- The act does not ask the clock, or both times inside the window before the taper minute. -/
def XuniAct.inWindow : XuniAct → Prop
  | .setQueueCounts .. => True
  | .computeAllow minute taperMinute =>
    inXuniWindow minute = true ∧ inXuniTaperWindow taperMinute = false

instance XuniAct.decidableInWindow : DecidablePred XuniAct.inWindow
  | .setQueueCounts .. => isTrue trivial
  | .computeAllow .. => inferInstanceAs (Decidable (_ ∧ _))

section Window
variable {cfg : Settings} {st : XuniState} {acts : List XuniAct}

def XuniState.call (cfg : Settings) (st : XuniState) : XuniCall where
  pending := st.pendingXuni
  paused := st.pausedNext cfg
  allowed := !st.pausedNext cfg &&
    decide (((st.batchSeq + 1 : ℕ) : ℤ) % cfg.xuniEveryNBatches = 0)

def XuniState.afterCall (cfg : Settings) (st : XuniState) : XuniState :=
  { st with
    xuniQueuePaused := st.pausedNext cfg
    batchSeq := if st.pausedNext cfg then st.batchSeq else st.batchSeq + 1 }

inductive XuniCalls (cfg : Settings) : XuniState → List XuniCall → Prop
  | nil {st : XuniState} : XuniCalls cfg st []
  | set {st : XuniState} {calls : List XuniCall} (x n b : ℤ) :
      XuniCalls cfg (st.setQueueCounts x n b) calls → XuniCalls cfg st calls
  | call {st : XuniState} {calls : List XuniCall} :
      XuniCalls cfg (st.afterCall cfg) calls → XuniCalls cfg st (st.call cfg :: calls)

theorem xuniRun_calls (hcfg : cfg.XuniLimits) (hacts : ∀ a ∈ acts, a.inWindow) :
    XuniCalls cfg st (xuniRun cfg st acts).2 := by
  induction acts generalizing st with
  | nil => exact .nil
  | cons a acts ih =>
    have hrest : ∀ a ∈ acts, a.inWindow := fun a ha => hacts a (List.mem_cons_of_mem _ ha)
    cases a with
    | setQueueCounts x n b => exact .set x n b (ih hrest)
    | computeAllow minute taperMinute =>
      obtain ⟨hin, htaper⟩ := hacts _ List.mem_cons_self
      simp only [xuniRun, computeAllowXuniBase_window hcfg hin htaper]
      exact .call (ih hrest)

theorem XuniCalls.split {pre rest : List XuniCall} {c : XuniCall}
    (h : XuniCalls cfg st (pre ++ c :: rest)) :
    ∃ s : XuniState, c = s.call cfg ∧ XuniCalls cfg (s.afterCall cfg) rest := by
  generalize hcalls : pre ++ c :: rest = calls at h
  induction h generalizing pre with
  | nil => simp at hcalls
  | set x n b _ ih => exact ih hcalls
  | call hrest ih =>
    cases pre with
    | nil =>
      obtain ⟨rfl, rfl⟩ := List.cons.inj hcalls
      exact ⟨_, rfl, hrest⟩
    | cons e pre => exact ih (List.cons.inj hcalls).2

theorem XuniState.call_allowed_pending (h : (st.call cfg).allowed = true) :
    (st.call cfg).pending < cfg.xuniQueueSoftCap := by
  simp only [call, pausedNext, Bool.and_eq_true, Bool.not_eq_true', Bool.or_eq_false_iff,
    decide_eq_false_iff_not] at h
  exact not_le.mp h.1.1

/-- While paused, only a call below the cap that has drained to the resume level goes on. -/
theorem XuniCalls.paused_until {calls : List XuniCall} (h : XuniCalls cfg st calls)
    (hpaused : st.xuniQueuePaused = true)
    (hhigh : ∀ e ∈ calls, ¬ (e.pending < cfg.xuniQueueSoftCap ∧ e.pending ≤ cfg.xuniQueueResume)) :
    ∀ e ∈ calls, e.allowed = false := by
  induction h with
  | nil => exact fun _ he => absurd he List.not_mem_nil
  | set x n b _ ih => exact ih hpaused hhigh
  | @call s calls _ ih =>
    have hnext : s.pausedNext cfg = true := by
      have h := hhigh (s.call cfg) List.mem_cons_self
      rw [XuniState.pausedNext, hpaused, Bool.true_and, Bool.or_eq_true, decide_eq_true_iff,
        decide_eq_true_iff]
      by_contra hno
      rw [not_or, not_le, not_lt] at hno
      exact h hno
    intro e he
    rcases List.mem_cons.mp he with rfl | he
    · rw [XuniState.call, hnext]
      rfl
    · exact ih hnext (fun e he => hhigh e (List.mem_cons_of_mem _ he)) e he

/-- Up to the next answer that allows, the counter has gone on by the calls that were not
paused and has met no multiple. -/
theorem XuniCalls.counter {mid post : List XuniCall} {d : XuniCall}
    (h : XuniCalls cfg st (mid ++ d :: post)) (hd : d.allowed = true)
    (hmid : ∀ e ∈ mid, e.allowed = false) :
    ((st.batchSeq + (mid.filter fun e => !e.paused).length + 1 : ℕ) : ℤ)
        % cfg.xuniEveryNBatches = 0 ∧
      ∀ j : ℕ, 0 < j → j ≤ (mid.filter fun e => !e.paused).length →
        ((st.batchSeq + j : ℕ) : ℤ) % cfg.xuniEveryNBatches ≠ 0 := by
  generalize hcalls : mid ++ d :: post = calls at h
  induction h generalizing mid with
  | nil => simp at hcalls
  | set x n b _ ih => exact ih hmid hcalls
  | @call s calls _ ih =>
    cases mid with
    | nil =>
      obtain ⟨rfl, -⟩ := List.cons.inj hcalls
      simp only [XuniState.call, Bool.and_eq_true, decide_eq_true_eq] at hd
      exact ⟨hd.2, fun j hpos hle => absurd hpos (Nat.not_lt.mpr hle)⟩
    | cons e mid =>
      obtain ⟨rfl, hrest⟩ := List.cons.inj hcalls
      obtain ⟨hzero, hmiss⟩ := ih (fun e he => hmid e (List.mem_cons_of_mem _ he)) hrest
      have hno := hmid _ List.mem_cons_self
      cases hp : s.pausedNext cfg with
      | true =>
        -- a paused call leaves the counter as it is
        have hseq : (s.afterCall cfg).batchSeq = s.batchSeq := by simp [XuniState.afterCall, hp]
        have hskip : (s.call cfg).paused = true := hp
        rw [List.filter_cons_of_neg (by simp [hskip])]
        rw [hseq] at hzero hmiss
        exact ⟨hzero, hmiss⟩
      | false =>
        have hseq : (s.afterCall cfg).batchSeq = s.batchSeq + 1 := by
          simp [XuniState.afterCall, hp]
        have hcount : (s.call cfg).paused = false := hp
        have hfirst : ((s.batchSeq + 1 : ℕ) : ℤ) % cfg.xuniEveryNBatches ≠ 0 := by
          simpa [XuniState.call, hp] using hno
        rw [List.filter_cons_of_pos (by simp [hcount]), List.length_cons]
        rw [hseq] at hzero hmiss
        constructor
        · rw [show s.batchSeq + ((mid.filter fun e => !e.paused).length + 1) + 1 =
            s.batchSeq + 1 + (mid.filter fun e => !e.paused).length + 1 by omega]
          exact hzero
        · intro j hpos hle
          rcases Nat.eq_or_lt_of_le hpos with rfl | hlt
          · exact hfirst
          · have h := hmiss (j - 1) (by omega) (by omega)
            rwa [show s.batchSeq + 1 + (j - 1) = s.batchSeq + j by omega] at h

/-- The throttle over a run: below the cap only, paused until the queue has drained to the
resume level, and one in `xuniEveryNBatches` of the calls that are not paused. -/
structure XuniThrottled (cfg : Settings) (calls : List XuniCall) : Prop where
  below_cap : ∀ c ∈ calls, c.allowed = true → c.pending < cfg.xuniQueueSoftCap
  hysteresis : ∀ (pre : List XuniCall) (c : XuniCall) (mid post : List XuniCall),
    calls = pre ++ c :: (mid ++ post) → cfg.xuniQueueSoftCap ≤ c.pending →
    (∀ e ∈ mid, ¬ (e.pending < cfg.xuniQueueSoftCap ∧ e.pending ≤ cfg.xuniQueueResume)) →
    ∀ e ∈ c :: mid, e.allowed = false
  one_in_n : ∀ (pre : List XuniCall) (c : XuniCall) (mid : List XuniCall) (d : XuniCall)
      (post : List XuniCall), calls = pre ++ c :: (mid ++ d :: post) →
    c.allowed = true → d.allowed = true → (∀ e ∈ mid, e.allowed = false) →
    ((mid.filter fun e => !e.paused).length : ℤ) = cfg.xuniEveryNBatches - 1

theorem XuniCalls.take {calls more : List XuniCall} (h : XuniCalls cfg st (calls ++ more)) :
    XuniCalls cfg st calls := by
  generalize hcalls : calls ++ more = all at h
  induction h generalizing calls with
  | nil =>
    rw [(List.append_eq_nil_iff.mp hcalls).1]
    exact .nil
  | set x n b _ ih => exact .set x n b (ih hcalls)
  | call _ ih =>
    cases calls with
    | nil => exact .nil
    | cons e calls =>
      obtain ⟨rfl, hrest⟩ := List.cons.inj hcalls
      exact .call (ih hrest)

theorem XuniCalls.below_cap {calls : List XuniCall} (h : XuniCalls cfg st calls) :
    ∀ c ∈ calls, c.allowed = true → c.pending < cfg.xuniQueueSoftCap := by
  intro c hc hallowed
  obtain ⟨pre, rest, rfl⟩ := List.append_of_mem hc
  obtain ⟨s, rfl, -⟩ := h.split
  exact XuniState.call_allowed_pending hallowed

theorem XuniCalls.hysteresis {pre mid post : List XuniCall} {c : XuniCall}
    (h : XuniCalls cfg st (pre ++ c :: (mid ++ post))) (hfull : cfg.xuniQueueSoftCap ≤ c.pending)
    (hhigh : ∀ e ∈ mid, ¬ (e.pending < cfg.xuniQueueSoftCap ∧ e.pending ≤ cfg.xuniQueueResume)) :
    ∀ e ∈ c :: mid, e.allowed = false := by
  obtain ⟨s, rfl, hrest⟩ := h.split
  have hfull' : cfg.xuniQueueSoftCap ≤ s.pendingXuni := hfull
  have hnext : s.pausedNext cfg = true := by simp [XuniState.pausedNext, hfull']
  intro e he
  rcases List.mem_cons.mp he with rfl | he
  · rw [XuniState.call, hnext]
    rfl
  · exact hrest.take.paused_until hnext hhigh e he

theorem XuniCalls.one_in_n (hevery : 1 ≤ cfg.xuniEveryNBatches) {pre mid post : List XuniCall}
    {c d : XuniCall} (h : XuniCalls cfg st (pre ++ c :: (mid ++ d :: post)))
    (hc : c.allowed = true) (hd : d.allowed = true) (hmid : ∀ e ∈ mid, e.allowed = false) :
    ((mid.filter fun e => !e.paused).length : ℤ) = cfg.xuniEveryNBatches - 1 := by
  obtain ⟨s, rfl, hrest⟩ := h.split
  obtain ⟨hzero, hmiss⟩ := hrest.counter hd hmid
  simp only [XuniState.call, Bool.and_eq_true, Bool.not_eq_true', decide_eq_true_eq] at hc
  have hseq : (s.afterCall cfg).batchSeq = s.batchSeq + 1 := by simp [XuniState.afterCall, hc.1]
  rw [hseq] at hzero hmiss
  generalize (mid.filter fun e => !e.paused).length = n at hzero hmiss ⊢
  have hstart : cfg.xuniEveryNBatches ∣ ((s.batchSeq + 1 : ℕ) : ℤ) := Int.dvd_of_emod_eq_zero hc.2
  have hle : cfg.xuniEveryNBatches ≤ n + 1 := by
    have hend := Int.dvd_of_emod_eq_zero hzero
    rw [Nat.add_assoc, Nat.cast_add, Int.dvd_add_right hstart] at hend
    exact_mod_cast Int.le_of_dvd (by omega) hend
  have hlt : (n : ℤ) < cfg.xuniEveryNBatches := by
    by_contra hge
    -- one whole round after the first answer the counter meets a multiple
    obtain ⟨k, hk⟩ := Int.eq_ofNat_of_zero_le (show 0 ≤ cfg.xuniEveryNBatches by omega)
    refine hmiss k (by omega) (by omega) ?_
    rw [Nat.cast_add, ← hk]
    exact Int.emod_eq_zero_of_dvd (Int.dvd_add hstart (dvd_refl _))
  omega

/-- Inside one window, before the taper minute, every run of queue counts and calls is throttled. -/
theorem xuni_throttled (cfg : Settings) (hcfg : cfg.XuniLimits) (st : XuniState)
    (acts : List XuniAct) (hacts : ∀ a ∈ acts, a.inWindow) :
    XuniThrottled cfg (xuniRun cfg st acts).2 := by
  have hcalls : XuniCalls cfg st (xuniRun cfg st acts).2 := xuniRun_calls hcfg hacts
  refine ⟨hcalls.below_cap, ?_, ?_⟩
  · intro pre c mid post heq hfull hhigh
    rw [heq] at hcalls
    exact hcalls.hysteresis hfull hhigh
  · intro pre c mid d post heq hc hd hmid
    rw [heq] at hcalls
    exact hcalls.one_in_n hcfg.every hc hd hmid

end Window

def fillAndDrain : List XuniAct :=
  [.setQueueCounts 10 0 0, .computeAllow 57 57, .computeAllow 57 57, .computeAllow 57 57,
   .setQueueCounts 100 0 0, .computeAllow 58 58, .setQueueCounts 60 0 0, .computeAllow 58 58,
   .setQueueCounts 40 0 0, .computeAllow 58 58, .computeAllow 59 59, .computeAllow 59 59]

theorem xuni_throttled_run : XuniThrottled {} (xuniRun {} {} fillAndDrain).2 ∧
    (xuniRun {} {} fillAndDrain).2.map (·.allowed) =
      [false, false, true, false, false, false, false, true] := by
  have hlimits : ({} : Settings).XuniLimits := ⟨rfl, by decide, by decide, by decide, by decide⟩
  exact ⟨xuni_throttled {} hlimits {} fillAndDrain (by decide), by decide⟩

end XnMiner
