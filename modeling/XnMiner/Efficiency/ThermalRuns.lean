import XnMiner.Efficiency.ThermalPolicy
import Mathlib.Data.List.Induction

/-! # Runs of the thermal hunt

Whatever is measured, a call leaves the batch or moves it one step, after the settle window
and above the floor. A hot reading inside the window raises the floor to the batch, which
takes the room for the cut that falls due when the window ends.
-/
namespace XnMiner

variable {p q : HuntParams} {st t : ThermalHuntState} {x y : HuntReading}

inductive HuntStep (q : HuntParams) (now : ℚ) (st t : ThermalHuntState) : HuntAction → Prop where
  | starts (hfirst : st.lastAdjustS ≤ 0) (hbatch : t.batch = st.batch) (hfloor : st.floor ≤ t.floor)
      (htime : t.lastAdjustS = now) : HuntStep q now st t .hold
  | stays (hlater : 0 < st.lastAdjustS) (hbatch : t.batch = st.batch) (hfloor : st.floor ≤ t.floor)
      (htime : t.lastAdjustS = st.lastAdjustS) : HuntStep q now st t .hold
  | raises (hlater : 0 < st.lastAdjustS) (hsettled : q.cutSettleS ≤ now - st.lastAdjustS)
      (hfloor : st.floor ≤ t.floor) (htime : t.lastAdjustS = now) (hup : st.batch < t.batch)
      (hstep : t.batch ≤ st.batch + q.step) : HuntStep q now st t .raise
  | cuts (hlater : 0 < st.lastAdjustS) (hsettled : q.cutSettleS ≤ now - st.lastAdjustS)
      (hfloor : st.floor ≤ t.floor) (htime : t.lastAdjustS = now) (hdown : t.batch < st.batch)
      (habove : st.floor < t.batch) : HuntStep q now st t .cut

/-- The temperature that is kept for the next call makes no difference. -/
theorem HuntStep.recorded {now : ℚ} {action : HuntAction} (h : HuntStep q now st t action)
    (temp : ℤ) : HuntStep q now st { t with lastTempC := temp } action := by
  cases h with
  | starts hfirst hbatch hfloor htime => exact .starts hfirst hbatch hfloor htime
  | stays hlater hbatch hfloor htime => exact .stays hlater hbatch hfloor htime
  | raises hlater hsettled hfloor htime hup hstep =>
    exact .raises hlater hsettled hfloor htime hup hstep
  | cuts hlater hsettled hfloor htime hdown habove =>
    exact .cuts hlater hsettled hfloor htime hdown habove

theorem HuntParams.normalized_step (p : HuntParams) : 1 ≤ p.normalized.step := by
  unfold HuntParams.normalized
  dsimp only
  split_ifs <;> omega

theorem HuntParams.normalized_cap (p : HuntParams) : p.normalized.targetC < p.normalized.capC := by
  unfold HuntParams.normalized
  dsimp only
  split_ifs <;> omega

/-- The closure `apply` moves the batch when the window is over and leaves it otherwise. -/
theorem ThermalHuntState.apply_cases (st : ThermalHuntState) (p : HuntParams) (now : ℚ) (next : ℤ)
    (action : HuntAction) (hp : p.minBatch ≤ p.plannedBatch) :
    st.apply p now next action = (st, .hold) ∨
      ∃ batch, p.cutSettleS ≤ now - st.lastAdjustS ∧ batch ≠ st.batch ∧
        batch = max p.minBatch (min p.plannedBatch next) ∧
        st.apply p now next action = ({ st with batch, lastAdjustS := now }, action) := by
  have hclamp : (if (if p.plannedBatch < next then p.plannedBatch else next) < p.minBatch then
      p.minBatch else if p.plannedBatch < next then p.plannedBatch else next) =
      max p.minBatch (min p.plannedBatch next) := by
    split_ifs <;> omega
  unfold ThermalHuntState.apply
  dsimp only
  rw [hclamp]
  split_ifs with hwindow hsame
  · exact .inl rfl
  · exact .inl rfl
  · exact .inr ⟨_, not_lt.mp hwindow, hsame, rfl, rfl⟩

theorem ThermalHuntState.drop_range (hq : 1 ≤ q.step) (hmin : q.minBatch ≤ st.floor)
    (hdrop : st.drop q ≠ st.batch) : st.floor < st.drop q ∧ st.drop q < st.batch := by
  -- the first two steps of the computation do not matter to the range
  obtain ⟨d, hd⟩ : ∃ d, st.drop q =
      let drop := if d ≤ st.floor then st.floor + q.step else d
      let drop := if drop < q.minBatch then q.minBatch else drop
      if st.batch < drop then st.batch else drop := ⟨_, rfl⟩
  rw [hd] at hdrop ⊢
  have habove : st.floor < if d ≤ st.floor then st.floor + q.step else d := by
    split_ifs <;> omega
  dsimp only at hdrop ⊢
  generalize (if d ≤ st.floor then st.floor + q.step else d) = d at habove hdrop ⊢
  rw [if_neg (hmin.trans habove.le).not_gt] at hdrop ⊢
  split_ifs at hdrop ⊢ with hbatch
  · exact absurd rfl hdrop
  · exact ⟨habove, lt_of_le_of_ne (not_lt.mp hbatch) hdrop⟩

theorem ThermalHuntState.observed_floor (hst : 1 ≤ q.minBatch ∧ q.minBatch ≤ st.batch) (temp : ℤ) :
    q.minBatch ≤ (st.observed q temp).floor ∧ st.floor ≤ (st.observed q temp).floor := by
  unfold ThermalHuntState.observed ThermalHuntState.marked
  dsimp only
  split_ifs <;> omega

/-- The reaction to a reading after the first one. -/
theorem ThermalHuntState.react_step (hq : 1 ≤ q.step)
    (hrange : 1 ≤ q.minBatch ∧ q.minBatch ≤ q.plannedBatch) (hst : q.holds st)
    (hlater : 0 < st.lastAdjustS) (temp : ℤ) (now : ℚ) :
    HuntStep q now st ((st.observed q temp).react q temp now).1
      ((st.observed q temp).react q temp now).2 := by
  obtain ⟨hmin, hmax⟩ := hst
  obtain ⟨hleast, hgrows⟩ := ThermalHuntState.observed_floor ⟨hrange.1, hmin⟩ temp
  unfold ThermalHuntState.react
  split_ifs with hcool hhot
  · set cooled : ThermalHuntState := { st.observed q temp with
      lastOk := (st.observed q temp).batch
      consecutiveCool := (st.observed q temp).consecutiveCool + 1 } with hcooled
    have hbatch : cooled.batch = st.batch := rfl
    rcases cooled.apply_cases q now (st.batch + q.step) .raise hrange.2 with
      hkept | ⟨batch, hsettled, hmoved, hnext, happly⟩
    · exact hkept ▸ .stays hlater rfl hgrows rfl
    · refine happly ▸ .raises hlater hsettled hgrows rfl ?_ ?_ <;> dsimp only <;> omega
  · set warm : ThermalHuntState := { st.observed q temp with consecutiveCool := 0 }
    have hbatch : warm.batch = st.batch := rfl
    have hfloor : warm.floor = (st.observed q temp).floor := rfl
    unfold ThermalHuntState.cut
    split_ifs with hdrop
    · exact .stays hlater rfl hgrows rfl
    · obtain ⟨habove, hdown⟩ := ThermalHuntState.drop_range hq (hleast.trans_eq hfloor.symm) hdrop
      rcases warm.apply_cases q now (warm.drop q) .cut hrange.2 with
        hkept | ⟨batch, hsettled, hmoved, hnext, happly⟩
      · rw [hkept]
        refine .stays hlater rfl ?_ rfl
        dsimp only
        split_ifs <;> omega
      · rw [happly]
        have hfloor' : st.floor ≤ if warm.floor < batch then batch else warm.floor := by
          split_ifs <;> omega
        have hdown' : batch < st.batch := by omega
        have habove' : st.floor < batch := by omega
        exact .cuts hlater hsettled hfloor' rfl hdown' habove'
  · exact .stays hlater rfl hgrows rfl

/-- A batch out of range is brought into it first. -/
def HuntParams.inRange (q : HuntParams) (st : ThermalHuntState) : ThermalHuntState :=
  { st with batch := q.intoRange st.batch }

theorem huntThermalScale_step (st : ThermalHuntState) (p : HuntParams) (x : HuntReading) :
    HuntStep p.normalized x.nowS (p.normalized.inRange st) (huntThermalScale st p x).1
      (huntThermalScale st p x).2.action := by
  have hrange := p.normalized_range
  have hst : p.normalized.holds (p.normalized.inRange st) :=
    HuntParams.intoRange_range hrange.2 st.batch
  unfold huntThermalScale
  dsimp only
  split_ifs with hfirst
  · refine .starts hfirst rfl ?_ rfl
    have hbatch := hst.1
    simp only [ThermalHuntState.marked, HuntParams.inRange] at hbatch ⊢
    split_ifs <;> omega
  · have hreact := ThermalHuntState.react_step p.normalized_step hrange hst (not_le.mp hfirst)
      ((p.normalized.inRange st).filtered p.normalized (p.normalized.control x).1) x.nowS
    exact hreact.recorded _

theorem HuntParams.inRange_eq (hst : q.holds st) (hq : 1 ≤ q.minBatch) : q.inRange st = st := by
  obtain ⟨hmin, hmax⟩ := hst
  have hbatch : q.intoRange st.batch = st.batch := by
    unfold HuntParams.intoRange
    dsimp only
    split_ifs <;> omega
  rw [HuntParams.inRange, hbatch]

structure HuntCall where
  params : HuntParams
  reading : HuntReading

def ThermalHuntState.called (st : ThermalHuntState) (c : HuntCall) : ThermalHuntState :=
  (huntThermalScale st c.params c.reading).1

def huntRun (st : ThermalHuntState) (calls : List HuntCall) : ThermalHuntState :=
  calls.foldl ThermalHuntState.called st

def changeTimes (st : ThermalHuntState) (calls : List HuntCall) : List ℚ :=
  match calls with
  | [] => []
  | c :: rest =>
    if (st.called c).batch ≠ st.batch then c.reading.nowS :: changeTimes (st.called c) rest
    else changeTimes (st.called c) rest

theorem huntRun_append (st : ThermalHuntState) (calls : List HuntCall) (c : HuntCall) :
    huntRun st (calls ++ [c]) = (huntRun st calls).called c := by
  rw [huntRun, List.foldl_append]
  rfl

theorem changeTimes_append (st : ThermalHuntState) (calls : List HuntCall) (c : HuntCall) :
    changeTimes st (calls ++ [c]) = changeTimes st calls ++
      if ((huntRun st calls).called c).batch ≠ (huntRun st calls).batch then [c.reading.nowS]
      else [] := by
  induction calls generalizing st with
  | nil => rfl
  | cons d rest ih =>
    have hrun : huntRun st (d :: rest) = huntRun (st.called d) rest := rfl
    rw [List.cons_append, changeTimes, changeTimes, hrun, ih]
    split_ifs <;> simp

/-- The plan, the step and the minimum of a run; sensors, target and settle times may change. -/
structure HuntBounds where
  planned : ℤ
  step : ℤ
  minBatch : ℤ
  planned_pos : 1 ≤ planned
  step_pos : 1 ≤ step

def HuntBounds.minimum (k : HuntBounds) : ℤ := min k.planned (max k.step k.minBatch)

def HuntBounds.holds (k : HuntBounds) (st : ThermalHuntState) : Prop :=
  k.minimum ≤ st.batch ∧ st.batch ≤ k.planned

structure HuntBounds.admits (k : HuntBounds) (c : HuntCall) : Prop where
  planned : c.params.plannedBatch = k.planned
  step : c.params.step = k.step
  minBatch : c.params.minBatch = k.minBatch
  time : 0 < c.reading.nowS

variable {k : HuntBounds} {c : HuntCall} {calls : List HuntCall}

theorem HuntBounds.admits.normalized (h : k.admits c) :
    c.params.normalized.plannedBatch = k.planned ∧ c.params.normalized.step = k.step ∧
      c.params.normalized.minBatch = k.minimum := by
  have hplanned := k.planned_pos
  have hstep := k.step_pos
  simp only [HuntParams.normalized, h.planned, h.step, h.minBatch, HuntBounds.minimum]
  split_ifs <;> omega

theorem HuntBounds.admits.range (h : k.admits c) (hst : k.holds st) :
    c.params.normalized.holds st ∧ 1 ≤ c.params.normalized.minBatch := by
  obtain ⟨hplanned, -, hminimum⟩ := h.normalized
  rw [HuntParams.holds, hplanned, hminimum]
  refine ⟨hst, ?_⟩
  have hpositive := k.planned_pos
  have hstep := k.step_pos
  unfold HuntBounds.minimum
  omega

theorem HuntBounds.admits.step_of (h : k.admits c) (hst : k.holds st) :
    HuntStep c.params.normalized c.reading.nowS st (st.called c)
      (huntThermalScale st c.params c.reading).2.action := by
  obtain ⟨hrange, hleast⟩ := h.range hst
  have hcall := huntThermalScale_step st c.params c.reading
  rwa [HuntParams.inRange_eq hrange hleast] at hcall

theorem HuntBounds.admits.holds_called (h : k.admits c) (st : ThermalHuntState) :
    k.holds (st.called c) := by
  obtain ⟨hplanned, -, hminimum⟩ := h.normalized
  have hrange := (huntThermalScale_range st c.params c.reading).1
  rwa [HuntParams.holds, hplanned, hminimum] at hrange

structure HuntRunInv (k : HuntBounds) (st : ThermalHuntState) (calls : List HuntCall) : Prop where
  range : k.holds (huntRun st calls)
  began : 0 < st.lastAdjustS →
    0 < (huntRun st calls).lastAdjustS ∧ st.lastAdjustS ≤ (huntRun st calls).lastAdjustS
  changed : ∀ τ ∈ changeTimes st calls,
    0 < (huntRun st calls).lastAdjustS ∧ τ ≤ (huntRun st calls).lastAdjustS

/-- The time of the last adjustment only grows once it is set. -/
theorem HuntStep.time_le {now τ : ℚ} {action : HuntAction} (h : HuntStep q now st t action)
    (hsettle : 5 ≤ q.cutSettleS) (hnow : 0 < now) (hτ : 0 < st.lastAdjustS ∧ τ ≤ st.lastAdjustS) :
    0 < t.lastAdjustS ∧ τ ≤ t.lastAdjustS := by
  obtain ⟨hlater, hle⟩ := hτ
  cases h with
  | starts hfirst => exact absurd hfirst (not_le.mpr hlater)
  | stays _ _ _ htime => exact htime ▸ ⟨hlater, hle⟩
  | raises _ hsettled _ htime | cuts _ hsettled _ htime =>
    rw [htime]
    exact ⟨hnow, by linarith⟩

theorem HuntStep.changed {now : ℚ} {action : HuntAction} (h : HuntStep q now st t action)
    (hmoved : t.batch ≠ st.batch) : (action = .raise ∨ action = .cut) ∧
      q.cutSettleS ≤ now - st.lastAdjustS ∧ t.lastAdjustS = now := by
  cases h with
  | starts _ hbatch | stays _ hbatch => exact absurd hbatch hmoved
  | raises _ hsettled _ htime => exact ⟨.inl rfl, hsettled, htime⟩
  | cuts _ hsettled _ htime => exact ⟨.inr rfl, hsettled, htime⟩

theorem HuntStep.raised {now : ℚ} (h : HuntStep q now st t .raise) :
    st.batch < t.batch ∧ t.batch ≤ st.batch + q.step := by
  cases h with
  | raises _ _ _ _ hup hstep => exact ⟨hup, hstep⟩

theorem HuntStep.lowered {now : ℚ} (h : HuntStep q now st t .cut) :
    t.batch < st.batch ∧ st.floor < t.batch := by
  cases h with
  | cuts _ _ _ _ hdown habove => exact ⟨hdown, habove⟩

theorem HuntStep.later {now : ℚ} (h : HuntStep q now st t .cut) : 0 < st.lastAdjustS := by
  cases h with
  | cuts hlater => exact hlater

theorem HuntStep.floor_le {now : ℚ} {action : HuntAction} (h : HuntStep q now st t action) :
    st.floor ≤ t.floor := by
  cases h with
  | starts _ _ hfloor | stays _ _ hfloor | raises _ _ hfloor | cuts _ _ hfloor => exact hfloor

theorem HuntRunInv.next (hi : HuntRunInv k st calls) (h : k.admits c) :
    HuntRunInv k st (calls ++ [c]) := by
  have hstep := h.step_of hi.range
  have hsettle : (5 : ℚ) ≤ c.params.normalized.cutSettleS := le_max_left _ _
  refine ⟨?_, ?_, ?_⟩
  · rw [huntRun_append]
    exact h.holds_called _
  · rw [huntRun_append]
    intro hpositive
    exact hstep.time_le hsettle h.time (hi.began hpositive)
  · rw [huntRun_append, changeTimes_append]
    intro τ hτ
    rcases List.mem_append.mp hτ with hold | hnew
    · exact hstep.time_le hsettle h.time (hi.changed τ hold)
    · split_ifs at hnew with hmoved
      · obtain rfl := List.mem_singleton.mp hnew
        rw [(hstep.changed hmoved).2.2]
        exact ⟨h.time, le_rfl⟩
      · cases hnew

theorem huntRunInv (hst : k.holds st) (hcalls : ∀ d ∈ calls, k.admits d) :
    HuntRunInv k st calls := by
  induction calls using List.reverseRecOn with
  | nil => exact ⟨hst, fun h => ⟨h, le_rfl⟩, by simp [changeTimes]⟩
  | append_singleton calls d ih =>
    simp only [List.mem_append, List.mem_singleton] at hcalls
    exact (ih fun e he => hcalls e (.inl he)).next (hcalls d (.inr rfl))

/-- In every run the batch stays in range and moves only by a reported step after the settle
window, up by at most a step or down to above the floor, which never sinks. -/
theorem hunt_run_safe (k : HuntBounds) (st : ThermalHuntState) (hst : k.holds st)
    (calls : List HuntCall) (c : HuntCall) (hcalls : ∀ d ∈ calls ++ [c], k.admits d) :
    let s := huntRun st calls
    let t := s.called c
    let action := (huntThermalScale s c.params c.reading).2.action
    k.holds t ∧
      (t.batch ≠ s.batch → (action = .raise ∨ action = .cut) ∧
        (∀ τ ∈ changeTimes st calls, max 5 c.params.cutSettleS ≤ c.reading.nowS - τ) ∧
        (0 < st.lastAdjustS → max 5 c.params.cutSettleS ≤ c.reading.nowS - st.lastAdjustS)) ∧
      (action = .raise → s.batch < t.batch ∧ t.batch ≤ s.batch + k.step) ∧
      (action = .cut → t.batch < s.batch ∧ s.floor < t.batch) ∧
      s.floor ≤ t.floor := by
  have hc : k.admits c := hcalls c (by simp)
  have hi : HuntRunInv k st calls := huntRunInv hst fun d hd => hcalls d (List.mem_append_left _ hd)
  have hstep := hc.step_of hi.range
  refine ⟨hc.holds_called _, fun hmoved => ?_, fun hraise => ?_, fun hcut => ?_, hstep.floor_le⟩
  · obtain ⟨haction, hsettled, -⟩ := hstep.changed hmoved
    have hsettled' : max 5 c.params.cutSettleS ≤
        c.reading.nowS - (huntRun st calls).lastAdjustS := hsettled
    refine ⟨haction, fun τ hτ => ?_, fun hpositive => ?_⟩
    · linarith [(hi.changed τ hτ).2]
    · linarith [(hi.began hpositive).2]
  · rw [hraise] at hstep
    rw [← hc.normalized.2.1]
    exact hstep.raised
  · rw [hcut] at hstep
    exact hstep.lowered

/-- A raise after the settle window and a cut a window later. -/
theorem hunt_run_safe_cut :
    let p : HuntParams :=
      { useMem := true, targetC := 80, capC := 84, gpuCapC := 0, plannedBatch := 10, step := 2
        minBatch := 2 }
    let st : ThermalHuntState :=
      { batch := 6, lastAdjustS := 1, lastTempC := 75, floor := 2, lastOk := 6 }
    let s := huntRun st [⟨p, ⟨0, 75, 61⟩⟩]
    let t := s.called ⟨p, ⟨0, 85, 121⟩⟩
    t.batch < s.batch ∧ s.floor < t.batch := by
  intro p st s t
  have hcalls : ∀ d ∈ [(⟨p, ⟨0, 75, 61⟩⟩ : HuntCall)] ++ [⟨p, ⟨0, 85, 121⟩⟩],
      (⟨10, 2, 2, by decide, by decide⟩ : HuntBounds).admits d := by
    intro d hd
    simp only [List.cons_append, List.nil_append, List.mem_cons, List.not_mem_nil, or_false] at hd
    rcases hd with rfl | rfl <;> exact ⟨rfl, rfl, rfl, by norm_num⟩
  have hsafe := hunt_run_safe ⟨10, 2, 2, by decide, by decide⟩ st
    ⟨by decide +kernel, by decide +kernel⟩ _ _ hcalls
  exact hsafe.2.2.2.1 (by decide +kernel)

def ThermalHuntState.hot (st : ThermalHuntState) (p : HuntParams) (x : HuntReading) : Prop :=
  p.normalized.capC ≤ st.filtered p.normalized (p.normalized.control x).1

def ThermalHuntState.staysHot (st : ThermalHuntState) (p : HuntParams) : List HuntReading → Prop
  | [] => True
  | x :: xs => st.hot p x ∧ (st.called ⟨p, x⟩).staysHot p xs

/-- Moving the batch reports the action asked for, or `hold`. -/
theorem ThermalHuntState.apply_ne (st : ThermalHuntState) (p : HuntParams) (now : ℚ) (next : ℤ)
    (action : HuntAction) {other : HuntAction} (hhold : .hold ≠ other) (haction : action ≠ other) :
    (st.apply p now next action).2 ≠ other := by
  unfold ThermalHuntState.apply
  dsimp only
  split_ifs <;> assumption

/-- A cut that is asked for inside the window leaves the batch and lifts the floor to it. -/
theorem ThermalHuntState.cut_window {now : ℚ} (hwindow : now - st.lastAdjustS < q.cutSettleS)
    (hdrop : st.drop q ≠ st.batch) :
    (st.cut q now).1.batch = st.batch ∧ st.batch ≤ (st.cut q now).1.floor := by
  have hkept : st.apply q now (st.drop q) .cut = (st, .hold) := if_pos hwindow
  unfold ThermalHuntState.cut
  rw [if_neg hdrop, hkept]
  refine ⟨rfl, ?_⟩
  dsimp only
  split_ifs <;> omega

/-- The state that a reading which is not cool leaves to the cut. -/
def ThermalHuntState.warm (st : ThermalHuntState) (q : HuntParams) (temp : ℤ) :
    ThermalHuntState := { st.observed q temp with consecutiveCool := 0 }

/-- Only a reading that asks for another batch cuts, and every other temperature asks for the
same. -/
theorem ThermalHuntState.react_cut {temp : ℤ} {now : ℚ}
    (hcut : ((st.observed q temp).react q temp now).2 = .cut) (other : ℤ) :
    (st.warm q other).drop q ≠ st.batch := by
  unfold ThermalHuntState.react at hcut
  split_ifs at hcut with hcool hhot
  · exact absurd hcut (ThermalHuntState.apply_ne _ q now _ .raise nofun nofun)
  · unfold ThermalHuntState.cut at hcut
    split_ifs at hcut with hdrop
    exact hdrop

theorem ThermalHuntState.react_hot {temp : ℤ} (hcap : q.targetC < q.capC) (hhot : q.capC ≤ temp)
    (now : ℚ) : (st.observed q temp).react q temp now = (st.warm q temp).cut q now := by
  unfold ThermalHuntState.react
  rw [if_neg (by omega), if_pos (.inl hhot)]
  rfl

theorem huntThermalScale_later (hlater : 0 < st.lastAdjustS) (p : HuntParams) (x : HuntReading) :
    let s := p.normalized.inRange st
    let temp := st.filtered p.normalized (p.normalized.control x).1
    let reaction := (s.observed p.normalized temp).react p.normalized temp x.nowS
    (huntThermalScale st p x).1 = { reaction.1 with lastTempC := temp } ∧
      (huntThermalScale st p x).2.action = reaction.2 := by
  unfold huntThermalScale
  dsimp only
  rw [if_neg (not_le.mpr hlater)]
  exact ⟨rfl, rfl⟩

/-- A hot reading before the cut is due lifts the floor to the batch. -/
theorem hot_before_due (hlater : 0 < st.lastAdjustS)
    (hwindow : x.nowS - st.lastAdjustS < p.normalized.cutSettleS)
    (hhot : st.hot p x) (hcut : (huntThermalScale st p y).2.action = .cut) :
    (st.called ⟨p, x⟩).batch ≤ (st.called ⟨p, x⟩).floor := by
  set temp := st.filtered p.normalized (p.normalized.control x).1 with htemp
  have hdrop : ((p.normalized.inRange st).warm p.normalized temp).drop p.normalized ≠
      (p.normalized.inRange st).batch := by
    rw [(huntThermalScale_later hlater p y).2] at hcut
    exact ThermalHuntState.react_cut hcut temp
  have hin : x.nowS - ((p.normalized.inRange st).warm p.normalized temp).lastAdjustS <
      p.normalized.cutSettleS := hwindow
  obtain ⟨hbatch, hfloor⟩ := ThermalHuntState.cut_window hin hdrop
  have hcalled : st.called ⟨p, x⟩ = { (((p.normalized.inRange st).warm p.normalized temp).cut
      p.normalized x.nowS).1 with lastTempC := temp } := by
    rw [← ThermalHuntState.react_hot p.normalized_cap hhot]
    exact (huntThermalScale_later hlater p x).1
  rw [hcalled]
  exact hbatch.trans_le hfloor

/-- Inside the window no call moves the batch or lowers the floor. -/
theorem called_in_window (hlater : 0 < st.lastAdjustS)
    (hwindow : x.nowS - st.lastAdjustS < p.normalized.cutSettleS) :
    (st.called ⟨p, x⟩).batch = (p.normalized.inRange st).batch ∧
      st.floor ≤ (st.called ⟨p, x⟩).floor ∧
      (st.called ⟨p, x⟩).lastAdjustS = st.lastAdjustS := by
  have hcall := huntThermalScale_step st p x
  generalize (huntThermalScale st p x).2.action = action at hcall
  cases hcall with
  | starts hfirst => exact absurd hlater (not_lt.mpr hfirst)
  | stays _ hbatch hfloor htime => exact ⟨hbatch, hfloor, htime⟩
  | raises _ hsettled | cuts _ hsettled => exact absurd hwindow (not_lt.mpr hsettled)

theorem floor_stays_up {xs : List HuntReading} (hlater : 0 < st.lastAdjustS)
    (hst : p.normalized.holds st) (hfloor : st.batch ≤ st.floor)
    (hwindow : ∀ x ∈ xs, x.nowS - st.lastAdjustS < p.normalized.cutSettleS) :
    (huntRun st (xs.map (HuntCall.mk p))).batch ≤ (huntRun st (xs.map (HuntCall.mk p))).floor ∧
      p.normalized.holds (huntRun st (xs.map (HuntCall.mk p))) := by
  induction xs generalizing st with
  | nil => exact ⟨hfloor, hst⟩
  | cons x xs ih =>
    obtain ⟨hbatch, hrises, htime⟩ := called_in_window hlater (hwindow x (by simp))
    rw [HuntParams.inRange_eq hst p.normalized_range.1] at hbatch
    have hrun : huntRun st ((x :: xs).map (HuntCall.mk p)) =
        huntRun (st.called ⟨p, x⟩) (xs.map (HuntCall.mk p)) := rfl
    rw [hrun]
    apply ih
    · exact htime ▸ hlater
    · exact (huntThermalScale_range st p x).1
    · omega
    · intro z hz
      rw [htime]
      exact hwindow z (List.mem_cons_of_mem x hz)

/-- A cut that a reading asks for is still made after hot readings inside the settle window if
and only if there are none. -/
theorem due_cut_kept_iff (p : HuntParams) (st : ThermalHuntState) (xs : List HuntReading)
    (y : HuntReading) (hbatch : 0 < st.batch)
    (hwindow : ∀ x ∈ xs, x.nowS - st.lastAdjustS < p.normalized.cutSettleS)
    (hhot : st.staysHot p xs) (hcut : (huntThermalScale st p y).2.action = .cut) :
    let s := huntRun st (xs.map (HuntCall.mk p))
    ((huntThermalScale s p y).2.action = .cut ∧ (huntThermalScale s p y).1.batch < s.batch) ↔
      xs = [] := by
  intro s
  have hdirect := huntThermalScale_step st p y
  rw [hcut] at hdirect
  constructor
  · rintro ⟨hstill, hdown⟩
    cases xs with
    | nil => rfl
    | cons x xs =>
      have hlater : 0 < st.lastAdjustS := hdirect.later
      have hin := hwindow x (by simp)
      obtain ⟨-, -, htime⟩ := called_in_window hlater hin
      have hrun : s = huntRun (st.called ⟨p, x⟩) (xs.map (HuntCall.mk p)) := rfl
      obtain ⟨hfloor, hrange⟩ : s.batch ≤ s.floor ∧ p.normalized.holds s := by
        rw [hrun]
        apply floor_stays_up
        · exact htime ▸ hlater
        · exact (huntThermalScale_range st p x).1
        · exact hot_before_due hlater hin hhot.1 hcut
        · intro z hz
          rw [htime]
          exact hwindow z (List.mem_cons_of_mem x hz)
      have hlast := huntThermalScale_step s p y
      rw [hstill, HuntParams.inRange_eq hrange p.normalized_range.1] at hlast
      obtain ⟨hdown, habove⟩ := hlast.lowered
      omega
  · rintro rfl
    have hs : s = st := rfl
    have hlow := hdirect.lowered.1
    have hleast := (huntThermalScale_range st p y).1.1
    rw [hs]
    refine ⟨hcut, hlow.trans_le ?_⟩
    simp only [HuntParams.inRange, HuntParams.intoRange] at hlow ⊢
    split_ifs at hlow ⊢ <;> omega

def cruising : HuntParams × ThermalHuntState :=
  ({ useMem := true, targetC := 80, capC := 84, gpuCapC := 0, plannedBatch := 10, step := 2
     minBatch := 2 },
   { batch := 8, lastAdjustS := 1, lastTempC := 80, floor := 2, lastOk := 6 })

theorem due_cut_kept_after :
    let s := huntRun cruising.2 ([⟨0, 85, 31⟩].map (HuntCall.mk cruising.1))
    ¬((huntThermalScale s cruising.1 ⟨0, 86, 61⟩).2.action = .cut ∧
      (huntThermalScale s cruising.1 ⟨0, 86, 61⟩).1.batch < s.batch) := by
  intro s hkept
  have hnone := (due_cut_kept_iff cruising.1 cruising.2 [⟨0, 85, 31⟩] ⟨0, 86, 61⟩ (by decide)
    (by decide +kernel) ⟨by unfold ThermalHuntState.hot; decide +kernel, trivial⟩
    (by decide +kernel)).mp hkept
  cases hnone

/-- One hot reading in the window takes the cut that falls due when it ends. -/
theorem due_cut_cancelled :
    let p := cruising.1
    let st := cruising.2
    let s := st.called ⟨p, ⟨0, 85, 31⟩⟩
    (0 < st.lastAdjustS ∧ p.normalized.minBatch ≤ st.floor ∧ st.floor < st.batch) ∧
      (p.normalized.capC ≤ 85 ∧ 31 - st.lastAdjustS < p.normalized.cutSettleS) ∧
      (p.normalized.capC ≤ 86 ∧ p.normalized.cutSettleS ≤ 61 - st.lastAdjustS) ∧
      (huntThermalScale st p ⟨0, 86, 61⟩).2.action = .cut ∧
      (huntThermalScale s p ⟨0, 86, 61⟩).2.action = .hold ∧
      (huntThermalScale s p ⟨0, 86, 61⟩).1.batch = s.batch := by
  decide +kernel

end XnMiner
