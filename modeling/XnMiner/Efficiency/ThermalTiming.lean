import XnMiner.Efficiency.ThermalRuns

/-! # Samples and settle times of the hunt

A reading that is taken for a glitch leaves the old temperature as the one the next reading is
compared with, so a drop that lasts is never followed. Raises wait for the settle time of cuts
only: the one computed for raises is not read.
-/
namespace XnMiner

variable {p q : HuntParams} {st : ThermalHuntState} {c : HuntCall}

def HuntReading.at (x : HuntReading) (nowS : ℚ) : HuntReading := { x with nowS }

@[simp] theorem HuntParams.control_at (p : HuntParams) (x : HuntReading) (nowS : ℚ) :
    p.control (x.at nowS) = p.control x := rfl

/-- A call controls on the filtered temperature and keeps it for the next one. -/
theorem huntThermalScale_temp (st : ThermalHuntState) (p : HuntParams) (x : HuntReading) :
    (huntThermalScale st p x).2.controlC = st.filtered p.normalized (p.normalized.control x).1 ∧
      (huntThermalScale st p x).1.lastTempC =
        st.filtered p.normalized (p.normalized.control x).1 := by
  unfold huntThermalScale
  dsimp only
  split_ifs
  · exact ⟨rfl, rfl⟩
  · exact ⟨rfl, rfl⟩

theorem ThermalHuntState.called_lastTempC (st : ThermalHuntState) (p : HuntParams)
    (x : HuntReading) : (st.called ⟨p, x⟩).lastTempC =
      st.filtered p.normalized (p.normalized.control x).1 := (huntThermalScale_temp st p x).2

/-- A temperature that lies at least 12 C below one that reached the target. -/
def ThermalHuntState.dropsTo (st : ThermalHuntState) (q : HuntParams) (temp : ℤ) : Prop :=
  q.targetC ≤ st.lastTempC ∧ 12 ≤ st.lastTempC - temp

theorem ThermalHuntState.filtered_drop {temp : ℤ} (h : st.dropsTo q temp) (hpos : 0 < temp) :
    st.filtered q temp = st.lastTempC := if_pos ⟨h.1, hpos, h.2⟩

theorem ThermalHuntState.filtered_follow {temp : ℤ} (h : ¬ st.dropsTo q temp) :
    st.filtered q temp = temp := if_neg fun hglitch => h ⟨hglitch.1, hglitch.2.2⟩

/-- The filter looks at nothing but the last temperature. -/
theorem ThermalHuntState.dropsTo_congr {s : ThermalHuntState} {temp : ℤ}
    (h : s.lastTempC = st.lastTempC) : s.dropsTo q temp ↔ st.dropsTo q temp := by
  rw [dropsTo, dropsTo, h]

/-- A drop that is taken for a glitch is taken for one as long as it lasts. -/
theorem glitch_lasts {x : HuntReading} (hpos : 0 < (p.normalized.control x).1)
    (hdrop : st.dropsTo p.normalized (p.normalized.control x).1) (times : List ℚ) :
    (huntRun st (times.map fun t => ⟨p, x.at t⟩)).lastTempC = st.lastTempC := by
  induction times generalizing st with
  | nil => rfl
  | cons t times ih =>
    have hkept : (st.called ⟨p, x.at t⟩).lastTempC = st.lastTempC := by
      rw [ThermalHuntState.called_lastTempC, HuntParams.control_at]
      exact ThermalHuntState.filtered_drop hdrop hpos
    have hrun : huntRun st ((t :: times).map fun t => ⟨p, x.at t⟩) =
        huntRun (st.called ⟨p, x.at t⟩) (times.map fun t => ⟨p, x.at t⟩) := rfl
    rw [hrun, ih ((ThermalHuntState.dropsTo_congr hkept).mpr hdrop), hkept]

/-- A reading that comes a second time is followed if and only if it is no drop of 12 C or more
from a temperature at the target. -/
theorem second_sample_followed_iff (st : ThermalHuntState) (p : HuntParams) (x : HuntReading)
    (later : ℚ) (hpos : 0 < (p.normalized.control x).1) :
    let temp := (p.normalized.control x).1
    let s := st.called ⟨p, x⟩
    ((huntThermalScale s p (x.at later)).2.controlC = temp ∧
        (huntThermalScale s p (x.at later)).1.lastTempC = temp) ↔
      ¬ (p.normalized.targetC ≤ st.lastTempC ∧ 12 ≤ st.lastTempC - temp) := by
  intro temp s
  obtain ⟨hcontrol, hlast⟩ := huntThermalScale_temp s p (x.at later)
  rw [hcontrol, hlast, HuntParams.control_at, and_self]
  by_cases hdrop : st.dropsTo p.normalized temp
  · have hkept : s.lastTempC = st.lastTempC := glitch_lasts hpos hdrop [x.nowS]
    have hagain : s.dropsTo p.normalized temp :=
      (ThermalHuntState.dropsTo_congr hkept).mpr hdrop
    rw [ThermalHuntState.filtered_drop hagain hpos, hkept]
    refine iff_of_false (fun h => ?_) (fun h => h hdrop)
    have hfar := hdrop.2
    omega
  · have htaken : s.lastTempC = temp := by
      rw [ThermalHuntState.called_lastTempC]
      exact ThermalHuntState.filtered_follow hdrop
    have hnone : ¬ s.dropsTo p.normalized temp := by
      rintro ⟨-, hfar⟩
      omega
    exact iff_of_true (ThermalHuntState.filtered_follow hnone) hdrop

/-- A drop of 10 C is followed. -/
theorem second_sample_followed_ten :
    (huntThermalScale (cruising.2.called ⟨cruising.1, ⟨0, 70, 31⟩⟩) cruising.1
      ⟨0, 70, 32⟩).2.controlC = 70 :=
  ((second_sample_followed_iff cruising.2 cruising.1 ⟨0, 70, 31⟩ 32 (by decide)).mpr
    (by decide +kernel)).1

/-- The GPU was parked and has cooled from 80 C to 60 C. -/
theorem second_sample_ignored :
    let s := cruising.2.called ⟨cruising.1, ⟨0, 60, 31⟩⟩
    0 < (cruising.1.normalized.control ⟨0, 60, 31⟩).1 ∧
      (huntThermalScale s cruising.1 ⟨0, 60, 32⟩).2.controlC = 80 ∧
      (huntThermalScale s cruising.1 ⟨0, 60, 32⟩).1.lastTempC = 80 := by
  decide +kernel

/-- A cool reading that may raise the batch, after the settle time of cuts but before that of
raises. -/
def ThermalHuntState.raisesEarly (st : ThermalHuntState) (c : HuntCall) : Prop :=
  let q := c.params.normalized
  let temp := st.filtered q (q.control c.reading).1
  let since := c.reading.nowS - st.lastAdjustS
  0 < st.lastAdjustS ∧ (temp ≤ q.targetC ∧ st.dT temp ≤ 0) ∧
    q.intoRange st.batch < q.plannedBatch ∧ q.cutSettleS ≤ since ∧ since < q.raiseSettleS

/-- The call finds the batch in the range of its plan, or it is the first reading. -/
def ThermalHuntState.inPlace (st : ThermalHuntState) (c : HuntCall) : Prop :=
  c.params.normalized.holds st ∨ st.lastAdjustS ≤ 0

def ThermalHuntState.eachCall (C : ThermalHuntState → HuntCall → Prop) (st : ThermalHuntState) :
    List HuntCall → Prop
  | [] => True
  | c :: calls => C st c ∧ (st.called c).eachCall C calls

theorem ThermalHuntState.eachCall_append {C : ThermalHuntState → HuntCall → Prop}
    {calls : List HuntCall} :
    st.eachCall C (calls ++ [c]) ↔ st.eachCall C calls ∧ C (huntRun st calls) c := by
  induction calls generalizing st with
  | nil => exact and_comm
  | cons d calls ih => exact (and_congr_right fun _ => ih).trans and_assoc.symm

theorem ThermalHuntState.cut_ne_raise (st : ThermalHuntState) (q : HuntParams) (now : ℚ) :
    (st.cut q now).2 ≠ .raise := by
  unfold ThermalHuntState.cut
  split_ifs with hdrop
  · simp
  · exact st.apply_ne q now (st.drop q) .cut nofun nofun

/-- A cool reading raises the batch if there is room for it and the settle time of cuts is over. -/
theorem ThermalHuntState.react_raise_iff (hq : 1 ≤ q.step) (hrange : q.minBatch ≤ q.plannedBatch)
    (hst : q.holds st) (temp : ℤ) (now : ℚ) :
    ((st.observed q temp).react q temp now).2 = .raise ↔
      (temp ≤ q.targetC ∧ st.dT temp ≤ 0) ∧ st.batch < q.plannedBatch ∧
        q.cutSettleS ≤ now - st.lastAdjustS := by
  obtain ⟨hmin, hmax⟩ := hst
  have hdT : (st.observed q temp).dT temp = st.dT temp := rfl
  unfold ThermalHuntState.react
  rw [hdT]
  split_ifs with hcool hhot
  · set cooled : ThermalHuntState := { st.observed q temp with
      lastOk := (st.observed q temp).batch
      consecutiveCool := (st.observed q temp).consecutiveCool + 1 }
    have hbatch : cooled.batch = st.batch := rfl
    have htime : cooled.lastAdjustS = st.lastAdjustS := rfl
    rw [and_iff_right hcool]
    constructor
    · intro hraise
      rcases cooled.apply_cases q now (st.batch + q.step) .raise hrange with
        hkept | ⟨batch, hsettled, hmoved, hnext, -⟩
      · exact absurd (hraise.symm.trans (congrArg Prod.snd hkept)) (by simp)
      · exact ⟨by omega, hsettled⟩
    · rintro ⟨hroom, hsettled⟩
      have hbatch' : (st.observed q temp).batch = st.batch := rfl
      have hopen : ¬ now - cooled.lastAdjustS < q.cutSettleS := not_lt.mpr hsettled
      unfold ThermalHuntState.apply
      dsimp only
      rw [if_neg hopen]
      split_ifs <;> first | rfl | omega
  · exact iff_of_false (ThermalHuntState.cut_ne_raise _ q now) fun h => hcool h.1
  · exact iff_of_false (by simp) fun h => hcool h.1

theorem called_raise_iff (st : ThermalHuntState) (c : HuntCall) :
    (huntThermalScale st c.params c.reading).2.action = .raise ↔
      let q := c.params.normalized
      let temp := st.filtered q (q.control c.reading).1
      0 < st.lastAdjustS ∧ (temp ≤ q.targetC ∧ st.dT temp ≤ 0) ∧
        q.intoRange st.batch < q.plannedBatch ∧ q.cutSettleS ≤ c.reading.nowS - st.lastAdjustS := by
  dsimp only
  by_cases hlater : 0 < st.lastAdjustS
  · have hrange := c.params.normalized_range
    have hst : c.params.normalized.holds (c.params.normalized.inRange st) :=
      HuntParams.intoRange_range hrange.2 st.batch
    rw [(huntThermalScale_later hlater c.params c.reading).2, and_iff_right hlater]
    exact ThermalHuntState.react_raise_iff c.params.normalized_step hrange.2 hst _ _
  · refine iff_of_false ?_ fun h => hlater h.1
    unfold huntThermalScale
    dsimp only
    rw [if_pos (not_lt.mp hlater)]
    simp

/-- The reading raises the batch before the settle time of raises is over. -/
theorem ThermalHuntState.raisesEarly_iff (st : ThermalHuntState) (c : HuntCall) :
    st.raisesEarly c ↔ (huntThermalScale st c.params c.reading).2.action = .raise ∧
      c.reading.nowS - st.lastAdjustS < c.params.normalized.raiseSettleS := by
  rw [called_raise_iff]
  unfold ThermalHuntState.raisesEarly
  tauto

/-- A call that finds the batch in place and does not raise it early, also where the last stamp is
that of the first reading. -/
def ThermalHuntState.waits (st : ThermalHuntState) (c : HuntCall) : Prop :=
  st.inPlace c ∧ ¬ st.raisesEarly c

def changesBefore (st : ThermalHuntState) (calls : List HuntCall) : Prop :=
  ∀ τ ∈ changeTimes st calls, τ ≤ (huntRun st calls).lastAdjustS ∨
    (τ ≤ 0 ∧ (huntRun st calls).lastAdjustS ≤ 0)

theorem changesBefore.le {calls : List HuntCall} (h : changesBefore st calls)
    (hlater : 0 < (huntRun st calls).lastAdjustS) {τ : ℚ} (hτ : τ ∈ changeTimes st calls) :
    τ ≤ (huntRun st calls).lastAdjustS := by
  rcases h τ hτ with hle | ⟨-, hnone⟩
  · exact hle
  · exact absurd hlater (not_lt.mpr hnone)

/-- Where a batch is in place, only a step that sets the time of the last adjustment changes it. -/
theorem ThermalHuntState.inPlace.unchanged (h : st.inPlace c) (hlater : 0 < st.lastAdjustS)
    (hbatch : (st.called c).batch = (c.params.normalized.inRange st).batch) :
    (st.called c).batch = st.batch := by
  rcases h with hst | hfirst
  · rwa [HuntParams.inRange_eq hst c.params.normalized_range.1] at hbatch
  · exact absurd hlater (not_lt.mpr hfirst)

theorem changesBefore.next {calls : List HuntCall} (hi : changesBefore st calls)
    (hplace : (huntRun st calls).inPlace c) : changesBefore st (calls ++ [c]) := by
  intro τ hτ
  rw [huntRun_append]
  rw [changeTimes_append] at hτ
  have hsettle : (5 : ℚ) ≤ c.params.normalized.cutSettleS := le_max_left _ _
  have hstep := huntThermalScale_step (huntRun st calls) c.params c.reading
  generalize (huntThermalScale (huntRun st calls) c.params c.reading).2.action = action at hstep
  have hnew : τ ∈ changeTimes st calls ∨
      ((huntRun st calls).called c).batch ≠ (huntRun st calls).batch ∧ τ = c.reading.nowS := by
    rcases List.mem_append.mp hτ with hold | hnew
    · exact .inl hold
    · split_ifs at hnew with hmoved
      · exact .inr ⟨hmoved, List.mem_singleton.mp hnew⟩
      · cases hnew
  cases hstep with
  | starts hfirst hbatch hfloor htime =>
    have htime' : ((huntRun st calls).called c).lastAdjustS = c.reading.nowS := htime
    rw [htime']
    rcases hnew with hold | ⟨-, rfl⟩
    · have hτ0 : τ ≤ 0 := by
        rcases hi τ hold with hle | ⟨hle, -⟩
        · exact hle.trans hfirst
        · exact hle
      rcases le_total c.reading.nowS 0 with hnow | hnow
      · exact .inr ⟨hτ0, hnow⟩
      · exact .inl (hτ0.trans hnow)
    · exact .inl le_rfl
  | stays hlater hbatch hfloor htime =>
    have htime' : ((huntRun st calls).called c).lastAdjustS = (huntRun st calls).lastAdjustS := htime
    rw [htime']
    rcases hnew with hold | ⟨hmoved, -⟩
    · exact hi τ hold
    · exact absurd (hplace.unchanged hlater hbatch) hmoved
  | raises hlater hsettled hfloor htime | cuts hlater hsettled hfloor htime =>
    have htime' : ((huntRun st calls).called c).lastAdjustS = c.reading.nowS := htime
    have hpast : c.params.normalized.cutSettleS ≤
        c.reading.nowS - (huntRun st calls).lastAdjustS := hsettled
    rw [htime']
    left
    rcases hnew with hold | ⟨-, rfl⟩
    · linarith [hi.le hlater hold]
    · exact le_rfl

theorem changesBefore_of_waits {calls : List HuntCall}
    (h : st.eachCall ThermalHuntState.waits calls) : changesBefore st calls := by
  induction calls using List.reverseRecOn with
  | nil => simp [changesBefore, changeTimes]
  | append_singleton calls d ih =>
    obtain ⟨hbefore, hwaits⟩ := ThermalHuntState.eachCall_append.mp h
    exact (ih hbefore).next hwaits.1

/-- In a run in which no call raises the batch early or finds it out of place, raises and cuts
keep their settle times after every change. -/
theorem settle_times_kept (st : ThermalHuntState) (calls : List HuntCall) (c : HuntCall)
    (hcalls : st.eachCall ThermalHuntState.waits (calls ++ [c])) :
    let action := (huntThermalScale (huntRun st calls) c.params c.reading).2.action
    let cutSettleS := max 5 c.params.cutSettleS
    ∀ τ ∈ changeTimes st calls,
      (action = .raise → max (cutSettleS + 5) c.params.raiseSettleS ≤ c.reading.nowS - τ) ∧
        (action = .cut → cutSettleS ≤ c.reading.nowS - τ) := by
  intro action cutSettleS τ hτ
  obtain ⟨hbefore, -, hlate⟩ := ThermalHuntState.eachCall_append.mp hcalls
  have hi := changesBefore_of_waits hbefore
  constructor
  · intro hraise
    have hlater := ((called_raise_iff _ c).mp hraise).1
    have hwaited : max (cutSettleS + 5) c.params.raiseSettleS ≤
        c.reading.nowS - (huntRun st calls).lastAdjustS :=
      not_lt.mp fun hearly => hlate (((huntRun st calls).raisesEarly_iff c).mpr ⟨hraise, hearly⟩)
    linarith [hi.le hlater hτ]
  · intro hcut
    have hstep := huntThermalScale_step (huntRun st calls) c.params c.reading
    rw [show (huntThermalScale (huntRun st calls) c.params c.reading).2.action = .cut from hcut]
      at hstep
    have hsettled : cutSettleS ≤ c.reading.nowS - (huntRun st calls).lastAdjustS := by
      cases hstep with
      | cuts _ hsettled => exact hsettled
    linarith [hi.le hstep.later hτ]

/-- A batch in the range of a run's plan is in place for its calls. -/
theorem HuntBounds.admits.inPlace {k : HuntBounds} (h : k.admits c) (hst : k.holds st) :
    st.inPlace c := .inl (h.range hst).1

def climbing : ThermalHuntState := { cruising.2 with batch := 4, lastTempC := 75 }

def coolCall (nowS : ℚ) : HuntCall := ⟨cruising.1, ⟨0, 75, nowS⟩⟩

theorem settle_times_kept_waiting :
    (coolCall 152).params.normalized.raiseSettleS ≤ (coolCall 152).reading.nowS - 77 := by
  have hcalls : climbing.eachCall ThermalHuntState.waits ([coolCall 77] ++ [coolCall 152]) := by
    refine ⟨⟨.inl ?_, ?_⟩, ⟨.inl ?_, ?_⟩, trivial⟩
    · unfold HuntParams.holds; decide +kernel
    · unfold ThermalHuntState.raisesEarly; decide +kernel
    · unfold HuntParams.holds; decide +kernel
    · unfold ThermalHuntState.raisesEarly; decide +kernel
  exact (settle_times_kept climbing [coolCall 77] (coolCall 152) hcalls 77 (by decide +kernel)).1
    (by decide +kernel)

/-- A raise 61 s after a raise, where the settle time of raises is 75 s. -/
theorem raise_not_settled :
    changeTimes climbing [coolCall 77] = [77] ∧
      (huntThermalScale (huntRun climbing [coolCall 77]) (coolCall 138).params
        (coolCall 138).reading).2.action = .raise ∧
      138 - 77 < (coolCall 138).params.normalized.raiseSettleS := by
  decide +kernel

end XnMiner
