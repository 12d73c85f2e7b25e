import XnMiner.Common

/-! # Settings read by the modelled components -/
namespace XnMiner
open TextCodec

structure Settings where
  address : Str := []
  strategy : Str := "random".toList
  memoryCost : ℤ := 1100
  timeCost : ℤ := 1
  parallelism : ℤ := 1
  hashLen : ℤ := 64
  /-- Hybrid mode mines at this `m`; zero is classic mode. -/
  forceMineMemoryCost : ℤ := 100
  matchDrainEnabled : Bool := true
  matchDrainMinQueue : ℤ := 1
  matchDrainMaxS : ℤ := 0
  matchDrainParallel : ℤ := 0
  matchDrainBatch : ℤ := 0
  xuniMiningEnabled : Bool := true
  xuniQueueSoftCap : ℤ := 100
  xuniQueueResume : ℤ := 40
  xuniEveryNBatches : ℤ := 3
  xuniMaxLanes : ℤ := 2
  sampleIntervalS : ℤ := 5
  networkDownPollIntervalS : ℤ := 8

def Settings.saltHex (s : Settings) : Str :=
  match s.address with
  | '0' :: 'x' :: c :: rest | '0' :: 'X' :: c :: rest => c :: rest
  | a => a

def Settings.forceMineMode (s : Settings) : Bool := decide (0 < s.forceMineMemoryCost)

def Settings.forcedMineM (s : Settings) : ℤ := s.forceMineMemoryCost

/-- `load_settings` raises the drain threshold to one. -/
def Settings.loaded (s : Settings) : Prop := 1 ≤ s.matchDrainMinQueue

end XnMiner
