import XnMiner.Common

/-! # The counters of a session

`MetricsTracker` keeps one counter for each kind of block in each bucket. All kinds but
two count as XNM, so the total of a bucket does not depend on the kinds.
-/
namespace XnMiner
open TextCodec

structure KindCounts where
  xuni : ℕ := 0
  xnm : ℕ := 0
  xblk : ℕ := 0
  deriving DecidableEq

def KindCounts.total (c : KindCounts) : ℕ := c.xuni + c.xnm + c.xblk

def KindCounts.bump (c : KindCounts) (kind : Str) : KindCounts :=
  if kind = "XUNI".toList then { c with xuni := c.xuni + 1 }
  else if kind = "XBLK".toList then { c with xblk := c.xblk + 1 }
  else { c with xnm := c.xnm + 1 }

theorem KindCounts.total_bump (c : KindCounts) (kind : Str) : (c.bump kind).total = c.total + 1 := by
  unfold KindCounts.bump KindCounts.total
  split_ifs <;> dsimp only <;> omega

inductive Bucket where
  | found
  | enqueued
  | acceptedLive
  | acceptedFlush
  | rejectedLive
  | rejectedFlush
  | resubmission
  deriving DecidableEq

structure MiningStats where
  found : KindCounts := {}
  enqueued : KindCounts := {}
  acceptedLive : KindCounts := {}
  acceptedFlush : KindCounts := {}
  rejectedLive : KindCounts := {}
  rejectedFlush : KindCounts := {}
  resubmission : KindCounts := {}
  sessionHits : ℕ := 0
  deriving DecidableEq

def MiningStats.bucket (s : MiningStats) (b : Bucket) : KindCounts :=
  match b with
  | .found => s.found
  | .enqueued => s.enqueued
  | .acceptedLive => s.acceptedLive
  | .acceptedFlush => s.acceptedFlush
  | .rejectedLive => s.rejectedLive
  | .rejectedFlush => s.rejectedFlush
  | .resubmission => s.resubmission

def MiningStats.count (s : MiningStats) (b : Bucket) (kind : Str) : MiningStats :=
  match b with
  | .found => { s with found := s.found.bump kind }
  | .enqueued => { s with enqueued := s.enqueued.bump kind }
  | .acceptedLive => { s with acceptedLive := s.acceptedLive.bump kind }
  | .acceptedFlush => { s with acceptedFlush := s.acceptedFlush.bump kind }
  | .rejectedLive => { s with rejectedLive := s.rejectedLive.bump kind }
  | .rejectedFlush => { s with rejectedFlush := s.rejectedFlush.bump kind }
  | .resubmission => { s with resubmission := s.resubmission.bump kind }

/-- The `record_` functions; one that finds a block also counts the hit. -/
def MiningStats.record (s : MiningStats) (b : Bucket) (kind : Str) : MiningStats :=
  let s := s.count b kind
  if b = .found then { s with sessionHits := s.sessionHits + 1 } else s

def MiningStats.enqueuedTotal (s : MiningStats) : ℕ := s.enqueued.total
def MiningStats.acceptedFlushTotal (s : MiningStats) : ℕ := s.acceptedFlush.total
def MiningStats.resubmissionTotal (s : MiningStats) : ℕ := s.resubmission.total

theorem MiningStats.record_bucket (s : MiningStats) (b c : Bucket) (kind : Str) :
    ((s.record b kind).bucket c).total = (s.bucket c).total + if b = c then 1 else 0 := by
  cases b <;> cases c <;> simp [MiningStats.record, MiningStats.count, MiningStats.bucket,
    KindCounts.total_bump]

end XnMiner
