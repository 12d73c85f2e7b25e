import XnMiner.Common

/-! # What the pool's answer to a submit means -/
namespace XnMiner
open TextCodec

def submitAccepted (status : ℤ) (body : Str) : Bool :=
  if 200 ≤ status ∧ status < 300 then true
  else contains (lower body) "already exists".toList

def isDifficultyMismatch (status : ℤ) (body : Str) : Bool :=
  if status = 0 then false
  else
    let l := lower body
    contains l "hash does not contain 'm=".toList ||
    (contains l "does not contain".toList && contains l "m=".toList) ||
    (contains l "memory_cost".toList && contains l "does not contain".toList) ||
    contains l "hash verification failed".toList

def isXuniWindowReject (status : ℤ) (body : Str) : Bool :=
  if status = 0 then false
  else
    let l := lower body
    contains l "outside of time window".toList ||
    contains l "outside of proper time frame".toList ||
    contains l "time frame".toList || contains l "time window".toList

def isTransientSubmitFailure (status : ℤ) (body : Str) : Bool :=
  if status = 0 then true
  else
    let l := lower body
    contains l "timed out".toList || contains l "timeout".toList || contains l "connection".toList

def isPoolHold (status : ℤ) (body : Str) : Bool :=
  if status = 401 ∨ status = 403 ∨ status = 429 then true
  else contains (lower body) "hash verification failed".toList

def countsAsReject (status : ℤ) (body : Str) : Bool :=
  !submitAccepted status body && !isDifficultyMismatch status body &&
    !isXuniWindowReject status body && !isTransientSubmitFailure status body &&
    !isPoolHold status body

/-- Status and body of an answer; without a body the transport error stands in for it. -/
structure SubmitResult where
  status : ℤ
  body : Str
  deriving DecidableEq

def SubmitResult.ok (r : SubmitResult) : Bool := submitAccepted r.status r.body

end XnMiner
