import XnMiner.Common

/-! # Submit windows and flush order

The minute of the local hour is an argument of everything that asks the clock for it.
-/
namespace XnMiner
open TextCodec

def DIFFICULTY_CHANGE_REASON : Str := "difficulty_change".toList
def OUTSIDE_XUNI_WINDOW_REASON : Str := "outside_xuni_window".toList
def SHUTDOWN_PENDING_REASON : Str := "shutdown_pending".toList
def MATCH_WINDOW_NEW_REASON : Str := "match_window_new".toList

/-- The pool's XUNI window, which is also the mine window. -/
def inXuniWindow (minute : ℕ) : Bool := decide (56 ≤ minute) || decide (minute < 5)

/-- The submit window opens one minute before the mine window. -/
def inXuniSubmitWindow (minute : ℕ) : Bool := decide (55 ≤ minute) || decide (minute < 5)

def inXuniTaperWindow (minute : ℕ) : Bool := decide (minute = 4)

def readyToFlush (minute : ℕ) (blockType : Str) : Bool × Str :=
  let kind := upper blockType
  if kind = "XUNI".toList ∧ inXuniSubmitWindow minute = false then
    (false, "waiting_for_xuni_window".toList)
  else (true, "ready".toList)

def flushPriority (blockType : Str) : ℕ :=
  let kind := upper blockType
  if kind = "XBLK".toList then 0
  else if kind = "XNM".toList ∨ kind = "XEN11".toList ∨ kind = "NORMAL".toList then 1
  else if kind = "XUNI".toList then 2
  else 3

theorem readyToFlush_iff {minute : ℕ} {t : Str} :
    (readyToFlush minute t).1 = true ↔
      upper t ≠ "XUNI".toList ∨ inXuniSubmitWindow minute = true := by
  dsimp only [readyToFlush]
  split_ifs with h
  · simp only [h.1, h.2, Bool.false_eq_true, ne_eq, not_true_eq_false, or_self]
  · simp only [not_and_or, Bool.not_eq_false] at h
    simp only [ne_eq, h]

end XnMiner
