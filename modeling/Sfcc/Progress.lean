import Mathlib.Data.List.Chain
import Mathlib.Data.Rat.Defs

-- The timer of an operation, which curl runs between two parts of a transfer.
namespace Sfcc

def CIMSERVER_TIMEOUT : ℤ := 10 * 60
def MAX_PLAUSIBLE_PROGRESS : ℤ := 30
def MAX_PROGRESS_FIXUPS : ℕ := 10

-- Clock readings are far from the bounds of `time_t`, and the fixups from those of `unsigned`.
structure TimeoutControl where
  mTimestampStart : ℤ := 0
  mTimestampLast  : ℤ := 0
  mFixups         : ℕ := 0
  deriving DecidableEq

-- What a call is given, with what `time` returns in it.
structure Progress where
  total        : ℚ
  actual       : ℚ
  timestampNow : ℤ
  deriving DecidableEq

namespace TimeoutControl

-- Either the first call or the system time changed.
def fixup (timeout : TimeoutControl) (timestampNow : ℤ) : Bool :=
  timeout.mTimestampStart = 0 ∨ timeout.mTimestampLast > timestampNow ∨
    timestampNow - timeout.mTimestampLast > MAX_PLAUSIBLE_PROGRESS

def checkProgress (timeout : TimeoutControl) (p : Progress) : ℕ × TimeoutControl :=
  if p.total = p.actual then (0, timeout)
  else if timeout.mFixups > MAX_PROGRESS_FIXUPS then (1, timeout)
  else if timeout.fixup p.timestampNow then
    (0, {
      mFixups         := timeout.mFixups + 1
      mTimestampStart := p.timestampNow
      mTimestampLast  := p.timestampNow })
  else if p.timestampNow - timeout.mTimestampStart < CIMSERVER_TIMEOUT then
    (0, { timeout with mTimestampLast := p.timestampNow })
  else (1, timeout)

-- The calls of one operation, after `genRequest` set all fields to zero.
def after (timeout : TimeoutControl) (calls : List Progress) : TimeoutControl :=
  calls.foldl (fun timeout p => (timeout.checkProgress p).2) timeout

end TimeoutControl
end Sfcc
