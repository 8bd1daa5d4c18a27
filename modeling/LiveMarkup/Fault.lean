/-!
Why a run can stop before its end.
-/

namespace LiveMarkup

inductive Fault where
  /-- A value was read after the owner of its cell was disposed. -/
  | disposedRead
  /-- A value was used while it was being updated in place. -/
  | inUse
  /-- Markup could not be read to its end. -/
  | unreadable
  /-- A name stands for nothing of the kind that is needed. -/
  | unknownName
  /-- A value of a kind that no attribute has was given for one. -/
  | noAttribute
  /-- The steps allowed for a run were used up. -/
  | exhausted
  deriving Repr, BEq, DecidableEq

/-- What is said of a fault; only a late read says something. -/
def Fault.message? : Fault → Option String
  | .disposedRead => some "signal read after its owner was disposed"
  | _ => none

end LiveMarkup
