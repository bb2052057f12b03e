/-!
# Broken runs

The two ways in which a run can be broken off without an answer.
-/

namespace HangulScript

/-- Why a run is broken off. -/
inductive Abort
  /-- A hole of a template has more open braces than can be counted. -/
  | holeTooDeep
  /-- A position was looked up in an empty text. -/
  | positionInEmptyText
deriving DecidableEq, Repr

end HangulScript
