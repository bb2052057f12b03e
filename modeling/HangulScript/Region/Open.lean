import HangulScript.Abort
import HangulScript.Region.Basic

/-!
# Nested regions

The regions around a place, from the innermost outwards. Code stands at the bottom and is not part
of the list, so no operation can remove it.
-/

namespace HangulScript

/-- The regions opened above the code at the bottom, the innermost first. -/
structure OpenRegions where
  inner : List Region
deriving DecidableEq, Repr

namespace OpenRegions

/-- Nothing but the code at the bottom. -/
def bottom : OpenRegions :=
  ⟨[]⟩

/-- All regions, the innermost first and the bottom last. -/
def toList (regions : OpenRegions) : List Region :=
  regions.inner ++ [.code]

/-- The innermost region. -/
def innermost (regions : OpenRegions) : Region :=
  regions.inner.headD .code

/-- The number of regions, the bottom included. -/
def depth (regions : OpenRegions) : Nat :=
  regions.toList.length

/-- The innermost region above the bottom: what is still open. -/
def open? (regions : OpenRegions) : Option Region :=
  regions.inner.head?

def push (regions : OpenRegions) (region : Region) : OpenRegions :=
  ⟨region :: regions.inner⟩

/-- Removes the innermost region; the bottom stays. -/
def pop (regions : OpenRegions) : OpenRegions :=
  ⟨regions.inner.tail⟩

/-- The count of open braces, when the innermost region is a hole. -/
def holeDepth? (regions : OpenRegions) : Option Nat :=
  match regions.inner with
  | .hole depth :: _ => some depth
  | _ => none

/-- Counts a `{` in the innermost region, if that is a hole. -/
def countOpening (regions : OpenRegions) : OpenRegions :=
  match regions.inner with
  | .hole depth :: outer => ⟨.hole (depth + 1) :: outer⟩
  | _ => regions

/-- Counts a `}` in the innermost region, if that is a hole. The count stops at zero. -/
def countClosing (regions : OpenRegions) : OpenRegions :=
  match regions.inner with
  | .hole depth :: outer => ⟨.hole (depth - 1) :: outer⟩
  | _ => regions

/-- No counter exceeds its bound. -/
def fits (regions : OpenRegions) : Bool :=
  regions.inner.all Region.fits

/-- Counts a `{`, unless the counter is full. -/
def countOpening? (regions : OpenRegions) : Except Abort OpenRegions :=
  if regions.holeDepth? = some Region.maxHoleDepth then .error .holeTooDeep
  else .ok regions.countOpening

@[simp] theorem toList_bottom : bottom.toList = [.code] := rfl

@[simp] theorem toList_push (regions : OpenRegions) (region : Region) :
    (regions.push region).toList = region :: regions.toList := rfl

@[simp] theorem pop_push (regions : OpenRegions) (region : Region) :
    (regions.push region).pop = regions := rfl

@[simp] theorem innermost_push (regions : OpenRegions) (region : Region) :
    (regions.push region).innermost = region := rfl

/-- From counters within their bounds, a checked `{` fails exactly when it would break a bound. -/
theorem countOpening?_eq_ok_iff {regions : OpenRegions} (h : regions.fits = true) :
    regions.countOpening? = .ok regions.countOpening ↔ regions.countOpening.fits = true := by
  rcases regions with ⟨_ | ⟨region, outer⟩⟩
  · simp [countOpening?, holeDepth?, countOpening, fits]
  · cases region with
    | hole depth =>
      have hdepth : depth ≤ Region.maxHoleDepth := by simp_all [fits, Region.fits]
      have houter : outer.all Region.fits = true := by simp_all [fits]
      by_cases hfull : depth = Region.maxHoleDepth
      · have hover : ¬ Region.maxHoleDepth + 1 ≤ Region.maxHoleDepth := Nat.not_succ_le_self _
        simp [countOpening?, holeDepth?, countOpening, fits, Region.fits, hfull, hover]
      · have hroom : depth + 1 ≤ Region.maxHoleDepth := by omega
        simp [countOpening?, holeDepth?, countOpening, fits, Region.fits, hfull, hroom, houter]
    | _ => simp_all [countOpening?, holeDepth?, countOpening, fits]

end OpenRegions

end HangulScript
