import HangulScript.Proofs.Lexical.Demand
import HangulScript.Region.Open

/-!
# How regions nest

Which regions can be open together, and what a piece of text that is read in them can do: open a region, end the innermost
one, count a brace of a hole, or nothing.
-/

namespace HangulScript

open Lexical

/-- A string or a comment, in which nothing else can open. -/
def Region.isFlat : Region → Bool
  | singleQuoted | doubleQuoted | lineComment | blockComment => true
  | _ => false

/-- The text that ends a region. A hole is ended by its last brace, which is counted. -/
inductive Region.Closing : Region → List Char → Prop
  | singleQuoted : Closing .singleQuoted ['\'']
  | doubleQuoted : Closing .doubleQuoted ['"']
  | template : Closing .template ['`']
  | lineComment : Closing .lineComment ['\n']
  | blockComment : Closing .blockComment ['*', '/']

namespace OpenRegions

/-- Regions that can be open together. -/
structure Nested (regions : OpenRegions) : Prop where
  /-- Code stands at the bottom and nowhere else. -/
  code : ∃ above, regions.toList = above ++ [.code] ∧ Region.code ∉ above
  /-- A string or a comment is innermost and stands in code. -/
  flat : ∀ above region outer, regions.inner = above ++ region :: outer → region.isFlat = true →
    above = [] ∧ (OpenRegions.mk outer).innermost.holdsCode = true
  /-- A hole stands on the template that it is in, and a brace of it is open. -/
  hole : ∀ above depth outer, regions.inner = above ++ .hole depth :: outer →
    1 ≤ depth ∧ ∃ below, outer = .template :: below
  /-- A template stands on the code at the bottom or on a hole. -/
  template : ∀ above outer, regions.inner = above ++ .template :: outer →
    outer = [] ∨ ∃ depth below, outer = .hole depth :: below

/-- The piece neither opens nor ends a region, and it begins with no brace of a hole. -/
structure Quiet (regions : OpenRegions) (piece : List Char) : Prop where
  opens : regions.innermost.holdsCode = true → ∀ region, ¬ Opens piece region
  hole : regions.innermost = .template → piece ≠ ['$', '{']
  counts : regions.holeDepth?.isSome = true → piece.head? ≠ some '{' ∧ piece.head? ≠ some '}'
  ends : ¬ regions.innermost.Closing piece

/-- What a piece of text does to the regions in which it is read. -/
inductive Turn : OpenRegions → List Char → OpenRegions → Prop
  | stay {regions : OpenRegions} {piece : List Char} (h : regions.Quiet piece) : Turn regions piece regions
  | opens {regions : OpenRegions} {opening : List Char} {region : Region}
      (hcode : regions.innermost.holdsCode = true) (hopen : Opens opening region) :
      Turn regions opening (regions.push region)
  | hole {outer : List Region} : Turn ⟨.template :: outer⟩ ['$', '{'] ⟨.hole 1 :: .template :: outer⟩
  | opening {depth : Nat} {outer : List Region} : Turn ⟨.hole depth :: outer⟩ ['{'] ⟨.hole (depth + 1) :: outer⟩
  | closing {depth : Nat} {outer : List Region} (hdepth : 1 ≤ depth) :
      Turn ⟨.hole (depth + 1) :: outer⟩ ['}'] ⟨.hole depth :: outer⟩
  | closed {outer : List Region} : Turn ⟨.hole 1 :: .template :: outer⟩ ['}'] ⟨.template :: outer⟩
  | ends {region : Region} {closing : List Char} {outer : List Region} (h : region.Closing closing) :
      Turn ⟨region :: outer⟩ closing ⟨outer⟩

variable {regions next : OpenRegions} {region : Region} {outer : List Region} {piece : List Char} {depth : Nat}

/-! ## Opening and ending -/

theorem nested_bottom : bottom.Nested where
  code := ⟨[], rfl, nofun⟩
  flat _ _ _ h := (List.append_ne_nil_of_right_ne_nil _ (List.cons_ne_nil _ _) h.symm).elim
  hole _ _ _ h := (List.append_ne_nil_of_right_ne_nil _ (List.cons_ne_nil _ _) h.symm).elim
  template _ _ h := (List.append_ne_nil_of_right_ne_nil _ (List.cons_ne_nil _ _) h.symm).elim

theorem Nested.code_notMem (h : regions.Nested) : Region.code ∉ regions.inner := by
  obtain ⟨above, htoList, hcode⟩ := h.code
  rwa [List.append_cancel_right htoList]

theorem Nested.tail (h : Nested ⟨region :: outer⟩) : Nested ⟨outer⟩ where
  code := ⟨outer, rfl, fun hmem => h.code_notMem (List.mem_cons_of_mem region hmem)⟩
  flat above flat below hinner hflat := by
    have hinner : outer = above ++ flat :: below := hinner
    have hnil := (h.flat (region :: above) flat below (congrArg (region :: ·) hinner) hflat).1
    exact absurd hnil (List.cons_ne_nil _ _)
  hole above depth below hinner := h.hole (region :: above) depth below (congrArg (region :: ·) hinner)
  template above below hinner := h.template (region :: above) below (congrArg (region :: ·) hinner)

/-- A region can open on the others if it could be innermost there and none of them is a string or a comment. -/
theorem Nested.push (h : regions.Nested) (hcode : region ≠ .code)
    (hinner : regions.innermost.isFlat = false)
    (hflat : region.isFlat = true → regions.innermost.holdsCode = true)
    (hhole : ∀ depth, region = .hole depth → 1 ≤ depth ∧ ∃ below, regions.inner = .template :: below)
    (htemplate : region = .template → regions.inner = [] ∨ ∃ depth below, regions.inner = .hole depth :: below) :
    (regions.push region).Nested where
  code := ⟨region :: regions.inner, rfl, fun hmem =>
    (List.mem_cons.1 hmem).elim (fun heq => hcode heq.symm) h.code_notMem⟩
  flat above flat below hpush hflatRegion := by
    rcases List.cons_eq_append_iff.1 hpush with ⟨rfl, hhead⟩ | ⟨above, rfl, htail⟩
    · obtain ⟨rfl, rfl⟩ := List.cons.inj hhead
      exact ⟨rfl, hflat hflatRegion⟩
    · -- a string or a comment below would be innermost
      obtain ⟨rfl, -⟩ := h.flat above flat below htail hflatRegion
      rw [innermost, htail, List.nil_append, List.headD_cons, hflatRegion] at hinner
      cases hinner
  hole above depth below hpush := by
    rcases List.cons_eq_append_iff.1 hpush with ⟨rfl, hhead⟩ | ⟨above, rfl, htail⟩
    · obtain ⟨heq, rfl⟩ := List.cons.inj hhead
      exact hhole depth heq.symm
    · exact h.hole above depth below htail
  template above below hpush := by
    rcases List.cons_eq_append_iff.1 hpush with ⟨rfl, hhead⟩ | ⟨above, rfl, htail⟩
    · obtain ⟨heq, rfl⟩ := List.cons.inj hhead
      exact htemplate heq.symm
    · exact h.template above below htail

theorem Nested.inner_of_code (h : regions.Nested) (hcode : regions.innermost.holdsCode = true) :
    regions.inner = [] ∨ ∃ depth below, regions.inner = .hole depth :: below := by
  rcases regions with ⟨_ | ⟨region, inner⟩⟩
  · exact Or.inl rfl
  · cases region with
    | code => exact absurd List.mem_cons_self h.code_notMem
    | hole depth => exact Or.inr ⟨depth, inner, rfl⟩
    | _ => cases hcode

theorem isFlat_of_holdsCode (hcode : region.holdsCode = true) : region.isFlat = false := by
  cases region <;> first | rfl | cases hcode

theorem Nested.opens {opening : List Char} (h : regions.Nested) (hcode : regions.innermost.holdsCode = true)
    (hopen : Opens opening region) : (regions.push region).Nested := by
  have hinner := h.inner_of_code hcode
  have hflat := isFlat_of_holdsCode hcode
  cases hopen <;> exact h.push nofun hflat (fun _ => hcode) nofun fun _ => hinner

theorem Nested.hole_push (h : Nested ⟨.template :: outer⟩) (hdepth : 1 ≤ depth) :
    Nested ⟨.hole depth :: .template :: outer⟩ := by
  refine Nested.push h nofun rfl nofun (fun d heq => ?_) nofun
  obtain rfl := Region.hole.inj heq
  exact ⟨hdepth, outer, rfl⟩

/-! ## Turns keep the nesting -/

theorem Turn.nested (hturn : Turn regions piece next) (h : regions.Nested) : next.Nested := by
  cases hturn with
  | stay => exact h
  | opens hcode hopen => exact h.opens hcode hopen
  | hole => exact h.hole_push (Nat.le_refl 1)
  | @opening depth outer =>
      obtain ⟨-, below, rfl⟩ := h.hole [] depth outer rfl
      exact h.tail.hole_push (Nat.le_add_left 1 depth)
  | @closing depth outer hdepth =>
      obtain ⟨-, below, rfl⟩ := h.hole [] (depth + 1) outer rfl
      exact h.tail.hole_push hdepth
  | closed | ends => exact h.tail

end OpenRegions

end HangulScript
