import HangulScript.Conversion.Keywords
import Mathlib.Tactic.SplitIfs

/-!
# Regions without rules

What one or two characters do to the open regions. The scan with the empty table follows the regions and changes nothing:
it reads a pair where two characters belong together, and a single character everywhere else.
-/

namespace HangulScript

open Text

/-- The characters that take part in opening, closing or escaping. -/
def marksRegion (c : Char) : Bool :=
  ['"', '\'', '`', '/', '*', '\\', '$', '{', '}', '\n'].contains c

/-- The characters that can take the next one along. -/
def takesNext (c : Char) : Bool :=
  ['/', '*', '\\', '$'].contains c

theorem takesNext_of_not_marksRegion {c : Char} (h : marksRegion c = false) : takesNext c = false := by
  simp_all [marksRegion, takesNext]

namespace OpenRegions

/-- The regions after a quote, if one opens a region in code. -/
def opening (regions : OpenRegions) (c : Char) : OpenRegions :=
  if c = '"' then regions.push .doubleQuoted
  else if c = '\'' then regions.push .singleQuoted
  else if c = '`' then regions.push .template
  else regions

/-- The regions after a `}` of a hole. -/
def closing (regions : OpenRegions) : OpenRegions :=
  if regions.countClosing.holeDepth? = some 0 then regions.countClosing.pop else regions.countClosing

/-- The regions after a single character. -/
def after (regions : OpenRegions) (c : Char) : OpenRegions :=
  match regions.innermost with
  | .code => regions.opening c
  | .hole _ =>
    if c = '{' then regions.countOpening else if c = '}' then regions.closing else regions.opening c
  | .singleQuoted => if c = '\'' then regions.pop else regions
  | .doubleQuoted => if c = '"' then regions.pop else regions
  | .template => if c = '`' then regions.pop else regions
  | .lineComment => if c = '\n' then regions.pop else regions
  | .blockComment => regions

/-- The regions after two characters that belong together. -/
def afterPair? (regions : OpenRegions) (c d : Char) : Option OpenRegions :=
  match regions.innermost with
  | .code | .hole _ =>
    if c = '/' ∧ d = '/' then some (regions.push .lineComment)
    else if c = '/' ∧ d = '*' then some (regions.push .blockComment)
    else none
  | .singleQuoted | .doubleQuoted => if c = '\\' then some regions else none
  | .template =>
    if c = '\\' then some regions else if c = '$' ∧ d = '{' then some (regions.push (.hole 1)) else none
  | .lineComment => none
  | .blockComment => if c = '*' ∧ d = '/' then some regions.pop else none

/-- The regions after `c` and the character that follows it, if the two belong together. -/
def pairing? (regions : OpenRegions) (c : Char) (rest : List Char) : Option OpenRegions :=
  rest.head?.bind (regions.afterPair? c)

variable {regions : OpenRegions}

theorem opening_of_not_marksRegion {c : Char} (h : marksRegion c = false) : regions.opening c = regions := by
  simp_all [marksRegion, opening]

theorem after_of_not_marksRegion {c : Char} (h : marksRegion c = false) : regions.after c = regions := by
  have hopen : regions.opening c = regions := opening_of_not_marksRegion h
  simp only [marksRegion, List.contains_eq_mem, List.mem_cons, decide_eq_false_iff_not, not_or] at h
  unfold after
  split <;> simp_all

theorem afterPair?_of_not_takesNext {c d : Char} (h : takesNext c = false) : regions.afterPair? c d = none := by
  simp only [takesNext, List.contains_eq_mem, List.mem_cons, decide_eq_false_iff_not, not_or] at h
  unfold afterPair?
  split <;> simp_all

theorem pairing?_of_not_takesNext {c : Char} (rest : List Char) (h : takesNext c = false) :
    regions.pairing? c rest = none := by
  cases rest with
  | nil => rfl
  | cons d rest => exact afterPair?_of_not_takesNext h

theorem afterPair?_congr {c d e : Char} (hd : marksRegion d = false) (he : marksRegion e = false) :
    regions.afterPair? c d = regions.afterPair? c e := by
  simp only [marksRegion, List.contains_eq_mem, List.mem_cons, decide_eq_false_iff_not, not_or] at hd he
  unfold afterPair?
  split <;> simp_all

end OpenRegions

namespace Keywords

variable {regions : OpenRegions} {before : Option Char} {c : Char} {rest : List Char}

/-- In code and holes the same characters open a region. -/
theorem afterPair?_of_holdsCode (hcode : regions.innermost.holdsCode = true) (c d : Char) :
    regions.afterPair? c d =
      if c = '/' ∧ d = '/' then some (regions.push .lineComment)
      else if c = '/' ∧ d = '*' then some (regions.push .blockComment)
      else none := by
  unfold OpenRegions.afterPair?
  cases hregion : regions.innermost <;> simp_all [Region.holdsCode]

theorem opened?_cons (c : Char) (rest : List Char) :
    Region.opened? (c :: rest) =
      if c = '"' then some (.doubleQuoted, 1)
      else if c = '\'' then some (.singleQuoted, 1)
      else if c = '`' then some (.template, 1)
      else if c = '/' ∧ rest.head? = some '/' then some (.lineComment, 2)
      else if c = '/' ∧ rest.head? = some '*' then some (.blockComment, 2)
      else none := by
  cases rest with
  | nil => unfold Region.opened?; split <;> simp_all
  | cons d rest => unfold Region.opened?; split <;> simp_all; split_ifs <;> simp_all

theorem codeStep_nil_cons (hcode : regions.innermost.holdsCode = true) :
    codeStep [] regions ⟨before, c :: rest⟩ =
      match regions.pairing? c rest with
      | some next => (.copy (c :: rest.take 1), next)
      | none => (.copy [c], regions.opening c) := by
  have hpair := afterPair?_of_holdsCode hcode c
  simp only [codeStep, opened?_cons, Rule.firstMatch?, List.find?_nil]
  cases rest with
  | nil => simp only [OpenRegions.pairing?, OpenRegions.opening, List.head?_nil]; split_ifs <;> simp_all
  | cons d rest =>
      simp only [OpenRegions.pairing?, OpenRegions.opening, List.head?_cons, Option.bind_some, hpair,
        Option.some.injEq]
      split_ifs <;> simp_all

theorem quotedStep_cons (quote : Char) (regions : OpenRegions) (c : Char) (rest : List Char) :
    quotedStep quote regions (c :: rest) =
      if c = '\\' then (.copy (c :: rest.take 1), regions)
      else (.copy [c], if c = quote then regions.pop else regions) := by
  unfold quotedStep
  split <;> simp_all

theorem templateStep_cons (regions : OpenRegions) (c : Char) (rest : List Char) :
    templateStep regions (c :: rest) =
      if c = '\\' then (.copy (c :: rest.take 1), regions)
      else if c = '$' ∧ rest.head? = some '{' then (.copy (c :: rest.take 1), regions.push (.hole 1))
      else (.copy [c], if c = '`' then regions.pop else regions) := by
  cases rest with
  | nil => unfold templateStep; split <;> simp_all
  | cons d rest =>
      by_cases hhole : c = '$' ∧ d = '{'
      · obtain ⟨rfl, rfl⟩ := hhole
        rfl
      · simp only [List.head?_cons, Option.some.injEq, hhole, if_false]
        unfold templateStep
        split <;> simp_all

theorem lineCommentStep_cons (regions : OpenRegions) (c : Char) (rest : List Char) :
    lineCommentStep regions (c :: rest) = (.copy [c], if c = '\n' then regions.pop else regions) := by
  unfold lineCommentStep
  split <;> simp_all

theorem blockCommentStep_cons (regions : OpenRegions) (c : Char) (rest : List Char) :
    blockCommentStep regions (c :: rest) =
      if c = '*' ∧ rest.head? = some '/' then (.copy (c :: rest.take 1), regions.pop)
      else (.copy [c], regions) := by
  cases rest with
  | nil => unfold blockCommentStep; split <;> simp_all
  | cons d rest =>
      by_cases hend : c = '*' ∧ d = '/'
      · obtain ⟨rfl, rfl⟩ := hend
        rfl
      · simp only [List.head?_cons, Option.some.injEq, hend, if_false]
        unfold blockCommentStep
        split <;> simp_all

theorem step_nil_cons (regions : OpenRegions) (before : Option Char) (c : Char) (rest : List Char) :
    step [] regions ⟨before, c :: rest⟩ =
      match regions.pairing? c rest with
      | some next => (.copy (c :: rest.take 1), next)
      | none => (.copy [c], regions.after c) := by
  have hnil : regions.pairing? c [] = none := rfl
  have hcons : ∀ d rest, regions.pairing? c (d :: rest) = regions.afterPair? c d := fun _ _ => rfl
  cases hregion : regions.innermost with
  | code =>
      simp only [step, hregion, OpenRegions.after]
      exact codeStep_nil_cons (by simp [hregion, Region.holdsCode])
  | hole depth =>
      have hcode : regions.innermost.holdsCode = true := by simp [hregion, Region.holdsCode]
      simp only [step, hregion, OpenRegions.after]
      unfold holeStep
      split
      · rename_i hbrace
        obtain ⟨rfl, rfl⟩ := List.cons.inj hbrace
        rw [OpenRegions.pairing?_of_not_takesNext _ (by decide)]
        rfl
      · rename_i hbrace
        obtain ⟨rfl, rfl⟩ := List.cons.inj hbrace
        rw [OpenRegions.pairing?_of_not_takesNext _ (by decide)]
        rfl
      · rename_i hopen hclose
        have ho : c ≠ '{' := fun h => hopen rest (by rw [h])
        have hc : c ≠ '}' := fun h => hclose rest (by rw [h])
        simp only [ho, hc, if_false]
        exact codeStep_nil_cons hcode
  | singleQuoted | doubleQuoted =>
      simp only [step, hregion, OpenRegions.after, quotedStep_cons]
      cases rest with
      | nil => rw [hnil]; split_ifs <;> simp_all
      | cons d rest => simp only [hcons, OpenRegions.afterPair?, hregion]; split_ifs <;> simp_all
  | template =>
      simp only [step, hregion, OpenRegions.after, templateStep_cons]
      cases rest with
      | nil => rw [hnil]; split_ifs <;> simp_all
      | cons d rest => simp only [hcons, OpenRegions.afterPair?, hregion]; split_ifs <;> simp_all
  | lineComment =>
      simp only [step, hregion, OpenRegions.after, lineCommentStep_cons]
      cases rest with
      | nil => rw [hnil]
      | cons d rest => simp only [hcons, OpenRegions.afterPair?, hregion]
  | blockComment =>
      simp only [step, hregion, OpenRegions.after, blockCommentStep_cons]
      cases rest with
      | nil => rw [hnil]; simp
      | cons d rest => simp only [hcons, OpenRegions.afterPair?, hregion]; split_ifs <;> simp_all

end Keywords

end HangulScript
