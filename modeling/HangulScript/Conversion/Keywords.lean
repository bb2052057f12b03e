import HangulScript.Keyword.Table
import HangulScript.Region.Open
import HangulScript.Conversion.Pass

/-!
# Replacing keywords

A pass that keeps track of strings, comments, templates and their holes, and puts the replacement
of a rule where its spelling stands in code. What is not closed runs to the end of the text.
-/

namespace HangulScript

open Text

namespace Keywords

/-- A step in code: a delimiter opens its region, else the first rule that matches applies. -/
def codeStep (table : List Rule) (regions : OpenRegions) (place : Cursor) : Edit × OpenRegions :=
  match Region.opened? place.rest with
  | some (region, length) => (.copy (place.rest.take length), regions.push region)
  | none =>
    match Rule.firstMatch? table place with
    | some rule => (⟨[], rule.spelling, rule.replacement⟩, regions)
    | none => (.copy (place.rest.take 1), regions)

/-- A step in a hole: braces are counted, and the one that brings the count to zero ends it. -/
def holeStep (table : List Rule) (regions : OpenRegions) (place : Cursor) : Edit × OpenRegions :=
  match place.rest with
  | '{' :: _ => (.copy ['{'], regions.countOpening)
  | '}' :: _ =>
    let closed := regions.countClosing
    (.copy ['}'], if closed.holeDepth? = some 0 then closed.pop else closed)
  | _ => codeStep table regions place

/-- A step in a string: a backslash takes the next character along, and `quote` ends the string. -/
def quotedStep (quote : Char) (regions : OpenRegions) (rest : List Char) : Edit × OpenRegions :=
  match rest with
  | '\\' :: escaped => (.copy ('\\' :: escaped.take 1), regions)
  | c :: _ => (.copy [c], if c = quote then regions.pop else regions)
  | [] => (.copy [], regions)

/-- A step in template text: like a string, and a dollar sign with a brace opens a hole. -/
def templateStep (regions : OpenRegions) (rest : List Char) : Edit × OpenRegions :=
  match rest with
  | '\\' :: escaped => (.copy ('\\' :: escaped.take 1), regions)
  | '`' :: _ => (.copy ['`'], regions.pop)
  | '$' :: '{' :: _ => (.copy ['$', '{'], regions.push (.hole 1))
  | c :: _ => (.copy [c], regions)
  | [] => (.copy [], regions)

/-- A step in a line comment, which ends after its newline. -/
def lineCommentStep (regions : OpenRegions) (rest : List Char) : Edit × OpenRegions :=
  match rest with
  | '\n' :: _ => (.copy ['\n'], regions.pop)
  | c :: _ => (.copy [c], regions)
  | [] => (.copy [], regions)

/-- A step in a block comment. -/
def blockCommentStep (regions : OpenRegions) (rest : List Char) : Edit × OpenRegions :=
  match rest with
  | '*' :: '/' :: _ => (.copy ['*', '/'], regions.pop)
  | c :: _ => (.copy [c], regions)
  | [] => (.copy [], regions)

/-- A step of the scan in the innermost region. -/
def step (table : List Rule) (regions : OpenRegions) (place : Cursor) : Edit × OpenRegions :=
  match regions.innermost with
  | .code => codeStep table regions place
  | .hole _ => holeStep table regions place
  | .singleQuoted => quotedStep '\'' regions place.rest
  | .doubleQuoted => quotedStep '"' regions place.rest
  | .template => templateStep regions place.rest
  | .lineComment => lineCommentStep regions place.rest
  | .blockComment => blockCommentStep regions place.rest

/-- The edit reads the beginning of `rest`, and some of it unless `rest` is empty. -/
def Reads (edit : Edit) (rest : List Char) : Prop :=
  edit.consumed <+: rest ∧ (rest ≠ [] → edit.consumed ≠ [])

theorem reads_copy_take (rest : List Char) {n : Nat} (h : 0 < n) :
    Reads (.copy (rest.take n)) rest := by
  refine ⟨by simpa using List.take_prefix n rest, fun hrest => ?_⟩
  cases rest with
  | nil => exact absurd rfl hrest
  | cons c rest => cases n <;> simp_all

theorem reads_copy_append (text : List Char) {rest : List Char} (h : text ≠ []) :
    Reads (.copy text) (text ++ rest) :=
  ⟨by simp, fun _ => by simpa using h⟩

theorem codeStep_reads (table : List Rule) (regions : OpenRegions) (place : Cursor) :
    Reads (codeStep table regions place).1 place.rest := by
  unfold codeStep
  split
  · next region length hopen => exact reads_copy_take _ (Region.opened?_eq_some hopen).2.1
  · split
    · next rule hrule =>
      have hmatch : rule.applies place = true := by
        have := List.find?_some hrule
        simpa using this
      exact ⟨by simpa [Edit.consumed] using Rule.spelling_prefix hmatch,
        fun _ => by simpa [Edit.consumed] using rule.spelling_ne_nil⟩
    · exact reads_copy_take _ Nat.one_pos

theorem holeStep_reads (table : List Rule) (regions : OpenRegions) (place : Cursor) :
    Reads (holeStep table regions place).1 place.rest := by
  unfold holeStep
  split
  · next rest h => rw [h]; exact reads_copy_append ['{'] (by simp)
  · next rest h => rw [h]; exact reads_copy_append ['}'] (by simp)
  · exact codeStep_reads table regions place

theorem escape_reads (escaped : List Char) :
    Reads (.copy ('\\' :: escaped.take 1)) ('\\' :: escaped) :=
  reads_copy_take ('\\' :: escaped) (n := 2) (by omega)

theorem quotedStep_reads (quote : Char) (regions : OpenRegions) (rest : List Char) :
    Reads (quotedStep quote regions rest).1 rest := by
  unfold quotedStep
  split
  · exact escape_reads _
  · exact reads_copy_append [_] (by simp)
  · simp [Reads]

theorem templateStep_reads (regions : OpenRegions) (rest : List Char) :
    Reads (templateStep regions rest).1 rest := by
  unfold templateStep
  split
  · exact escape_reads _
  · exact reads_copy_append ['`'] (by simp)
  · exact reads_copy_append ['$', '{'] (by simp)
  · exact reads_copy_append [_] (by simp)
  · simp [Reads]

theorem lineCommentStep_reads (regions : OpenRegions) (rest : List Char) :
    Reads (lineCommentStep regions rest).1 rest := by
  unfold lineCommentStep
  split
  · exact reads_copy_append ['\n'] (by simp)
  · exact reads_copy_append [_] (by simp)
  · simp [Reads]

theorem blockCommentStep_reads (regions : OpenRegions) (rest : List Char) :
    Reads (blockCommentStep regions rest).1 rest := by
  unfold blockCommentStep
  split
  · exact reads_copy_append ['*', '/'] (by simp)
  · exact reads_copy_append [_] (by simp)
  · simp [Reads]

theorem step_reads (table : List Rule) (regions : OpenRegions) (place : Cursor) :
    Reads (step table regions place).1 place.rest := by
  unfold step
  split
  · exact codeStep_reads table regions place
  · exact holeStep_reads table regions place
  · exact quotedStep_reads _ regions place.rest
  · exact quotedStep_reads _ regions place.rest
  · exact templateStep_reads regions place.rest
  · exact lineCommentStep_reads regions place.rest
  · exact blockCommentStep_reads regions place.rest

end Keywords

/-- The pass that replaces the keywords of a table. -/
def keywordPass (table : List Rule) : Pass OpenRegions where
  start := .bottom
  step := Keywords.step table
  consumed_prefix regions place := (Keywords.step_reads table regions place).1
  consumed_ne_nil regions place := (Keywords.step_reads table regions place).2

/-- No counter of open braces exceeded its bound during the run. -/
def Trace.fits (trace : Trace OpenRegions) : Bool :=
  trace.visits.all (·.state.innermost.fits) && trace.final.innermost.fits

/-- The scan of a text with a table. -/
def traceKeywords (table : List Rule) (source : List Char) : Except Abort (Trace OpenRegions) :=
  let trace := (keywordPass table).run source
  if trace.fits then .ok trace else .error .holeTooDeep

/-- The text with the keywords of the built-in table replaced. -/
def replaceKeywords (source : List Char) : Except Abort (List Char) :=
  (traceKeywords keywordTable source).map Trace.output

theorem traceKeywords_eq_ok_iff {table : List Rule} {source : List Char}
    {trace : Trace OpenRegions} :
    traceKeywords table source = .ok trace ↔
      trace = (keywordPass table).run source ∧ trace.fits = true := by
  by_cases hfits : ((keywordPass table).run source).fits = true
  · simp only [traceKeywords, hfits, if_true, Except.ok.injEq]
    exact ⟨fun h => ⟨h.symm, h ▸ hfits⟩, fun h => h.1.symm⟩
  · simp only [traceKeywords, hfits]
    exact ⟨fun h => by simp at h, fun h => absurd (h.1 ▸ h.2) hfits⟩

end HangulScript
