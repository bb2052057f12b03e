import HangulScript.Proofs.Conversion.Regions
import HangulScript.Proofs.Methods.SameCode
import HangulScript.Proofs.Scan.Rewriting

/-!
# Texts with the same code

The keyword pass puts the same words into texts with the same code, whatever stands in their strings, comments and
templates. The method pass, which follows braces only, does so where these leave the same braces open.
-/

namespace HangulScript

open Text

variable {source other : List Char}

/-- In two texts with the same code the same keywords are replaced, and what is written has the same code. If the strings,
comments and templates have the same effect on the method pass, the same words are dropped from the code and the converted
texts have the same code. -/
theorem conversion_of_same_code (hbraces : source.count '{' < Region.maxHoleDepth)
    (hbraces' : other.count '{' < Region.maxHoleDepth) (h : SameCode AnyTexts source other) :
    ∃ trace trace' out out',
      traceKeywords keywordTable source = .ok trace ∧ traceKeywords keywordTable other = .ok trace' ∧
      toTypeScript source = .ok out ∧ toTypeScript other = .ok out' ∧
      trace.changes.map (·.edit) = trace'.changes.map (·.edit) ∧ SameCode AnyTexts trace.output trace'.output ∧
      (SameCode Methods.SameEffect source other →
        SameCode AnyTexts out out' ∧ Methods.codeDrops trace.output = Methods.codeDrops trace'.output) := by
  obtain ⟨hchanges, hkeyed⟩ := h.rewritten Rule.keywordTable_plain
  refine ⟨_, _, _, _, Keywords.traceKeywords_ok keywordTable hbraces, Keywords.traceKeywords_ok keywordTable hbraces',
    toTypeScript_ok hbraces, toTypeScript_ok hbraces', hchanges, hkeyed, fun heffect => ?_⟩
  exact Methods.bareMethods_sameCode (heffect.rewritten Rule.keywordTable_plain).2

/-- A class with a method, a string in it and comments after it. -/
def classWith (quoted comment line : String) : List Char :=
  ("클래스 A \x7b x = \"" ++ quoted ++ "\"; 함수 f() \x7b\x7d /*" ++ comment ++ "*/ \x7d //" ++ line ++ "\n함수 g()").toList

def segmentsWith (quoted comment line : String) : List Segment :=
  [⟨⟨[]⟩, "클래스 A \x7b x = \"".toList, ⟨[.doubleQuoted]⟩⟩, ⟨⟨[.doubleQuoted]⟩, (quoted ++ "\"").toList, ⟨[]⟩⟩,
    ⟨⟨[]⟩, "; 함수 f() \x7b\x7d /*".toList, ⟨[.blockComment]⟩⟩, ⟨⟨[.blockComment]⟩, (comment ++ "*/").toList, ⟨[]⟩⟩,
    ⟨⟨[]⟩, " \x7d //".toList, ⟨[.lineComment]⟩⟩, ⟨⟨[.lineComment]⟩, (line ++ "\n").toList, ⟨[]⟩⟩,
    ⟨⟨[]⟩, "함수 g()".toList, ⟨[]⟩⟩]

theorem like_segmentsWith {related : Region → List Char → List Char → Prop}
    {quoted comment line quoted' comment' line' : String}
    (hquoted : related .doubleQuoted (quoted ++ "\"").toList (quoted' ++ "\"").toList)
    (hcomment : related .blockComment (comment ++ "*/").toList (comment' ++ "*/").toList)
    (hline : related .lineComment (line ++ "\n").toList (line' ++ "\n").toList) :
    List.Forall₂ (Segment.Like related) (segmentsWith quoted comment line) (segmentsWith quoted' comment' line') :=
  .cons (.of_code rfl) <| .cons (.of_not_code rfl hquoted) <| .cons (.of_code rfl) <|
    .cons (.of_not_code rfl hcomment) <| .cons (.of_code rfl) <| .cons (.of_not_code rfl hline) <|
    .cons (.of_code rfl) .nil

theorem conversion_of_same_code_of_class :
    let source := classWith "함수" " 함수 " " 클래스"
    let other := classWith "!" "." " ?"
    source.count '{' < Region.maxHoleDepth ∧ other.count '{' < Region.maxHoleDepth ∧ SameCode AnyTexts source other ∧
      SameCode Methods.SameEffect source other ∧
      ∃ trace trace' out out',
        traceKeywords keywordTable source = .ok trace ∧ traceKeywords keywordTable other = .ok trace' ∧
        toTypeScript source = .ok out ∧ toTypeScript other = .ok out' ∧
        trace.changes.map (·.edit) = trace'.changes.map (·.edit) ∧ SameCode AnyTexts trace.output trace'.output ∧
        SameCode AnyTexts out out' ∧ Methods.codeDrops trace.output = Methods.codeDrops trace'.output := by
  intro source other
  have hbraces : source.count '{' < Region.maxHoleDepth := by decide
  have hbraces' : other.count '{' < Region.maxHoleDepth := by decide
  have hsource : (regionScan source).segments = segmentsWith "함수" " 함수 " " 클래스" := by
    rw [regionScan, Pass.run_eq_runWithin]
    decide +kernel
  have hother : (regionScan other).segments = segmentsWith "!" "." " ?" := by
    rw [regionScan, Pass.run_eq_runWithin]
    decide +kernel
  have hsame : SameCode AnyTexts source other := by
    rw [SameCode, hsource, hother]
    exact like_segmentsWith trivial trivial trivial
  have heffect : SameCode Methods.SameEffect source other := by
    rw [SameCode, hsource, hother]
    exact like_segmentsWith (Methods.Calm.sameEffect (by decide +kernel) (by decide +kernel))
      (Methods.Calm.sameEffect (by decide +kernel) (by decide +kernel))
      (Methods.Calm.sameEffect (by decide +kernel) (by decide +kernel))
  obtain ⟨trace, trace', out, out', htrace, htrace', hout, hout', hchanges, hkeyed, hcode⟩ :=
    conversion_of_same_code hbraces hbraces' hsame
  exact ⟨hbraces, hbraces', hsame, heffect, trace, trace', out, out', htrace, htrace', hout, hout', hchanges, hkeyed,
    hcode heffect⟩

/-- A class with a string in it, and a function after it, with a word before its name. -/
def functionAfterClass (quoted word : String) : List Char :=
  ("class A \x7b x = \"" ++ quoted ++ "\"; \x7d " ++ word ++ "f() \x7b\x7d").toList

def segmentsAfterClass (quoted word : String) : List Segment :=
  [⟨⟨[]⟩, "class A \x7b x = \"".toList, ⟨[.doubleQuoted]⟩⟩, ⟨⟨[.doubleQuoted]⟩, (quoted ++ "\"").toList, ⟨[]⟩⟩,
    ⟨⟨[]⟩, ("; \x7d " ++ word ++ "f() \x7b\x7d").toList, ⟨[]⟩⟩]

/-- A brace in a string keeps the body of a class open for the method pass, which then drops the word before a function
after it. -/
theorem brace_in_string_drops_function :
    let source := functionAfterClass "\x7b" "function "
    let other := functionAfterClass "a" "function "
    source.count '{' < Region.maxHoleDepth ∧ other.count '{' < Region.maxHoleDepth ∧ SameCode AnyTexts source other ∧
      toTypeScript source = .ok (functionAfterClass "\x7b" "") ∧ toTypeScript other = .ok other ∧
      ¬ SameCode AnyTexts (functionAfterClass "\x7b" "") other := by
  intro source other
  have hbraces : source.count '{' < Region.maxHoleDepth := by decide
  have hbraces' : other.count '{' < Region.maxHoleDepth := by decide
  have hkeyed : keyed source = source ∧ keyed other = other := by
    rw [keyed, keyed, Pass.run_eq_runWithin, Pass.run_eq_runWithin]
    decide +kernel
  have hbare : bareMethods source = functionAfterClass "\x7b" "" ∧ bareMethods other = other := by
    rw [bareMethods, bareMethods, Pass.run_eq_runWithin, Pass.run_eq_runWithin]
    decide +kernel
  have hsegments : (regionScan source).segments = segmentsAfterClass "\x7b" "function " ∧
      (regionScan other).segments = segmentsAfterClass "a" "function " ∧
      (regionScan (functionAfterClass "\x7b" "")).segments = segmentsAfterClass "\x7b" "" := by
    rw [regionScan, regionScan, regionScan, Pass.run_eq_runWithin, Pass.run_eq_runWithin, Pass.run_eq_runWithin]
    decide +kernel
  obtain ⟨hsource, hother, hleft⟩ := hsegments
  refine ⟨hbraces, hbraces', ?_, ?_, ?_, fun hsame => ?_⟩
  · rw [SameCode, hsource, hother]
    exact .cons (.of_code rfl) <| .cons (.of_not_code rfl trivial) <| .cons (.of_code rfl) .nil
  · rw [toTypeScript_ok hbraces, hkeyed.1, hbare.1]
  · rw [toTypeScript_ok hbraces', hkeyed.2, hbare.2]
  · rw [SameCode, hleft, hother] at hsame
    obtain ⟨-, hsame⟩ := List.forall₂_cons.1 hsame
    obtain ⟨-, hsame⟩ := List.forall₂_cons.1 hsame
    obtain ⟨hlast, -⟩ := List.forall₂_cons.1 hsame
    exact absurd (hlast.code rfl) (by decide)

end HangulScript
