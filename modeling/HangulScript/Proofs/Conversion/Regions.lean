import HangulScript.Conversion.ToTypeScript
import HangulScript.Proofs.Methods.Drops

/-!
# Regions through the conversion

Both passes leave the regions of a text as they are. The keyword pass leaves the text of every string, comment and
template as it is too; the method pass, which follows braces only, drops its word in them as it does in code.
-/

namespace HangulScript

open Text

namespace Keywords

variable {table : List Rule} {text : List Char} {done : List (Visit OpenRegions)} {regions : OpenRegions} {place : Cursor}

theorem count_of_plain {piece : List Char} (h : ∀ c ∈ piece, marksRegion c = false) : piece.count '{' = 0 :=
  List.count_eq_zero.2 fun hmem => by cases h _ hmem

theorem count_writtenBy (hplain : ∀ rule ∈ table, rule.Plain)
    (h : (keywordPass table).Reaches text done regions place) :
    (writtenBy done).count '{' = (readBy done).count '{' := by
  induction h with
  | start => rfl
  | @step done regions place h hrest ih =>
      simp only [writtenBy_append, writtenBy_cons, writtenBy_nil, readBy_append, readBy_cons, readBy_nil,
        List.append_nil, List.count_append, ih, keywordPass_step]
      rcases step_cases table regions place with ⟨rule, -, hrule, hstep⟩ | ⟨-, hstep⟩
      · obtain ⟨hspelling, hreplacement, -⟩ := hplain rule (Rule.mem_of_firstMatch? hrule)
        simp [hstep, Edit.written, Edit.consumed, count_of_plain hspelling, count_of_plain hreplacement]
      · obtain ⟨piece, -, hpiece⟩ := step_nil_copies regions hrest
        rw [hstep, hpiece, Edit.written_copy, Edit.consumed_copy]

end Keywords

variable {source : List Char}

/-- The text that the method pass works on. -/
abbrev keyed (source : List Char) : List Char :=
  ((keywordPass keywordTable).run source).output

theorem replaceKeywords_ok (hbraces : source.count '{' < Region.maxHoleDepth) :
    replaceKeywords source = .ok (keyed source) := by
  rw [replaceKeywords, Keywords.traceKeywords_ok keywordTable hbraces]
  rfl

theorem toTypeScript_ok (hbraces : source.count '{' < Region.maxHoleDepth) :
    toTypeScript source = .ok (bareMethods (keyed source)) := by
  rw [toTypeScript_eq, replaceKeywords_ok hbraces]
  rfl

theorem count_keyed (source : List Char) : (keyed source).count '{' = source.count '{' := by
  obtain ⟨_, _, hend⟩ := (keywordPass keywordTable).run_reaches source
  rw [keyed, Trace.output_eq, Keywords.count_writtenBy Rule.keywordTable_plain hend, ← Trace.source_eq, Pass.source_run]

theorem count_bareMethods_le (text : List Char) : (bareMethods text).count '{' ≤ text.count '{' := by
  rw [Methods.bareMethods_eq_survivors]
  exact (survivors_sublist 0 text).count_le '{'

theorem regionScan_ok {text : List Char} (hbraces : text.count '{' < Region.maxHoleDepth) :
    traceKeywords [] text = .ok (regionScan text) :=
  Keywords.traceKeywords_ok [] hbraces

/-- The method pass keeps the regions of its text, and of every stretch what it does not drop. -/
theorem regionScan_bareMethods (text : List Char) :
    (regionScan (bareMethods text)).final = (regionScan text).final ∧
      (regionScan (bareMethods text)).turns = (regionScan text).turns ∧
      (regionScan (bareMethods text)).stretches.map Stretch.content =
        ((regionScan text).stretches.map (Stretch.thin (droppedBy (methodPass.run text).visits))).map
          Stretch.content := by
  rw [Methods.bareMethods_eq_survivors]
  exact Keywords.regionScan_survivors (Methods.loose_droppedBy text)

/-- The source, the text with the keywords replaced and the converted text open and close the same regions in the same
order, and end in the same regions. -/
theorem conversion_keeps_turns (hbraces : source.count '{' < Region.maxHoleDepth) :
    ∃ trace out before between after,
      traceKeywords keywordTable source = .ok trace ∧ replaceKeywords source = .ok trace.output ∧
      toTypeScript source = .ok out ∧ traceKeywords [] source = .ok before ∧
      traceKeywords [] trace.output = .ok between ∧ traceKeywords [] out = .ok after ∧
      between.turns = before.turns ∧ after.turns = before.turns ∧ between.final = before.final ∧
      after.final = before.final ∧ trace.final = before.final := by
  have hkeyed : (keyed source).count '{' < Region.maxHoleDepth := by rwa [count_keyed]
  have hout := Nat.lt_of_le_of_lt (count_bareMethods_le (keyed source)) hkeyed
  obtain ⟨hscan, hturns, -⟩ := Keywords.regionScan_source Rule.keywordTable_plain source
  obtain ⟨hfinal', hturns', -⟩ := Keywords.regionScan_output Rule.keywordTable_plain source
  obtain ⟨hfinal'', hturns'', -⟩ := regionScan_bareMethods (keyed source)
  have hfinal : (regionScan source).final = ((keywordPass keywordTable).run source).final := by rw [hscan]
  refine ⟨_, _, _, _, _, Keywords.traceKeywords_ok keywordTable hbraces, replaceKeywords_ok hbraces,
    toTypeScript_ok hbraces, regionScan_ok hbraces, regionScan_ok hkeyed, regionScan_ok hout, ?_, ?_, ?_, ?_, ?_⟩
  · exact hturns'.trans hturns.symm
  · exact hturns''.trans (hturns'.trans hturns.symm)
  · exact hfinal'.trans hfinal.symm
  · exact hfinal''.trans (hfinal'.trans hfinal.symm)
  · exact hfinal.symm

/-- A class with a method, a string and a template with an open hole, each with the Korean `function` in it. -/
def methodsAndStrings : List Char :=
  "클래스 가 \x7b 함수 나() \x7b \"; 함수 \"; `.함수 $\x7b \x7b참 함수".toList

theorem conversion_keeps_turns_of_class :
    methodsAndStrings.count '{' < Region.maxHoleDepth ∧
      ∃ trace out before between after,
        traceKeywords keywordTable methodsAndStrings = .ok trace ∧
        replaceKeywords methodsAndStrings = .ok trace.output ∧ toTypeScript methodsAndStrings = .ok out ∧
        traceKeywords [] methodsAndStrings = .ok before ∧ traceKeywords [] trace.output = .ok between ∧
        traceKeywords [] out = .ok after ∧ between.turns = before.turns ∧ after.turns = before.turns ∧
        between.final = before.final ∧ after.final = before.final ∧ trace.final = before.final :=
  ⟨by decide, conversion_keeps_turns (by decide)⟩

/-- The keyword pass keeps every stretch with its text. The method pass keeps every stretch and, of its text, all but
the words `function` that stand where a member begins. -/
theorem conversion_thins_stretches (hbraces : source.count '{' < Region.maxHoleDepth) :
    ∃ trace out,
      traceKeywords keywordTable source = .ok trace ∧ replaceKeywords source = .ok trace.output ∧
      toTypeScript source = .ok out ∧
      trace.stretches = (regionScan source).stretches ∧
      (regionScan trace.output).stretches.map Stretch.content = (regionScan source).stretches.map Stretch.content ∧
      (regionScan out).stretches.map Stretch.content =
        ((regionScan trace.output).stretches.map
          (Stretch.thin (droppedBy (methodPass.run trace.output).visits))).map Stretch.content ∧
      ∀ v ∈ (methodPass.run trace.output).changes,
        Cursor.atOffset? trace.output v.offset = some v.place ∧ Methods.Drops v.state v.place v.edit := by
  obtain ⟨-, -, hstretches⟩ := Keywords.regionScan_source Rule.keywordTable_plain source
  obtain ⟨-, -, hcontents⟩ := Keywords.regionScan_output Rule.keywordTable_plain source
  refine ⟨_, _, Keywords.traceKeywords_ok keywordTable hbraces, replaceKeywords_ok hbraces, toTypeScript_ok hbraces,
    hstretches.symm, ?_, (regionScan_bareMethods (keyed source)).2.2, ?_⟩
  · rw [hcontents, hstretches]
  · intro v hv
    obtain ⟨hv, hchanges⟩ := List.mem_filter.1 hv
    obtain ⟨earlier, hreach, hrest, hoffset, hedit, -⟩ := Pass.of_mem_run hv
    refine ⟨hoffset ▸ hreach.atOffset, ?_⟩
    rcases Methods.edit_cases v.state hrest with ⟨piece, -, hcopy⟩ | hdrops
    · have hedit : v.edit = .copy piece := hedit.trans hcopy
      rw [hedit] at hchanges
      cases hchanges
    · exact hedit ▸ hdrops

theorem conversion_thins_stretches_of_class :
    methodsAndStrings.count '{' < Region.maxHoleDepth ∧
      ∃ trace out,
        traceKeywords keywordTable methodsAndStrings = .ok trace ∧
        replaceKeywords methodsAndStrings = .ok trace.output ∧ toTypeScript methodsAndStrings = .ok out ∧
        trace.stretches = (regionScan methodsAndStrings).stretches ∧
        (regionScan trace.output).stretches.map Stretch.content =
          (regionScan methodsAndStrings).stretches.map Stretch.content ∧
        (regionScan out).stretches.map Stretch.content =
          ((regionScan trace.output).stretches.map
            (Stretch.thin (droppedBy (methodPass.run trace.output).visits))).map Stretch.content ∧
        ∀ v ∈ (methodPass.run trace.output).changes,
          Cursor.atOffset? trace.output v.offset = some v.place ∧ Methods.Drops v.state v.place v.edit :=
  ⟨by decide, conversion_thins_stretches (by decide)⟩

/-- A string in a class body where the word `function` comes after a semicolon. -/
def stringInClass : List Char :=
  "class A \x7b \"; function f\" \x7d".toList

theorem string_in_class_loses_word :
    stringInClass.count '{' < Region.maxHoleDepth ∧
      ∃ out, toTypeScript stringInClass = .ok out ∧
        (regionScan stringInClass).stretches.map Stretch.content = [(.doubleQuoted, "; function f\"".toList)] ∧
        (regionScan out).stretches.map Stretch.content = [(.doubleQuoted, "; f\"".toList)] ∧
        (regionScan out).stretches.map Stretch.content ≠ (regionScan stringInClass).stretches.map Stretch.content := by
  have hbraces : stringInClass.count '{' < Region.maxHoleDepth := by decide
  have hkeyed : keyed stringInClass = stringInClass := by
    rw [keyed, Pass.run_eq_runWithin]
    decide +kernel
  have hout : bareMethods stringInClass = "class A \x7b \"; f\" \x7d".toList := by
    rw [bareMethods, Pass.run_eq_runWithin]
    decide +kernel
  have hsource : (regionScan stringInClass).stretches.map Stretch.content =
      [(.doubleQuoted, "; function f\"".toList)] := by
    rw [regionScan, Pass.run_eq_runWithin]
    decide +kernel
  have hleft : (regionScan "class A \x7b \"; f\" \x7d".toList).stretches.map Stretch.content =
      [(.doubleQuoted, "; f\"".toList)] := by
    rw [regionScan, Pass.run_eq_runWithin]
    decide +kernel
  refine ⟨hbraces, _, toTypeScript_ok hbraces, hsource, ?_, ?_⟩
  · rw [hkeyed, hout, hleft]
  · rw [hkeyed, hout, hleft, hsource]
    decide

end HangulScript
