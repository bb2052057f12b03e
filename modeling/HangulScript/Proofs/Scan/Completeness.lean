import HangulScript.Proofs.Scan.Modes

/-!
# No keyword is missed

Whether a keyword is replaced at a place depends on the regions and on the text around the place, and not on what was
replaced before it.
-/

namespace HangulScript

open Text

namespace Keywords

variable {table : List Rule} {rule : Rule} {regions : OpenRegions} {place : Cursor} {source : List Char}

theorem triesRules_of_applies (hplain : rule.Plain) (hcode : regions.innermost.holdsCode = true)
    (happlies : rule.applies place = true) : TriesRules regions place := by
  obtain ⟨rest, hrest⟩ := Rule.spelling_prefix happlies
  obtain ⟨c, spelling, hc⟩ := List.exists_cons_of_ne_nil rule.spelling_ne_nil
  have hmark : marksRegion c = false := hplain.1 c (by simp [hc])
  have hplace : place.rest = c :: (spelling ++ rest) := by rw [← hrest, hc, List.cons_append]
  simp only [marksRegion, List.contains_eq_mem, List.mem_cons, decide_eq_false_iff_not, not_or] at hmark
  refine ⟨hcode, ?_, ?_⟩
  · rw [hplace, opened?_cons]
    simp [hmark]
  · rw [hplace]
    simp [hmark]

/-- Where only rules match that match at another place of the same regions, rules miss if they miss there. -/
theorem firstMatch?_eq_none_of_applies {other : Cursor} (hplain : ∀ rule ∈ table, rule.Plain)
    (hnone : TriesRules regions place → Rule.firstMatch? table place = none)
    (hrules : ∀ rule ∈ table, rule.applies other = true → rule.applies place = true) (htries : TriesRules regions other) :
    Rule.firstMatch? table other = none := by
  refine List.find?_eq_none.2 fun rule hmem happlies => ?_
  have hplace := hrules rule hmem happlies
  exact List.find?_eq_none.1 (hnone (triesRules_of_applies (hplain rule hmem) htries.1 hplace)) rule hmem hplace

theorem head_mem_spread {v : Visit OpenRegions} (hedit : v.edit = ⟨[], rule.spelling, rule.replacement⟩) :
    ∃ u ∈ spread v, u.offset = v.offset ∧ u.state = v.state := by
  obtain ⟨c, spelling, hc⟩ := List.exists_cons_of_ne_nil rule.spelling_ne_nil
  refine ⟨⟨v.offset, v.place, v.state, .copy [c]⟩, ?_, rfl, rfl⟩
  rw [spread, hedit, if_pos (changes_of_rule rule), hc]
  exact List.mem_cons_self

/-- A visit of the spread spelling where a rule matches is the first one. -/
theorem offset_eq_of_mem_spread (hapart : Rule.Apart table rule) {v u : Visit OpenRegions} {other : Rule}
    (hedit : v.edit = ⟨[], rule.spelling, rule.replacement⟩) (hrule : rule.applies v.place = true)
    (hu : u ∈ spread v) (hmem : other ∈ table) (hother : other.applies u.place = true) : u.offset = v.offset := by
  obtain ⟨rest, hrest⟩ := Rule.spelling_prefix hrule
  rw [spread, hedit, if_pos (changes_of_rule rule)] at hu
  obtain ⟨a, c, b, hspelling, rfl⟩ := mem_singles hrest.symm hu
  rcases List.eq_nil_or_concat a with rfl | ⟨a, x, rfl⟩
  · rfl
  · rw [List.concat_eq_append] at hspelling hother
    have hplace : v.place.rest = (a ++ [x]) ++ (c :: b ++ rest) := by
      rw [← hrest, hspelling]
      simp
    -- the place inside the spelling stands between `x` and `c`
    rw [Cursor.advance_append hplace, List.getLast?_concat, Option.some_or] at hother
    have hinside : other.applies ⟨some x, c :: b ++ rest⟩ = false :=
      Rule.not_applies_inside hapart (by simpa using hspelling) rfl rfl hmem
    rw [hinside] at hother
    cases hother

/-- Where the scan of the regions comes by in code and a rule matches, the scan with the table makes a substitution. -/
theorem changes_of_applies (hplain : ∀ rule ∈ table, rule.Plain) (hapart : ∀ rule ∈ table, Rule.Apart table rule)
    {u : Visit OpenRegions} (hu : u ∈ (regionScan source).visits) (hcode : u.state.innermost.holdsCode = true)
    (hmem : rule ∈ table) (happlies : rule.applies u.place = true) :
    ∃ v ∈ ((keywordPass table).run source).changes, v.offset = u.offset := by
  rw [(regionScan_source hplain source).1] at hu
  obtain ⟨v, hv, hspread⟩ := List.mem_flatMap.1 hu
  rcases run_visit_cases hv with ⟨first, -, hfirst, hedit, -⟩ | ⟨hnone, piece, hedit, -⟩
  · have hmatch := Rule.applies_of_firstMatch? hfirst
    refine ⟨v, List.mem_filter.2 ⟨hv, by rw [hedit]; exact changes_of_rule first⟩, ?_⟩
    exact (offset_eq_of_mem_spread (hapart first (Rule.mem_of_firstMatch? hfirst)) hedit hmatch hspread hmem
      happlies).symm
  · -- the scan with the table copies here, but rules are tried and one matches
    rw [spread, hedit, Edit.changes_copy] at hspread
    obtain rfl : u = v := by simpa using hspread
    have htries := triesRules_of_applies (hplain rule hmem) hcode happlies
    have := List.find?_eq_none.1 (hnone htries) rule hmem
    exact absurd happlies this

/-- The built-in table replaces a keyword exactly where the scan of the regions alone comes by in code and a rule
matches, and it replaces the longest one. -/
theorem substitutes_iff {source : List Char} (hbraces : source.count '{' < Region.maxHoleDepth) :
    ∃ trace regions, traceKeywords keywordTable source = .ok trace ∧ traceKeywords [] source = .ok regions ∧
      (∀ offset, (∃ v ∈ trace.changes, v.removedAt = offset) ↔
        (∃ u ∈ regions.visits, u.offset = offset ∧ u.state.innermost.holdsCode = true) ∧
          ∃ rule ∈ keywordTable, rule.appliesAt source offset = true) ∧
      ∀ v ∈ trace.changes, ∃ rule ∈ keywordTable,
        v.edit.removed = rule.spelling ∧ v.edit.inserted = rule.replacement ∧
          rule.appliesAt source v.removedAt = true ∧
          ∀ other ∈ keywordTable, other.appliesAt source v.removedAt = true →
            other = rule ∨ other.spelling.length < rule.spelling.length := by
  have hplain := Rule.keywordTable_plain
  refine ⟨_, _, traceKeywords_ok keywordTable hbraces, traceKeywords_ok [] hbraces, fun offset => ⟨?_, ?_⟩, ?_⟩
  · rintro ⟨v, hv, rfl⟩
    obtain ⟨rule, hat, hplace, htries, hrule, hedit⟩ := change_cases hv
    obtain ⟨u, hu, hoffset, hstate⟩ := head_mem_spread hedit
    have hscan : u ∈ (regionScan source).visits := by
      rw [(regionScan_source hplain source).1]
      exact List.mem_flatMap.2 ⟨v, (List.mem_filter.1 hv).1, hu⟩
    refine ⟨⟨u, hscan, by rw [hoffset, hat], by rw [hstate]; exact htries.1⟩, rule,
      Rule.mem_of_firstMatch? hrule, ?_⟩
    simpa [Rule.appliesAt, hat, hplace] using Rule.applies_of_firstMatch? hrule
  · rintro ⟨⟨u, hu, rfl, hcode⟩, rule, hmem, happlies⟩
    have happlies : rule.applies u.place = true := by
      simpa [Rule.appliesAt, visits_placed hu] using happlies
    obtain ⟨v, hv, hoffset⟩ := changes_of_applies hplain Rule.keywordTable_apart hu hcode hmem happlies
    obtain ⟨_, hat, _⟩ := change_cases hv
    exact ⟨v, hv, by rw [hat, hoffset]⟩
  · intro v hv
    obtain ⟨rule, hat, hplace, -, hrule, hedit⟩ := change_cases hv
    refine ⟨rule, Rule.mem_of_firstMatch? hrule, by rw [hedit], by rw [hedit], ?_, ?_⟩
    · simpa [Rule.appliesAt, hat, hplace] using Rule.applies_of_firstMatch? hrule
    · intro other hother happlies
      refine Rule.firstMatch?_longest Rule.keywordTable_admissible hrule hother ?_
      simpa [Rule.appliesAt, hat, hplace] using happlies

/-- An export with two words, a spelling inside an identifier and one inside a string. -/
def adjacentSpellings : List Char :=
  "내보내기 기본내보내기 내보내기 가함수 콘솔.출력(\"함수\" + `$\x7b함수\x7d`)".toList

theorem substitutes_iff_adjacent :
    adjacentSpellings.count '{' < Region.maxHoleDepth ∧
      ∃ trace regions,
        traceKeywords keywordTable adjacentSpellings = .ok trace ∧ traceKeywords [] adjacentSpellings = .ok regions ∧
        (∀ offset, (∃ v ∈ trace.changes, v.removedAt = offset) ↔
          (∃ u ∈ regions.visits, u.offset = offset ∧ u.state.innermost.holdsCode = true) ∧
            ∃ rule ∈ keywordTable, rule.appliesAt adjacentSpellings offset = true) ∧
        ∀ v ∈ trace.changes, ∃ rule ∈ keywordTable,
          v.edit.removed = rule.spelling ∧ v.edit.inserted = rule.replacement ∧
            rule.appliesAt adjacentSpellings v.removedAt = true ∧
            ∀ other ∈ keywordTable, other.appliesAt adjacentSpellings v.removedAt = true →
              other = rule ∨ other.spelling.length < rule.spelling.length :=
  ⟨by decide, substitutes_iff (by decide)⟩

end Keywords

end HangulScript
