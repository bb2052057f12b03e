import HangulScript.Proofs.Keyword.Table
import HangulScript.Proofs.Scan.Splice

/-!
# The order of a table

In an admissible table the first rule that matches is the longest one, so it does not depend on the order in which the
rules stand. Two admissible orders of the same rules make the same scan of every text.
-/

namespace HangulScript

open Text

namespace Rule

variable {table other : List Rule} {rule : Rule}

theorem appliesAt_iff {source : List Char} {offset : Nat} : rule.appliesAt source offset = true ↔
    ∃ place, Cursor.atOffset? source offset = some place ∧ rule.applies place = true := by
  rw [appliesAt, Option.any_eq_true]

/-- The rule is the first one of the table that applies at the byte offset. -/
def FirstAt (table : List Rule) (source : List Char) (offset : Nat) (rule : Rule) : Prop :=
  ∃ earlier later, table = earlier ++ rule :: later ∧ rule.appliesAt source offset = true ∧
    ∀ r ∈ earlier, r.appliesAt source offset = false

theorem FirstAt.firstMatch? {source : List Char} {offset : Nat} (h : FirstAt table source offset rule) :
    ∃ place, Cursor.atOffset? source offset = some place ∧ firstMatch? table place = some rule := by
  obtain ⟨earlier, later, htable, happlies, hearlier⟩ := h
  obtain ⟨place, hplace, happlies⟩ := appliesAt_iff.1 happlies
  refine ⟨place, hplace, List.find?_eq_some_iff_append.2 ⟨happlies, earlier, later, htable, fun r hr => ?_⟩⟩
  simpa [appliesAt, hplace] using hearlier r hr

/-- Two admissible orders of the same rules have the same first match: each would be longer than the other. -/
theorem firstMatch?_eq_of_mem_iff (htable : Admissible table) (hother : Admissible other)
    (hsame : ∀ rule, rule ∈ other ↔ rule ∈ table) (place : Cursor) :
    firstMatch? other place = firstMatch? table place := by
  cases hfirst : firstMatch? table place with
  | none =>
      refine List.find?_eq_none.2 fun rule hrule => ?_
      exact List.find?_eq_none.1 hfirst rule ((hsame rule).1 hrule)
  | some rule =>
      have happlies := applies_of_firstMatch? hfirst
      have hmem := (hsame rule).2 (mem_of_firstMatch? hfirst)
      -- the other order has a first match too, since this rule applies
      obtain ⟨first, hfirst'⟩ : ∃ first, firstMatch? other place = some first :=
        Option.isSome_iff_exists.1 (List.find?_isSome.2 ⟨rule, hmem, happlies⟩)
      rw [hfirst']
      rcases firstMatch?_longest hother hfirst' hmem happlies with heq | hlt
      · rw [heq]
      · have hmem' := (hsame first).1 (mem_of_firstMatch? hfirst')
        rcases firstMatch?_longest htable hfirst hmem' (applies_of_firstMatch? hfirst') with heq | hlt'
        · rw [heq]
        · omega

end Rule

namespace Keywords

variable {table other : List Rule}

/-- A step of the scan looks at a table only for its first match. -/
theorem step_eq_of_firstMatch? (h : ∀ place, Rule.firstMatch? other place = Rule.firstMatch? table place) :
    step other = step table := by
  funext regions place
  have hcode : codeStep other regions place = codeStep table regions place := by
    simp only [codeStep, h place]
  simp only [step, holeStep, hcode]

theorem keywordPass_eq_of_firstMatch? (h : ∀ place, Rule.firstMatch? other place = Rule.firstMatch? table place) :
    keywordPass other = keywordPass table := by
  simp only [keywordPass, step_eq_of_firstMatch? h]

/-- In an admissible table the first rule that matches at an offset is longer than all the others that match there, and
every admissible order of its rules makes the same visits and ends in the same regions. -/
theorem admissible_orders_agree (hadm : Rule.Admissible table) :
    (∀ source offset rule, Rule.FirstAt table source offset rule →
      ∀ other ∈ table, other.appliesAt source offset = true →
        other = rule ∨ other.spelling.length < rule.spelling.length) ∧
    ∀ other, Rule.Admissible other → (∀ rule, rule ∈ other ↔ rule ∈ table) →
      ∀ source, source.count '{' < Region.maxHoleDepth →
        ∃ trace, traceKeywords table source = .ok trace ∧ traceKeywords other source = .ok trace := by
  constructor
  · intro source offset rule hfirst other hmem happlies
    obtain ⟨place, hplace, hfirst⟩ := hfirst.firstMatch?
    obtain ⟨place', hplace', happlies⟩ := Rule.appliesAt_iff.1 happlies
    obtain rfl : place = place' := Option.some.inj (hplace.symm.trans hplace')
    exact Rule.firstMatch?_longest hadm hfirst hmem happlies
  · intro other hother hsame source hbraces
    have hpass : keywordPass other = keywordPass table :=
      keywordPass_eq_of_firstMatch? (Rule.firstMatch?_eq_of_mem_iff hadm hother hsame)
    refine ⟨_, traceKeywords_ok table hbraces, ?_⟩
    rw [traceKeywords_ok other hbraces, hpass]

/-- The built-in rules in another order. Only the export of two words still stands before the one of one word; where the
longer spelling goes on as an identifier, the shorter one can come first. -/
def shuffledTable : List Rule :=
  keywordTable.take 1 ++ (keywordTable.drop 1).reverse

/-- Both exports, both asynchronous words and the console idiom inside of a word. -/
def exportText : List Char :=
  "내보내기 기본내보내기 비동기함수 내보내기 비동기 가콘솔.출력".toList

theorem shuffledTable_admissible : Rule.Admissible shuffledTable := by
  unfold Rule.Admissible
  decide +kernel

theorem mem_shuffledTable_iff (rule : Rule) : rule ∈ shuffledTable ↔ rule ∈ keywordTable := by
  have hperm : shuffledTable.Perm (keywordTable.take 1 ++ keywordTable.drop 1) := (List.reverse_perm _).append_left _
  rw [hperm.mem_iff, List.take_append_drop]

theorem admissible_orders_agree_shuffled :
    Rule.Admissible keywordTable ∧ Rule.Admissible shuffledTable ∧
      (∀ rule, rule ∈ shuffledTable ↔ rule ∈ keywordTable) ∧ exportText.count '{' < Region.maxHoleDepth ∧
      (∃ rule, Rule.FirstAt keywordTable exportText 0 rule ∧
        ∀ other ∈ keywordTable, other.appliesAt exportText 0 = true →
          other = rule ∨ other.spelling.length < rule.spelling.length) ∧
      ∃ trace, traceKeywords keywordTable exportText = .ok trace ∧
        traceKeywords shuffledTable exportText = .ok trace := by
  have hadm := Rule.keywordTable_admissible
  have hfirst : Rule.FirstAt keywordTable exportText 0 (keywordTable.head (List.cons_ne_nil _ _)) :=
    ⟨[], keywordTable.tail, rfl, by decide +kernel, nofun⟩
  exact ⟨hadm, shuffledTable_admissible, mem_shuffledTable_iff, by decide,
    ⟨_, hfirst, (admissible_orders_agree hadm).1 exportText 0 _ hfirst⟩,
    (admissible_orders_agree hadm).2 shuffledTable shuffledTable_admissible mem_shuffledTable_iff exportText
      (by decide)⟩

end Keywords

end HangulScript
