import HangulScript.Keyword.Table
import HangulScript.Proofs.Pass.Reaches
import HangulScript.Proofs.Region.Tokens

/-!
# Overlaps in a keyword table

Where several rules match, one spelling begins with the other; in an admissible table the first match is the longest. In
the built-in table no rule matches inside the spelling of another match.
-/

namespace HangulScript

open Text

namespace Rule

variable {table : List Rule} {rule other : Rule} {place : Cursor}

theorem mem_of_firstMatch? (h : firstMatch? table place = some rule) : rule ∈ table :=
  List.mem_of_find?_eq_some h

theorem applies_of_firstMatch? (h : firstMatch? table place = some rule) : rule.applies place = true := by
  simpa using List.find?_some h

/-! ## The longest match -/

theorem not_applies_of_goes_on {c : Char} {rest : List Char} (halone : rule.standsAlone = true)
    (hrest : place.rest = rule.spelling ++ c :: rest) (hname : isNameChar c = true) : rule.applies place = false := by
  refine Bool.eq_false_iff.2 fun h => ?_
  have hfree := ((applies_iff.1 h).2 halone).2
  simp [Cursor.freeAfter, hrest, hname] at hfree

/-- Of two rules that match, the one that another yields to has the shorter spelling. -/
theorem YieldsTo.length_lt (h : YieldsTo rule other) (hrule : rule.applies place = true)
    (hother : other.applies place = true) : other.spelling.length < rule.spelling.length := by
  have hbegins := spelling_prefix hrule
  have hbegins' := spelling_prefix hother
  refine Nat.lt_of_not_le fun hle => ?_
  -- the earlier spelling begins the later one, so the earlier rule could not match here
  obtain ⟨more, hmore⟩ := List.prefix_of_prefix_length_le hbegins hbegins' hle
  rcases more with _ | ⟨c, more⟩
  · exact h.1 (by simpa using hmore)
  · obtain ⟨halone, hname⟩ := h.2 c more hmore.symm
    obtain ⟨rest, hrest⟩ := hbegins'
    rw [← hmore] at hrest
    have hgoes : place.rest = rule.spelling ++ c :: (more ++ rest) := by simpa using hrest.symm
    rw [not_applies_of_goes_on halone hgoes hname] at hrule
    cases hrule

/-- In an admissible table the first rule that matches is longer than every other that matches. -/
theorem firstMatch?_longest (hadm : Admissible table) (hfirst : firstMatch? table place = some rule)
    (hmem : other ∈ table) (hother : other.applies place = true) :
    other = rule ∨ other.spelling.length < rule.spelling.length := by
  obtain ⟨hrule, earlier, later, rfl, hearlier⟩ := List.find?_eq_some_iff_append.1 hfirst
  rcases List.mem_append.1 hmem with hmem | hmem
  · have := hearlier other hmem
    simp [hother] at this
  · rcases List.mem_cons.1 hmem with rfl | hmem
    · exact Or.inl rfl
    · have hyields := (List.pairwise_append.1 hadm).2.1
      exact Or.inr (((List.pairwise_cons.1 hyields).1 other hmem).length_lt hrule hother)

/-! ## Rules without delimiters -/

/-- Neither the spelling nor the replacement takes part in opening or closing a region, and something is written. -/
def Plain (rule : Rule) : Prop :=
  (∀ c ∈ rule.spelling, marksRegion c = false) ∧ (∀ c ∈ rule.replacement, marksRegion c = false) ∧
    rule.replacement ≠ []

instance (rule : Rule) : Decidable rule.Plain :=
  decidable_of_iff
    (rule.spelling.all (!marksRegion ·) = true ∧ rule.replacement.all (!marksRegion ·) = true ∧ rule.replacement ≠ [])
    (by simp [Plain])

theorem keywordTable_plain : ∀ rule ∈ keywordTable, rule.Plain := by
  decide +kernel

/-! ## Matches inside a spelling -/

/-- No match of the table begins inside the spelling: an identifier touches the place, or no spelling begins with the
character there. -/
def Apart (table : List Rule) (rule : Rule) : Prop :=
  ∀ p ∈ rule.spelling.zip rule.spelling.tail,
    (isNameChar p.1 = true ∧ ∀ other ∈ table, other.standsAlone = false → other.spelling.head? ≠ some p.2) ∨
      ∀ other ∈ table, other.spelling.head? ≠ some p.2

instance (table : List Rule) (rule : Rule) : Decidable (Apart table rule) :=
  inferInstanceAs (Decidable (∀ p ∈ rule.spelling.zip rule.spelling.tail, _ ∨ _))

theorem mem_zip_tail (a b : List Char) (x y : Char) :
    (x, y) ∈ (a ++ x :: y :: b).zip (a ++ x :: y :: b).tail := by
  induction a with
  | nil => simp
  | cons c a ih =>
      rcases a with _ | ⟨d, a⟩
      · simp
      · exact List.mem_cons_of_mem _ ih

theorem not_applies_inside (h : Apart table rule) {a b : List Char} {x y : Char}
    (hspelling : rule.spelling = a ++ x :: y :: b) (hbefore : place.before = some x)
    (hhead : place.rest.head? = some y) (hmem : other ∈ table) : other.applies place = false := by
  refine Bool.eq_false_iff.2 fun happlies => ?_
  obtain ⟨hbegins, hfree⟩ := applies_iff.1 happlies
  -- the match begins with the character at the place
  have hfirst : other.spelling.head? = some y := by
    obtain ⟨rest, hrest⟩ := hbegins
    cases hother : other.spelling with
    | nil => exact absurd hother other.spelling_ne_nil
    | cons c spelling =>
        rw [← hrest, hother] at hhead
        simpa using hhead
  rcases h (x, y) (hspelling ▸ mem_zip_tail a b x y) with ⟨hname, hanywhere⟩ | hnone
  · cases halone : other.standsAlone with
    | false => exact hanywhere other hmem halone hfirst
    | true => simpa [Cursor.freeBefore, hbefore, hname] using (hfree halone).1
  · exact hnone other hmem hfirst

theorem isNameChar_of_syllable {c : Char} (hfirst : 0xAC00 ≤ c.toNat) (hlast : c.toNat ≤ 0xD7A3) :
    isNameChar c = true := by
  have hmem : ⟨0xAC00, 0xD7A3⟩ ∈ alphanumericRanges := by decide +kernel
  have halnum : isAlphanumeric c = true := CodeRange.contains_iff.2 ⟨_, hmem, hfirst, hlast⟩
  simp [isNameChar, halnum]

/-- In the built-in table every place inside a spelling comes after a syllable, or no spelling goes on there. -/
theorem keywordTable_apart : ∀ rule ∈ keywordTable, Apart keywordTable rule := by
  have hinside : ∀ rule ∈ keywordTable, ∀ p ∈ rule.spelling.zip rule.spelling.tail,
      ((0xAC00 ≤ p.1.toNat ∧ p.1.toNat ≤ 0xD7A3) ∧
          ∀ other ∈ keywordTable, other.standsAlone = false → other.spelling.head? ≠ some p.2) ∨
        ∀ other ∈ keywordTable, other.spelling.head? ≠ some p.2 := by
    decide +kernel
  intro rule hrule p hp
  exact (hinside rule hrule p hp).imp_left fun h => ⟨isNameChar_of_syllable h.1.1 h.1.2, h.2⟩

/-! ## What is put in -/

/-- The replacement gives no rule of the table another place to match: no spelling begins inside it or goes on into it,
and an identifier touches it where one touches the spelling. -/
structure Settles (table : List Rule) (rule : Rule) : Prop where
  inside : ∀ other ∈ table, ∀ c ∈ rule.replacement, other.spelling.head? ≠ some c
  front : ∀ other ∈ table, ∀ c ∈ rule.replacement.head?, c ∉ other.spelling
  first : rule.replacement.head?.any isNameChar = rule.spelling.head?.any isNameChar
  last : rule.replacement.getLast?.any isNameChar = rule.spelling.getLast?.any isNameChar

theorem isNameChar_of_isAlpha {c : Char} (h : c.isAlpha = true) : isNameChar c = true := by
  have hupper : ⟨0x41, 0x5A⟩ ∈ alphanumericRanges := by decide +kernel
  have hlower : ⟨0x61, 0x7A⟩ ∈ alphanumericRanges := by decide +kernel
  have halnum : isAlphanumeric c = true := by
    rcases Bool.or_eq_true_iff.1 h with h | h
    · obtain ⟨hfirst, hlast⟩ : 65 ≤ c.val ∧ c.val ≤ 90 := of_decide_eq_true h
      exact CodeRange.contains_iff.2 ⟨_, hupper, hfirst, hlast⟩
    · obtain ⟨hfirst, hlast⟩ := (Bool.and_eq_true _ _).mp h
      exact CodeRange.contains_iff.2 ⟨_, hlower, of_decide_eq_true hfirst, of_decide_eq_true hlast⟩
  simp [isNameChar, halnum]

theorem keywordTable_spelling : ∀ rule ∈ keywordTable, ∀ c ∈ rule.spelling,
    (0xAC00 ≤ c.toNat ∧ c.toNat ≤ 0xD7A3) ∨ c = ' ' ∨ c = '.' := by
  have hall : ∀ rule ∈ keywordTable, rule.spelling.all
      (fun c => (0xAC00 ≤ c.toNat ∧ c.toNat ≤ 0xD7A3) ∨ c = ' ' ∨ c = '.') = true := by
    decide +kernel
  exact fun rule hrule c hc => of_decide_eq_true (List.all_eq_true.1 (hall rule hrule) c hc)

/-- Every spelling begins and ends with a syllable. -/
theorem keywordTable_ends : ∀ rule ∈ keywordTable,
    (∃ c, rule.spelling.head? = some c ∧ 0xAC00 ≤ c.toNat ∧ c.toNat ≤ 0xD7A3) ∧
      ∃ c, rule.spelling.getLast? = some c ∧ 0xAC00 ≤ c.toNat ∧ c.toNat ≤ 0xD7A3 := by
  have hall : ∀ rule ∈ keywordTable,
      rule.spelling.head?.any (fun c => 0xAC00 ≤ c.toNat ∧ c.toNat ≤ 0xD7A3) = true ∧
        rule.spelling.getLast?.any (fun c => 0xAC00 ≤ c.toNat ∧ c.toNat ≤ 0xD7A3) = true := by
    decide +kernel
  intro rule hrule
  simpa only [Option.any_eq_true, decide_eq_true_eq] using hall rule hrule

/-- Every replacement is of ASCII characters, with a letter at each end. -/
theorem keywordTable_settles : ∀ rule ∈ keywordTable, Settles keywordTable rule := by
  have hreplacement : ∀ rule ∈ keywordTable,
      rule.replacement.head?.any Char.isAlpha = true ∧ rule.replacement.getLast?.any Char.isAlpha = true := by
    decide +kernel
  have hall : ∀ rule ∈ keywordTable, rule.replacement.all (fun c => c.toNat < 0x80) = true := by
    decide +kernel
  have hascii : ∀ rule ∈ keywordTable, ∀ c ∈ rule.replacement, c.toNat < 0x80 := fun rule hrule c hc =>
    of_decide_eq_true (List.all_eq_true.1 (hall rule hrule) c hc)
  intro rule hrule
  obtain ⟨⟨c, hc, hfirst⟩, d, hd, hlast⟩ := keywordTable_ends rule hrule
  simp only [Option.any_eq_true] at hreplacement
  obtain ⟨⟨e, he, hfirst'⟩, f, hf, hlast'⟩ := hreplacement rule hrule
  constructor
  case inside =>
    intro other hother x hx hhead
    obtain ⟨⟨y, hy, hsyllable, -⟩, -⟩ := keywordTable_ends other hother
    obtain rfl : y = x := Option.some.inj (hy.symm.trans hhead)
    have := hascii rule hrule y hx
    omega
  case front =>
    intro other hother x hx hmem
    obtain rfl : e = x := Option.some.inj (he.symm.trans hx)
    have := hascii rule hrule e (List.mem_of_head? he)
    rcases keywordTable_spelling other hother e hmem with hsyllable | rfl | rfl
    · omega
    · cases hfirst'
    · cases hfirst'
  case first =>
    rw [hc, he, Option.any_some, Option.any_some, isNameChar_of_isAlpha hfirst',
      isNameChar_of_syllable hfirst.1 hfirst.2]
  case last =>
    rw [hd, hf, Option.any_some, Option.any_some, isNameChar_of_isAlpha hlast',
      isNameChar_of_syllable hlast.1 hlast.2]

instance (earlier later : Rule) : Decidable (YieldsTo earlier later) :=
  decidable_of_iff
    (earlier.spelling ≠ later.spelling ∧
      (earlier.spelling <+: later.spelling →
        earlier.standsAlone = true ∧ (later.spelling.drop earlier.spelling.length).head?.all isNameChar = true))
    (by
      refine and_congr_right fun hne => ⟨fun h c rest hlater => ?_, ?_⟩
      · have := h ⟨c :: rest, hlater.symm⟩
        simpa [hlater] using this
      · rintro h ⟨_ | ⟨c, rest⟩, hlater⟩
        · exact absurd (by simpa using hlater) hne
        · have := h c rest hlater.symm
          simpa [← hlater] using this)

theorem keywordTable_admissible : Admissible keywordTable := by
  unfold Admissible
  decide +kernel

end Rule

end HangulScript
