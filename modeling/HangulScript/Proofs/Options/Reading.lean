import HangulScript.Proofs.Json.Printing
import HangulScript.Proofs.Options.Members

/-!
# Options from JSON

An object is read as options by what its members say of the two choices. Their order and the other members do not count, and
the text of options is read as these options.
-/

namespace HangulScript.Options

open Json Text

variable {s : List Char} {members : List (List Nat × Datum)}

theorem takes_options_iff (options : Options) :
    (∃ found, Takes {} members found ∧ found.options = options) ↔
      (∀ member ∈ members, ∃ text, member.1 = units text) ∧ ∀ field, Chooses field members (options.get field) := by
  have hstart : ∀ field, ({} : Found).said field = [] := fun field => by cases field <;> rfl
  have hget : ∀ (found : Found) field, found.options.get field = (found.get? field).getD true := fun found field => by
    cases field <;> rfl
  constructor
  · rintro ⟨found, htakes, rfl⟩
    refine ⟨htakes.texts, fun field => ?_⟩
    have hsaid := htakes.said field
    rw [hstart, List.nil_append, Found.said] at hsaid
    rw [hget]
    cases hfound : found.get? field with
    | none => exact .omitted (by rw [hsaid, hfound]; rfl)
    | some b => exact .stated (by rw [hsaid, hfound]; rfl)
  · rintro ⟨htexts, hchooses⟩
    have hchoice : ∀ field, ∃ choice : Option Bool,
        said field members = choice.toList.map .bool ∧ choice.getD true = options.get field := by
      intro field
      have hfield := hchooses field
      generalize options.get field = b at hfield ⊢
      cases hfield with
      | omitted h => exact ⟨none, h, rfl⟩
      | stated h => exact ⟨some _, h, rfl⟩
    choose choice hsaid hoptions using hchoice
    refine ⟨⟨choice .keywords, choice .classMethods⟩, ⟨htexts, fun field => ?_⟩, ?_⟩
    · rw [hstart, List.nil_append, hsaid]
      cases field <;> rfl
    · rw [Found.options, hoptions, hoptions]
      rfl

theorem ofText_brace {rest : List Char} (h : skipSpace s = '{' :: rest) :
    ofText s = (readMembers true {} rest).bind fun read => (readEnd read.2).map fun _ => read.1.options := by
  rw [ofText, h]
  simp only [bind, Except.bind]
  cases readMembers true {} rest with
  | error e => rfl
  | ok read =>
      dsimp only
      cases readEnd read.2 <;> rfl

/-- An object is read as options if its names are texts and each choice is made once at most. -/
theorem ofText_eq_ok_iff (h : Spells s (.object members)) (options : Options) :
    ofText s = .ok options ↔
      (∀ member ∈ members, ∃ text, member.1 = units text) ∧ ∀ field, Chooses field members (options.get field) := by
  rw [← takes_options_iff]
  obtain ⟨rest, blank, hspace, hblank, hmembers⟩ : ∃ rest blank, skipSpace s = '{' :: rest ∧ IsBlank blank ∧
      ∀ read, readMembers true {} rest = .ok read ↔ Takes {} members read.1 ∧ read.2 = blank := by
    obtain @⟨before, value, blank, datum, hbefore, hvalue, hblank⟩ := h
    have hspace : skipSpace (before ++ (value ++ blank)) = value ++ blank :=
      (skipSpace_append hbefore _).trans (hvalue.skipSpace_append _)
    cases hvalue with
    | scalar h => cases h
    | @emptyObject inner hinner =>
        refine ⟨inner ++ '}' :: blank, blank, by rw [hspace]; simp, hblank, fun read => ?_⟩
        rw [readMembers_closing ((skipSpace_append hinner _).trans (skipSpace_cons (by decide) _)), takes_nil_iff,
          Except.ok.injEq, Prod.ext_iff, @eq_comm _ read.1, @eq_comm _ read.2]
    | @object inner _ h =>
        refine ⟨inner ++ '}' :: blank, blank, by rw [hspace]; simp, hblank, fun read => ?_⟩
        exact readMembers_eq_ok_iff h blank {} read
  have hend : readEnd blank = .ok () := by rw [readEnd, skipSpace_blank hblank, if_pos rfl]
  rw [ofText_brace hspace]
  constructor
  · intro hread
    cases hfound : readMembers true {} rest with
    | error e =>
        rw [hfound] at hread
        cases hread
    | ok read =>
        obtain ⟨htakes, hafter⟩ := (hmembers read).1 hfound
        rw [hfound, Except.bind, hafter, hend] at hread
        exact ⟨read.1, htakes, Except.ok.inj hread⟩
  · rintro ⟨found, htakes, rfl⟩
    rw [(hmembers (found, blank)).2 ⟨htakes, rfl⟩, Except.bind, hend]
    rfl

/-! ## The text of options -/

theorem spellsName_field (field : Field) : SpellsName ('"' :: (field.name ++ ['"', ':'])) (units field.name) := by
  have hname : field.name.flatMap escapeChar = field.name := by cases field <;> decide
  exact @SpellsName.intro [] field.name [] _ isBlank_nil (spellsUnits_of_unescaped hname) isBlank_nil

theorem spells_boolText (b : Bool) : Spells (boolText b) (.bool b) := by
  have hvalue : SpellsValue (boolText b) (.bool b) := by
    cases b
    · exact .scalar .false
    · exact .scalar .true
  have htext := @Spells.intro [] (boolText b) [] _ isBlank_nil hvalue isBlank_nil
  rwa [List.nil_append, List.append_nil] at htext

theorem spells_toText (options : Options) :
    Spells options.toText
      (.object [(units Field.keywords.name, .bool options.keywords),
        (units Field.classMethods.name, .bool options.classMethods)]) := by
  have hmembers := SpellsMembers.more (spellsName_field .keywords) (spells_boolText options.keywords)
    (.last (spellsName_field .classMethods) (spells_boolText options.classMethods))
  have htext := @Spells.intro [] _ [] _ isBlank_nil (SpellsValue.object hmembers) isBlank_nil
  rw [List.nil_append, List.append_nil] at htext
  simpa [toText, memberText] using htext

/-! ## What an object is read as -/

/-- Choices follow the members of an object, in whatever order and among whatever others. A choice made twice or not by
`true` or `false` is refused, and the text of options is read as these options. -/
theorem options_follow_members {s : List Char} {members : List (List Nat × Datum)} (h : Spells s (.object members)) :
    ((∀ member ∈ members, ∃ text, member.1 = units text) → (∀ field, ∃ b, Chooses field members b) →
      ∃ options, ofText s = .ok options ∧ (∀ field, Chooses field members (options.get field)) ∧
        ∀ {t : List Char} {others : List (List Nat × Datum)}, Spells t (.object others) →
          (∀ member ∈ others, ∃ text, member.1 = units text) → (∀ field, said field others = said field members) →
          ofText t = .ok options) ∧
    (∀ field, (1 < (said field members).length ∨ ∃ datum ∈ said field members, ∀ b, datum ≠ .bool b) →
      ∃ e, ofText s = .error e) ∧
    ∀ options : Options, ofText options.toText = .ok options := by
  refine ⟨fun htexts hchooses => ?_, fun field hfield => ?_, fun options => ?_⟩
  · choose choice hchoice using hchooses
    have hget : ∀ field, (Options.mk (choice .keywords) (choice .classMethods)).get field = choice field := fun field => by
      cases field <;> rfl
    refine ⟨⟨choice .keywords, choice .classMethods⟩, (ofText_eq_ok_iff h _).2 ⟨htexts, fun field => ?_⟩, fun field => ?_,
      fun hother hothers hsaid => (ofText_eq_ok_iff hother _).2 ⟨hothers, fun field => ?_⟩⟩
    · rw [hget]
      exact hchoice field
    · rw [hget]
      exact hchoice field
    · rw [hget, chooses_congr (hsaid field)]
      exact hchoice field
  · cases hread : ofText s with
    | error e => exact ⟨e, rfl⟩
    | ok options =>
        obtain ⟨-, hchooses⟩ := (ofText_eq_ok_iff h options).1 hread
        rcases said_of_chooses (hchooses field) with hsaid | ⟨b, hsaid⟩ <;> simp [hsaid] at hfield
  · refine (ofText_eq_ok_iff (spells_toText options) options).2 ⟨by simp, fun field => .stated ?_⟩
    rw [said_cons, said_name, said_name]
    cases field <;> rfl

/-- A choice under an escaped name, behind an array with a number beyond all doubles, an object with a member of that name,
and half of a pair of surrogates. -/
def nestedObject : List Char :=
  " \x7b\"x\": [1e400, \x7b\"keywords\": 0\x7d, \"\\ud800\"], \"k\\u0065ywords\":\tfalse ,\"x\":\x7b\x7d \x7d\n".toList

/-- What the members of `nestedObject` say, but for the items of the array. -/
def nestedMembers (items : List Datum) : List (List Nat × Datum) :=
  [(units ['x'], .array items), (units Field.keywords.name, .bool false), (units ['x'], .object [])]

theorem spells_nestedObject : ∃ items, Spells nestedObject (.object (nestedMembers items)) := by
  have hx : SpellsName "\"x\":".toList (units ['x']) :=
    @SpellsName.intro [] ['x'] [] _ isBlank_nil (spellsUnits_of_unescaped (by decide)) isBlank_nil
  have hescaped : SpellsName " \"k\\u0065ywords\":".toList (units Field.keywords.name) :=
    @SpellsName.intro [' '] "k\\u0065ywords".toList [] _ (by decide)
      (@SpellsUnits.char 'k' _ _ (by decide) (by decide) (by decide)
        (@SpellsUnits.code '0' '0' '6' '5' 0 0 6 5 _ _ (by decide) (by decide) (by decide) (by decide)
          (spellsUnits_of_unescaped (by decide : "ywords".toList.flatMap escapeChar = "ywords".toList)))) isBlank_nil
  have hkeywords : SpellsName "\"keywords\":".toList (units Field.keywords.name) := spellsName_field .keywords
  have hbig : SpellsValue "1e400".toList (.number (Numeral.value ⟨['1'], [], false, ['4', '0', '0']⟩)) :=
    .scalar (.number (@SpellsNumeral.intro ['1'] [] [] ['e', '4', '0', '0'] ['4', '0', '0'] false
      ⟨⟨by decide, by simp⟩, by decide⟩ .none (.plain (Or.inl rfl) ⟨by decide, by simp⟩)))
  have hzero : SpellsValue ['0'] (.number (Numeral.value ⟨['0'], [], false, []⟩)) :=
    .scalar (.number (@SpellsNumeral.intro ['0'] [] [] [] [] false ⟨⟨by decide, by simp⟩, by decide⟩ .none .none))
  have hhalf : SpellsValue "\"\\ud800\"".toList (.string [0xD800]) :=
    .scalar (.string (@SpellsUnits.code 'd' '8' '0' '0' 13 8 0 0 [] [] (by decide) (by decide) (by decide) (by decide)
      .nil))
  have hinner := SpellsValue.object (.last hkeywords (@Spells.intro [' '] _ [] _ (by decide) hzero isBlank_nil))
  have hitems := SpellsItems.more (@Spells.intro [] _ [] _ isBlank_nil hbig isBlank_nil)
    (.more (@Spells.intro [' '] _ [] _ (by decide) hinner isBlank_nil)
      (.last (@Spells.intro [' '] _ [] _ (by decide) hhalf isBlank_nil)))
  have hmembers := SpellsMembers.more hx (@Spells.intro [' '] _ [] _ (by decide) (.array hitems) isBlank_nil)
    (.more hescaped (@Spells.intro ['\t'] _ [' '] _ (by decide) (.scalar .false) (by decide))
      (.last hx (@Spells.intro [] _ [' '] _ isBlank_nil (@SpellsValue.emptyObject [] isBlank_nil) (by decide))))
  exact ⟨_, @Spells.intro [' '] _ ['\n'] _ (by decide) (.object hmembers) (by decide)⟩

/-- The same choice made twice. -/
def repeatedChoice : List Char :=
  '{' :: (memberText .keywords true ++ ',' :: memberText .keywords true ++ ['}'])

theorem spells_repeatedChoice :
    Spells repeatedChoice (.object [(units Field.keywords.name, .bool true), (units Field.keywords.name, .bool true)]) := by
  have hmembers := SpellsMembers.more (spellsName_field .keywords) (spells_boolText true)
    (.last (spellsName_field .keywords) (spells_boolText true))
  exact @Spells.intro [] _ [] _ isBlank_nil (SpellsValue.object hmembers) isBlank_nil

theorem options_follow_members_nestedObject :
    (∃ members, Spells nestedObject (.object members) ∧ (∀ member ∈ members, ∃ text, member.1 = units text) ∧
      (∀ field, ∃ b, Chooses field members b) ∧ ofText nestedObject = .ok ⟨false, true⟩) ∧
    (∃ members, Spells repeatedChoice (.object members) ∧ 1 < (said .keywords members).length ∧
      ∃ e, ofText repeatedChoice = .error e) ∧
    ∀ options : Options, ofText options.toText = .ok options := by
  obtain ⟨items, h⟩ := spells_nestedObject
  obtain ⟨hread, -, htext⟩ := options_follow_members h
  obtain ⟨-, hrefused, -⟩ := options_follow_members spells_repeatedChoice
  have hkeywords : Chooses .keywords (nestedMembers items) false := .stated rfl
  have hclassMethods : Chooses .classMethods (nestedMembers items) true := .omitted rfl
  have htexts : ∀ member ∈ nestedMembers items, ∃ text, member.1 = units text := by simp [nestedMembers]
  have hchooses : ∀ field, ∃ b, Chooses field (nestedMembers items) b := fun field => by
    cases field
    · exact ⟨false, hkeywords⟩
    · exact ⟨true, hclassMethods⟩
  obtain ⟨⟨keywords, classMethods⟩, hok, hoptions, -⟩ := hread htexts hchooses
  obtain rfl : keywords = false := chooses_unique (hoptions .keywords) hkeywords
  obtain rfl : classMethods = true := chooses_unique (hoptions .classMethods) hclassMethods
  exact ⟨⟨_, h, htexts, hchooses, hok⟩,
    ⟨_, spells_repeatedChoice, by decide, hrefused .keywords (Or.inl (by decide))⟩, htext⟩

end HangulScript.Options
