import Mathlib.Tactic.Choose
import Mathlib.Tactic.SplitIfs
import HangulScript.Options.Reader
import HangulScript.Proofs.Json.Grammar

/-!
# Choices in the members of an object

What the members of an object say of the two choices, wherever they stand among others, and what each of them adds to what
was found before it.
-/

namespace HangulScript.Options

open Json Text

variable {field : Field} {datum : Datum} {member : List Nat × Datum} {members : List (List Nat × Datum)}
  {found middle after : Found}

/-- The choice that the options make in a field. -/
def get (options : Options) : Field → Bool
  | .keywords => options.keywords
  | .classMethods => options.classMethods

/-- What the members of an object say under the name of a field, in order. -/
def said (field : Field) (members : List (List Nat × Datum)) : List Datum :=
  (members.filter fun member => member.1 = units field.name).map Prod.snd

/-- What the members of an object make of a choice: on if they leave it out, else what they say once. -/
inductive Chooses (field : Field) (members : List (List Nat × Datum)) : Bool → Prop
  | omitted (h : said field members = []) : Chooses field members true
  | stated {b : Bool} (h : said field members = [.bool b]) : Chooses field members b

theorem said_of_chooses {b : Bool} (h : Chooses field members b) :
    said field members = [] ∨ ∃ b, said field members = [.bool b] := by
  cases h with
  | omitted h => exact Or.inl h
  | stated h => exact Or.inr ⟨_, h⟩

theorem chooses_unique {a b : Bool} (ha : Chooses field members a) (hb : Chooses field members b) : a = b := by
  cases ha with
  | omitted h => cases hb with
    | omitted => rfl
    | stated h' => cases h.symm.trans h'
  | stated h => cases hb with
    | omitted h' => cases h.symm.trans h'
    | stated h' =>
        cases h.symm.trans h'
        rfl

theorem chooses_congr {others : List (List Nat × Datum)} (h : said field others = said field members) {b : Bool} :
    Chooses field others b ↔ Chooses field members b := by
  have htransport : ∀ {a c : List (List Nat × Datum)},
      said field a = said field c → Chooses field a b → Chooses field c b := by
    intro a c hsaid hchooses
    cases hchooses with
    | omitted h => exact .omitted (hsaid.symm.trans h)
    | stated h => exact .stated (hsaid.symm.trans h)
  exact ⟨htransport h, htransport h.symm⟩

/-! ## What members add -/

/-- What was found as data. -/
def Found.said (found : Found) (field : Field) : List Datum :=
  (found.get? field).toList.map .bool

/-- Members take what was found before them to what is found after them. Their names are texts, and a choice is said once at
most. -/
structure Takes (found : Found) (members : List (List Nat × Datum)) (after : Found) : Prop where
  texts : ∀ member ∈ members, ∃ text, member.1 = units text
  said : ∀ field, found.said field ++ said field members = after.said field

theorem said_cons (field : Field) (member : List Nat × Datum) (members : List (List Nat × Datum)) :
    said field (member :: members) = said field [member] ++ said field members := by
  rw [← List.singleton_append, said, List.filter_append, List.map_append]
  rfl

theorem Found.ext_get? (h : ∀ field, found.get? field = after.get? field) : found = after := by
  obtain ⟨keywords, classMethods⟩ := found
  obtain ⟨keywords', classMethods'⟩ := after
  obtain rfl : keywords = keywords' := h .keywords
  obtain rfl : classMethods = classMethods' := h .classMethods
  rfl

theorem Found.ext_said (h : ∀ field, found.said field = after.said field) : found = after := by
  refine Found.ext_get? fun field => ?_
  have hfield := h field
  rw [Found.said, Found.said] at hfield
  cases hfound : found.get? field <;> cases hafter : after.get? field <;> simp_all

theorem takes_nil_iff : Takes found [] after ↔ after = found := by
  constructor
  · intro h
    exact (Found.ext_said fun field => (List.append_nil _).symm.trans (h.said field)).symm
  · rintro rfl
    exact ⟨List.forall_mem_nil _, fun field => List.append_nil _⟩

/-- What stands before a choice said once at most is said once at most. -/
theorem exists_found {before : Field → List Datum} (h : ∀ field, before field <+: after.said field) :
    ∃ found : Found, ∀ field, before field = found.said field := by
  have hone : ∀ field, ∃ choice : Option Bool, before field = choice.toList.map .bool := by
    intro field
    have hbegins := h field
    rw [Found.said] at hbegins
    cases hafter : after.get? field with
    | none =>
        rw [hafter] at hbegins
        exact ⟨none, List.prefix_nil.1 hbegins⟩
    | some b =>
        rw [hafter] at hbegins
        rcases List.prefix_concat_iff.1 (show before field <+: [] ++ [.bool b] from hbegins) with hall | hnone
        · exact ⟨some b, hall⟩
        · exact ⟨none, List.prefix_nil.1 hnone⟩
  choose choice hchoice using hone
  exact ⟨⟨choice .keywords, choice .classMethods⟩, fun field => by cases field <;> exact hchoice _⟩

theorem takes_cons_iff :
    Takes found (member :: members) after ↔ ∃ middle, Takes found [member] middle ∧ Takes middle members after := by
  constructor
  · intro h
    obtain ⟨hmember, hmembers⟩ := List.forall_mem_cons.1 h.texts
    have hsaid : ∀ field, (found.said field ++ said field [member]) ++ said field members = after.said field := by
      intro field
      rw [List.append_assoc, ← said_cons, h.said]
    obtain ⟨middle, hmiddle⟩ := exists_found fun field => ⟨_, hsaid field⟩
    exact ⟨middle, ⟨by simpa using hmember, hmiddle⟩, hmembers, fun field => by rw [← hmiddle, hsaid]⟩
  · rintro ⟨middle, hmember, hmembers⟩
    refine ⟨List.forall_mem_cons.2 ⟨hmember.texts member (List.mem_singleton_self _), hmembers.texts⟩, fun field => ?_⟩
    rw [said_cons, ← List.append_assoc, hmember.said, hmembers.said]

/-! ## What one member adds -/

theorem ofName?_name (field : Field) : Field.ofName? field.name = some field := by
  cases field <;> decide

theorem ofName?_eq_some_iff {text : List Char} : Field.ofName? text = some field ↔ text = field.name := by
  constructor
  · intro h
    rw [Field.ofName?] at h
    split_ifs at h with hkeywords hclassMethods
    · cases h
      exact hkeywords
    · cases h
      exact hclassMethods
  · rintro rfl
    exact ofName?_name field

/-- A member of another name says nothing of a choice. -/
theorem takes_other_iff {text : List Char} (hname : Field.ofName? text = none) :
    Takes found [(units text, datum)] after ↔ after = found := by
  have hsaid : ∀ field, said field [(units text, datum)] = [] := by
    intro field
    have hne : text ≠ field.name := fun heq => by rw [ofName?_eq_some_iff.2 heq] at hname; cases hname
    simp [said, units_inj, hne]
  rw [← takes_nil_iff]
  constructor
  · exact fun h => ⟨List.forall_mem_nil _, fun field => by rw [← h.said field, hsaid]; rfl⟩
  · exact fun h => ⟨by simp, fun field => by rw [← h.said field, hsaid]; rfl⟩

theorem said_name (field other : Field) (datum : Datum) :
    said other [(units field.name, datum)] = if field = other then [datum] else [] := by
  by_cases h : field = other
  · subst h
    simp [said]
  · have hne : field.name ≠ other.name := fun heq => h (Option.some.inj (by rw [← ofName?_name, heq, ofName?_name]))
    simp [said, units_inj, hne, h]

theorem get?_set (found : Found) (field other : Field) (b : Bool) :
    (found.set field b).get? other = if field = other then some b else found.get? other := by
  cases field <;> cases other <;> rfl

/-- A choice is taken if it is the first in its field. -/
theorem takes_name_iff :
    Takes found [(units field.name, datum)] after ↔
      found.get? field = none ∧ ∃ b, datum = .bool b ∧ after = found.set field b := by
  constructor
  · intro h
    have hfield := h.said field
    rw [said_name, if_pos rfl] at hfield
    cases hfound : found.get? field with
    | some b => cases hafter : after.get? field <;> simp [Found.said, hfound, hafter] at hfield
    | none =>
        cases hafter : after.get? field with
        | none => simp [Found.said, hfound, hafter] at hfield
        | some b =>
            refine ⟨rfl, b, by simpa [Found.said, hfound, hafter] using hfield, Found.ext_said fun other => ?_⟩
            rw [← h.said other, said_name]
            by_cases hother : field = other
            · subst hother
              simpa [Found.said, get?_set, hfound, hafter] using hfield
            · simp [Found.said, get?_set, hother]
  · rintro ⟨hnone, b, rfl, rfl⟩
    refine ⟨by simp, fun other => ?_⟩
    rw [said_name, Found.said, Found.said, get?_set]
    by_cases hother : field = other
    · subst hother
      simp [hnone]
    · simp [hother]

end HangulScript.Options
