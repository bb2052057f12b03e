import HangulScript.Proofs.Json.Skipping
import HangulScript.Proofs.Options.Choices

/-!
# Reading members

The reader of members takes from each member what it says under its name, and nothing from what stands deeper in it.
-/

namespace HangulScript.Options

open Json Text

variable {field : Field} {name : List Nat} {datum : Datum} {found : Found} {first : Bool}
  {s key value blank rest : List Char}

/-! ## One member -/

/-- A value is a spelled choice, or begins as none does. -/
theorem bool_or_head (h : SpellsValue value datum) :
    (∃ b, datum = .bool b ∧ value = boolText b) ∨
      (∀ b, datum ≠ .bool b) ∧ ∃ c rest, value = c :: rest ∧ isSpace c = false ∧ c ≠ 't' ∧ c ≠ 'f' := by
  have hfirst : ∀ {c : Char} {rest}, (∀ b, datum ≠ .bool b) → value = c :: rest → c ≠ 't' → c ≠ 'f' →
      (∀ b, datum ≠ .bool b) ∧ ∃ c rest, value = c :: rest ∧ isSpace c = false ∧ c ≠ 't' ∧ c ≠ 'f' := by
    intro c rest hdatum hvalue htrue hfalse
    obtain ⟨first, others, hhead, hseparators⟩ := h.head
    obtain ⟨rfl, rfl⟩ := List.cons.inj (hvalue.symm.trans hhead)
    exact ⟨hdatum, c, rest, hvalue, not_isSpace_of_notMem_separators hseparators, htrue, hfalse⟩
  cases h with
  | scalar h =>
      cases h with
      | true => exact Or.inl ⟨true, rfl, rfl⟩
      | false => exact Or.inl ⟨false, rfl, rfl⟩
      | null | negative | string => exact Or.inr (hfirst nofun rfl (by decide) (by decide))
      | number h =>
          obtain ⟨c, rest, hvalue, hdigit⟩ := h.head
          refine Or.inr (hfirst nofun hvalue ?_ ?_)
          · rintro rfl
            cases hdigit
          · rintro rfl
            cases hdigit
  | emptyArray | array | emptyObject | object => exact Or.inr (hfirst nofun rfl (by decide) (by decide))

theorem readBool_error {c : Char} (hspace : skipSpace s = c :: rest) (htrue : c ≠ 't') (hfalse : c ≠ 'f') :
    ∃ e, readBool s = .error e := by
  rw [readBool, hspace]
  split
  · next heq => exact absurd (List.cons.inj heq).1 htrue
  · next heq => exact absurd (List.cons.inj heq).1 hfalse
  · exact ⟨_, rfl⟩
  · exact ⟨_, rfl⟩
  · cases readOther (c :: rest) <;> exact ⟨_, rfl⟩

theorem readBool_eq_ok_iff (h : SpellsValue value datum) (hblank : IsBlank blank) (rest : List Char)
    (read : Bool × List Char) :
    readBool (blank ++ (value ++ rest)) = .ok read ↔ datum = .bool read.1 ∧ read.2 = rest := by
  rcases bool_or_head h with ⟨b, rfl, rfl⟩ | ⟨hdatum, c, others, rfl, hspace, htrue, hfalse⟩
  · have hread : readBool (blank ++ (boolText b ++ rest)) = .ok (b, rest) := by
      rw [readBool, skipSpace_append hblank]
      cases b <;> rfl
    rw [hread, Except.ok.injEq, Datum.bool.injEq, Prod.ext_iff, @eq_comm _ rest]
  · have hbegin : skipSpace (blank ++ (c :: others ++ rest)) = c :: (others ++ rest) :=
      (skipSpace_append hblank _).trans (skipSpace_cons hspace _)
    obtain ⟨e, he⟩ := readBool_error hbegin htrue hfalse
    rw [he]
    exact ⟨nofun, fun hread => absurd hread.1 (hdatum _)⟩

theorem readColon_append (hblank : IsBlank blank) (rest : List Char) : readColon (blank ++ ':' :: rest) = .ok rest := by
  rw [readColon, skipSpace_append hblank, skipSpace_cons (by decide)]
  rfl

theorem readMember_name {colon : List Char} (hkey : readString none s = .ok (field.name, colon))
    (hcolon : readColon colon = .ok rest) :
    readMember found s =
      if (found.get? field).isSome then .error .wrongData
      else (readBool rest).map fun read => (found.set field read.1, read.2) := by
  simp only [readMember, hkey, bind, Except.bind, ofName?_name, hcolon]
  split_ifs
  · rfl
  · cases readBool rest <;> rfl

theorem readMember_other {text colon : List Char} (hkey : readString none s = .ok (text, colon))
    (hname : Field.ofName? text = none) (hcolon : readColon colon = .ok rest) :
    readMember found s = (skipValue rest).map (found, ·) := by
  simp only [readMember, hkey, bind, Except.bind, hname, hcolon]
  cases skipValue rest <;> rfl

/-- A member is read up to the blanks behind its value. -/
theorem readMember_eq_ok_iff {colon : List Char} (hkey : SpellsUnits key name) (hcolon : IsBlank colon)
    (hblank : IsBlank blank) (hvalue : SpellsValue value datum) (hrest : Stops rest) (found : Found)
    (read : Found × List Char) :
    readMember found (key ++ '"' :: (colon ++ ':' :: (blank ++ (value ++ rest)))) = .ok read ↔
      Takes found [(name, datum)] read.1 ∧ read.2 = rest := by
  have hstring := hkey.readString_eq_ok_iff (colon ++ ':' :: (blank ++ (value ++ rest)))
  have hafter := readColon_append hcolon (blank ++ (value ++ rest))
  cases hread : readString none (key ++ '"' :: (colon ++ ':' :: (blank ++ (value ++ rest)))) with
  | error e =>
      have herror : readMember found (key ++ '"' :: (colon ++ ':' :: (blank ++ (value ++ rest)))) = .error e := by
        rw [readMember, hread]
        rfl
      rw [herror]
      refine ⟨nofun, fun htakes => ?_⟩
      obtain ⟨text, htext⟩ := htakes.1.texts _ (List.mem_singleton_self _)
      rw [(hstring (text, _)).2 ⟨textOfUnits?_eq_some_iff.2 htext, rfl⟩] at hread
      cases hread
  | ok string =>
      obtain ⟨text, others⟩ := string
      obtain ⟨htext, rfl⟩ := (hstring _).1 hread
      obtain rfl : name = units text := textOfUnits?_eq_some_iff.1 htext
      cases hname : Field.ofName? text with
      | none =>
          have hskip : skipValue (blank ++ (value ++ rest)) = .ok rest := by
            rw [skipValue, skipFrom_congr (Or.inl rfl) (skipSpace_append hblank _)]
            exact hvalue.skipValue_append hrest
          rw [readMember_other hread hname hafter, hskip, takes_other_iff hname]
          simp only [Except.map, Except.ok.injEq, Prod.ext_iff, @eq_comm _ found, @eq_comm _ rest]
      | some field =>
          obtain rfl := ofName?_eq_some_iff.1 hname
          have hbool := readBool_eq_ok_iff hvalue hblank rest
          rw [readMember_name hread hafter, takes_name_iff]
          cases hfound : found.get? field with
          | some b => simp
          | none =>
              constructor
              · intro h
                obtain ⟨choice, hchoice, rfl⟩ := map_eq_ok h
                obtain ⟨hdatum, hrest⟩ := (hbool choice).1 hchoice
                exact ⟨⟨rfl, choice.1, hdatum, rfl⟩, hrest⟩
              · rintro ⟨⟨-, b, hdatum, hset⟩, hrest⟩
                rw [(hbool (b, rest)).2 ⟨hdatum, rfl⟩]
                exact congrArg Except.ok (Prod.ext hset.symm hrest.symm)

/-! ## All members -/

theorem readMembers_closing (h : skipSpace s = '}' :: rest) : readMembers first found s = .ok (found, rest) := by
  rw [readMembers]
  split <;> simp_all

theorem readMembers_member (h : skipSpace s = '"' :: rest) :
    readMembers true found s = (readMember found rest).bind fun read => readMembers false read.1 read.2 := by
  conv => lhs; rw [readMembers]
  split
  · simp_all
  · next c tail hspace =>
    obtain ⟨rfl, rfl⟩ := List.cons.inj (h.symm.trans hspace)
    simp only [Char.reduceEq, if_false, if_true]
    split <;> simp_all [Except.bind]

/-- After a comma a member is read as the first one is. -/
theorem readMembers_comma {t : List Char} (h : skipSpace s = ',' :: t) (hmember : skipSpace t = '"' :: rest) :
    readMembers false found s = readMembers true found t := by
  rw [readMembers_member hmember]
  conv => lhs; rw [readMembers]
  split
  · simp_all
  · next c tail hspace =>
    obtain ⟨rfl, rfl⟩ := List.cons.inj (h.symm.trans hspace)
    simp only [Char.reduceEq, Bool.false_eq_true, if_false, if_true]
    split
    · simp_all
    · next after hafter =>
      obtain rfl : after = rest := (List.cons.inj (hafter.symm.trans hmember)).2
      split <;> simp_all [Except.bind]
    · simp_all

theorem readMembers_congr {t : List Char} (h : skipSpace s = skipSpace t) :
    readMembers first found s = readMembers first found t := by
  rw [readMembers.eq_def, readMembers.eq_def _ _ t]
  generalize skipSpace s = a at h ⊢
  subst h
  rfl

theorem readMembers_append {start value : List Char} (hname : SpellsName start name) (h : Spells value datum)
    (hrest : Stops rest) (read : Found × List Char) :
    readMembers true found (start ++ (value ++ rest)) = .ok read ↔
      ∃ middle, Takes found [(name, datum)] middle ∧ readMembers false middle rest = .ok read := by
  obtain @⟨before, value, blank, datum, hbefore, hvalue, hblank⟩ := h
  obtain ⟨key, colon, hkey, hcolon, hspace⟩ := hname.skipSpace_append (before ++ (value ++ (blank ++ rest)))
  have hmember := readMember_eq_ok_iff hkey hcolon hbefore hvalue (hrest.append hblank) found
  have hgo : ∀ middle, readMembers false middle (blank ++ rest) = readMembers false middle rest := fun middle =>
    readMembers_congr (skipSpace_append hblank rest)
  rw [List.append_assoc, List.append_assoc, readMembers_member hspace]
  constructor
  · intro hread
    cases hfirst : readMember found (key ++ '"' :: (colon ++ ':' :: (before ++ (value ++ (blank ++ rest))))) with
    | error e =>
        rw [hfirst] at hread
        cases hread
    | ok middle =>
        obtain ⟨htakes, hafter⟩ := (hmember middle).1 hfirst
        rw [hfirst] at hread
        refine ⟨middle.1, htakes, ?_⟩
        rw [← hgo, ← hafter]
        exact hread
  · rintro ⟨middle, htakes, hread⟩
    rw [(hmember (middle, blank ++ rest)).2 ⟨htakes, rfl⟩, ← hread, ← hgo]
    rfl

theorem readMembers_eq_ok_iff {members : List (List Nat × Datum)} (h : SpellsMembers s members) (rest : List Char)
    (found : Found) (read : Found × List Char) :
    readMembers true found (s ++ '}' :: rest) = .ok read ↔ Takes found members read.1 ∧ read.2 = rest := by
  induction members generalizing s found with
  | nil => cases h
  | cons member members ih =>
      cases h with
      | last hname h =>
          have hend : ∀ middle : Found, readMembers false middle ('}' :: rest) = .ok (middle, rest) := fun middle =>
            readMembers_closing (skipSpace_cons (by decide) _)
          rw [List.append_assoc, readMembers_append hname h (stops_cons (by decide) _)]
          constructor
          · rintro ⟨middle, htakes, hread⟩
            cases (hend middle).symm.trans hread
            exact ⟨htakes, rfl⟩
          · rintro ⟨htakes, rfl⟩
            exact ⟨read.1, htakes, hend read.1⟩
      | @more start value others name datum _ hname h hothers =>
          obtain ⟨tail, htail⟩ := hothers.head ('}' :: rest)
          have hgo : ∀ middle : Found, readMembers false middle (',' :: (others ++ '}' :: rest)) =
              readMembers true middle (others ++ '}' :: rest) := fun middle =>
            readMembers_comma (skipSpace_cons (by decide) _) htail
          rw [List.append_assoc, List.append_assoc, List.cons_append,
            readMembers_append hname h (stops_cons (by decide) _), takes_cons_iff]
          constructor
          · rintro ⟨middle, htakes, hread⟩
            rw [hgo] at hread
            obtain ⟨hmore, hrest⟩ := (ih hothers middle).1 hread
            exact ⟨⟨middle, htakes, hmore⟩, hrest⟩
          · rintro ⟨⟨middle, htakes, hmore⟩, hrest⟩
            refine ⟨middle, htakes, ?_⟩
            rw [hgo]
            exact (ih hothers middle).2 ⟨hmore, hrest⟩

end HangulScript.Options
