import HangulScript.Json.Token

/-!
# UTF-16 units

A text as UTF-16 units, the form in which the strings of JSON spell it. Units spell at most one text, and none only where
half of a pair of surrogates stands alone.
-/

namespace HangulScript.Text

open Json (isHighSurrogate isLowSurrogate pairedChar)

/-- The UTF-16 units of a character: beyond the basic plane, a pair of surrogates. -/
def charUnits (c : Char) : List Nat :=
  if c.toNat < 0x10000 then [c.toNat]
  else [0xD800 + (c.toNat - 0x10000) / 0x400, 0xDC00 + (c.toNat - 0x10000) % 0x400]

/-- The UTF-16 units of a text. -/
def units (text : List Char) : List Nat :=
  text.flatMap charUnits

/-- The text that units spell, if no half of a pair of surrogates stands alone in them. -/
def textOfUnits? : List Nat → Option (List Char)
  | [] => some []
  | unit :: rest =>
    if isHighSurrogate unit then
      match rest with
      | [] => none
      | low :: rest => if isLowSurrogate low then (textOfUnits? rest).map (pairedChar unit low :: ·) else none
    else if isLowSurrogate unit ∨ 0x10000 ≤ unit then none
    else (textOfUnits? rest).map (Char.ofNat unit :: ·)

variable {c : Char} {text : List Char} {unit high low : Nat} {rest : List Nat}

theorem textOfUnits?_pair (hhigh : isHighSurrogate high = true) (hlow : isLowSurrogate low = true) :
    textOfUnits? (high :: low :: rest) = (textOfUnits? rest).map (pairedChar high low :: ·) := by
  rw [textOfUnits?.eq_def]
  simp [hhigh, hlow]

theorem textOfUnits?_lone_high (hhigh : isHighSurrogate high = true)
    (hrest : ∀ low ∈ rest.head?, isLowSurrogate low = false) :
    textOfUnits? (high :: rest) = none := by
  rw [textOfUnits?.eq_def]
  cases rest with
  | nil => simp [hhigh]
  | cons low rest => simp [hhigh, hrest low rfl]

theorem not_high_of_low (hlow : isLowSurrogate unit = true) : isHighSurrogate unit = false := by
  simp only [isLowSurrogate, isHighSurrogate, Bool.and_eq_true, decide_eq_true_eq, Bool.and_eq_false_iff,
    decide_eq_false_iff_not] at *
  omega

theorem textOfUnits?_lone_low (hlow : isLowSurrogate unit = true) : textOfUnits? (unit :: rest) = none := by
  rw [textOfUnits?.eq_def]
  simp [not_high_of_low hlow, hlow]

theorem textOfUnits?_basic (hhigh : isHighSurrogate unit = false) (hlow : isLowSurrogate unit = false)
    (hunit : unit < 0x10000) :
    textOfUnits? (unit :: rest) = (textOfUnits? rest).map (Char.ofNat unit :: ·) := by
  rw [textOfUnits?.eq_def]
  simp [hhigh, hlow, Nat.not_le.2 hunit]

/-! ## One character -/

theorem charUnits_basic (h : c.toNat < 0x10000) : charUnits c = [c.toNat] :=
  if_pos h

/-- A character is no half of a pair of surrogates. -/
theorem not_surrogate_toNat (c : Char) : isHighSurrogate c.toNat = false ∧ isLowSurrogate c.toNat = false := by
  have hvalid : c.toNat < 0xD800 ∨ 0xDFFF < c.toNat ∧ c.toNat < 0x110000 := c.valid
  simp only [isLowSurrogate, isHighSurrogate, Bool.and_eq_false_iff, decide_eq_false_iff_not]
  omega

theorem charUnits_pair (h : ¬ c.toNat < 0x10000) :
    ∃ high low, charUnits c = [high, low] ∧ isHighSurrogate high = true ∧ isLowSurrogate low = true ∧
      pairedChar high low = c := by
  have hvalid : c.toNat < 0xD800 ∨ 0xDFFF < c.toNat ∧ c.toNat < 0x110000 := c.valid
  refine ⟨_, _, if_neg h, ?_, ?_, ?_⟩
  · simp only [isHighSurrogate, Bool.and_eq_true, decide_eq_true_eq]
    omega
  · simp only [isLowSurrogate, Bool.and_eq_true, decide_eq_true_eq]
    omega
  · have hsum : (0xD800 + (c.toNat - 0x10000) / 0x400 - 0xD800) * 0x400 +
        (0xDC00 + (c.toNat - 0x10000) % 0x400 - 0xDC00) + 0x10000 = c.toNat := by omega
    rw [pairedChar, hsum, Char.ofNat_toNat]

theorem toNat_ofNat {n : Nat} (h : n.isValidChar) : (Char.ofNat n).toNat = n := by
  rw [Char.ofNat, dif_pos h]
  rfl

theorem charUnits_pairedChar (hhigh : isHighSurrogate high = true) (hlow : isLowSurrogate low = true) :
    charUnits (pairedChar high low) = [high, low] := by
  simp only [isHighSurrogate, isLowSurrogate, Bool.and_eq_true, decide_eq_true_eq] at hhigh hlow
  have hvalid : ((high - 0xD800) * 0x400 + (low - 0xDC00) + 0x10000).isValidChar := by
    refine Or.inr ⟨?_, ?_⟩ <;> omega
  have hnat : (pairedChar high low).toNat = (high - 0xD800) * 0x400 + (low - 0xDC00) + 0x10000 :=
    toNat_ofNat hvalid
  have hsplit : (high - 0xD800) * 0x400 + (low - 0xDC00) + 0x10000 - 0x10000 =
      0x400 * (high - 0xD800) + (low - 0xDC00) := by omega
  have hfirst : 0xD800 + (0x400 * (high - 0xD800) + (low - 0xDC00)) / 0x400 = high := by omega
  have hsecond : 0xDC00 + (0x400 * (high - 0xD800) + (low - 0xDC00)) % 0x400 = low := by omega
  rw [charUnits, hnat, if_neg (by omega), hsplit, hfirst, hsecond]

theorem charUnits_ofNat (hhigh : isHighSurrogate unit = false) (hlow : isLowSurrogate unit = false)
    (hunit : unit < 0x10000) :
    charUnits (Char.ofNat unit) = [unit] := by
  simp only [isHighSurrogate, isLowSurrogate, Bool.and_eq_false_iff, decide_eq_false_iff_not] at hhigh hlow
  have hvalid : unit.isValidChar := by
    by_cases hsmall : unit < 0xD800
    · exact Or.inl hsmall
    · exact Or.inr ⟨by omega, by omega⟩
  have hnat : (Char.ofNat unit).toNat = unit := toNat_ofNat hvalid
  rw [charUnits, hnat, if_pos hunit]

/-- The units of a character do not go on with a pair that stands open. -/
theorem head?_charUnits_append (c : Char) (rest : List Nat) :
    ∀ unit ∈ (charUnits c ++ rest).head?, isLowSurrogate unit = false := by
  by_cases h : c.toNat < 0x10000
  · rw [charUnits_basic h]
    rintro _ ⟨⟩
    exact (not_surrogate_toNat c).2
  · obtain ⟨high, low, hunits, hhigh, -, -⟩ := charUnits_pair h
    rw [hunits]
    rintro _ ⟨⟩
    exact Bool.eq_false_iff.2 fun hlow => by rw [not_high_of_low hlow] at hhigh; cases hhigh

theorem textOfUnits?_charUnits_append (c : Char) (rest : List Nat) :
    textOfUnits? (charUnits c ++ rest) = (textOfUnits? rest).map (c :: ·) := by
  by_cases h : c.toNat < 0x10000
  · obtain ⟨hhigh, hlow⟩ := not_surrogate_toNat c
    rw [charUnits_basic h, List.singleton_append, textOfUnits?_basic hhigh hlow h, Char.ofNat_toNat]
  · obtain ⟨high, low, hunits, hhigh, hlow, hchar⟩ := charUnits_pair h
    rw [hunits, ← hchar]
    exact textOfUnits?_pair hhigh hlow

/-! ## Texts -/

theorem textOfUnits?_units (text : List Char) : textOfUnits? (units text) = some text := by
  induction text with
  | nil => rfl
  | cons c text ih =>
      rw [units, List.flatMap_cons, textOfUnits?_charUnits_append, ← units, ih]
      rfl

theorem eq_units_of_textOfUnits? {all : List Nat} (h : textOfUnits? all = some text) : all = units text := by
  fun_induction textOfUnits? all generalizing text with
  | case1 =>
      cases h
      rfl
  | case2 | case4 | case5 => cases h
  | case3 high hhigh low rest hlow ih =>
      obtain ⟨after, hafter, rfl⟩ := Option.map_eq_some_iff.1 h
      rw [ih hafter, units, units, List.flatMap_cons, charUnits_pairedChar hhigh hlow]
      rfl
  | case6 unit rest hhigh hbasic ih =>
      obtain ⟨after, hafter, rfl⟩ := Option.map_eq_some_iff.1 h
      obtain ⟨hlow, hunit⟩ := not_or.1 hbasic
      rw [ih hafter, units, units, List.flatMap_cons,
        charUnits_ofNat (Bool.eq_false_iff.2 hhigh) (Bool.eq_false_iff.2 hlow) (Nat.lt_of_not_le hunit)]
      rfl

theorem textOfUnits?_eq_some_iff {all : List Nat} : textOfUnits? all = some text ↔ all = units text :=
  ⟨eq_units_of_textOfUnits?, fun h => h ▸ textOfUnits?_units text⟩

theorem units_inj {a b : List Char} : units a = units b ↔ a = b := by
  rw [← textOfUnits?_eq_some_iff, textOfUnits?_units, Option.some.injEq]

end HangulScript.Text
