import Mathlib.Tactic.SplitIfs
import HangulScript.Proofs.Json.Grammar

/-!
# Reading tokens

The readers of blanks, strings and numbers take exactly what the grammar derives. A string is read as the text of its units,
and refused when they are those of no text.
-/

namespace HangulScript.Json

open Text

variable {c : Char} {s rest : List Char}

/-! ## Blanks -/

theorem isSpace_iff : isSpace c = true ↔ c ∈ [' ', '\n', '\r', '\t'] := by
  simp [isSpace, or_assoc]

theorem skipSpace_append (h : IsBlank s) (rest : List Char) : skipSpace (s ++ rest) = skipSpace rest :=
  List.dropWhile_append_of_pos fun c hc => isSpace_iff.2 (h c hc)

theorem skipSpace_blank (h : IsBlank s) : skipSpace s = [] := by
  rw [← List.append_nil s, skipSpace_append h]
  rfl

theorem skipSpace_cons (h : isSpace c = false) (rest : List Char) : skipSpace (c :: rest) = c :: rest :=
  List.dropWhile_cons_of_neg (by simp [h])

/-! ## Strings -/

theorem IsHexDigit.hexDigit? {n : Nat} (h : IsHexDigit c n) : hexDigit? c = some n := by
  have hall : ∀ n < 16, Json.hexDigit? (Nat.digitChar n) = some n ∧ Json.hexDigit? (Nat.digitChar n).toUpper = some n := by
    decide
  obtain ⟨hn, rfl | rfl⟩ := h
  · exact (hall n hn).1
  · exact (hall n hn).2

theorem hexValue?_of_isHexDigit {c₃ c₂ c₁ c₀ : Char} {n₃ n₂ n₁ n₀ : Nat} (h₃ : IsHexDigit c₃ n₃) (h₂ : IsHexDigit c₂ n₂)
    (h₁ : IsHexDigit c₁ n₁) (h₀ : IsHexDigit c₀ n₀) :
    hexValue? c₃ c₂ c₁ c₀ = some (((n₃ * 16 + n₂) * 16 + n₁) * 16 + n₀) := by
  rw [hexValue?, h₃.hexDigit?, h₂.hexDigit?, h₁.hexDigit?, h₀.hexDigit?]
  rfl

theorem escaped?_of_mem_escapes {letter c : Char} (h : (letter, c) ∈ escapes) : escaped? letter = some c ∧ letter ≠ 'u' :=
  (show ∀ pair ∈ escapes, escaped? pair.1 = some pair.2 ∧ pair.1 ≠ 'u' by decide) _ h

theorem skipString_append {units : List Nat} (h : SpellsUnits s units) (rest : List Char) :
    skipString (s ++ '"' :: rest) = .ok rest := by
  induction h with
  | nil => simp [skipString]
  | @char c s units hquote hescape hcontrol h ih =>
      rw [List.cons_append, skipString.eq_6, if_neg (Nat.not_lt.2 hcontrol), if_neg hquote, ih]
      all_goals simp [hescape]
  | escape hletter h ih =>
      obtain ⟨hescaped, hu⟩ := escaped?_of_mem_escapes hletter
      rw [List.cons_append, List.cons_append, skipString.eq_5, hescaped, Option.isSome_some, if_pos rfl, ih]
      all_goals simp [hu]
  | code h₃ h₂ h₁ h₀ h ih =>
      simp only [List.cons_append]
      rw [skipString, hexValue?_of_isHexDigit h₃ h₂ h₁ h₀, Option.isSome_some, if_pos rfl, ih]

theorem toOption_map {α β : Type} (x : Read α) (f : α → β) : (x.map f).toOption = x.toOption.map f := by
  cases x <;> rfl

/-- A string is read as the text of its units. `high` is the first half of a pair of surrogates that has just been read. -/
def ReadsAs (high : Option Nat) (s : List Char) (units : List Nat) : Prop :=
  ∀ rest, (readString high (s ++ '"' :: rest)).toOption = (textOfUnits? (high.toList ++ units)).map (·, rest)

variable {units : List Nat} {high : Option Nat}

/-- The spelling of a character is read as the character, and does not complete a pair. -/
theorem ReadsAs.charUnits_append (piece : List Char) (hhigh : ∀ unit ∈ high, isHighSurrogate unit = true)
    (hnone : ∀ after, readString none (piece ++ after) = (readString none after).map fun read => (c :: read.1, read.2))
    (hsome : ∀ unit after, readString (some unit) (piece ++ after) = .error .malformed) (h : ReadsAs none s units) :
    ReadsAs high (piece ++ s) (charUnits c ++ units) := by
  intro rest
  rw [List.append_assoc]
  cases high with
  | none =>
      have hrest : (readString none (s ++ '"' :: rest)).toOption = (textOfUnits? units).map (·, rest) := h rest
      rw [hnone, toOption_map, hrest, Option.toList_none, List.nil_append, textOfUnits?_charUnits_append, Option.map_map,
        Option.map_map]
      rfl
  | some unit =>
      rw [hsome, Option.toList_some, List.singleton_append,
        textOfUnits?_lone_high (hhigh unit rfl) (head?_charUnits_append c units)]
      rfl

/-- An escaped unit is a character of its own, the first half of a pair, or the second half if the first has been read. -/
theorem ReadsAs.code {c₃ c₂ c₁ c₀ : Char} {unit : Nat} (hhigh : ∀ unit ∈ high, isHighSurrogate unit = true)
    (hhex : hexValue? c₃ c₂ c₁ c₀ = some unit) (hunit : unit < 0x10000)
    (h : ∀ high, (∀ unit ∈ high, isHighSurrogate unit = true) → ReadsAs high s units) :
    ReadsAs high ('\\' :: 'u' :: c₃ :: c₂ :: c₁ :: c₀ :: s) (unit :: units) := by
  intro rest
  have hnone : (readString none (s ++ '"' :: rest)).toOption = (textOfUnits? units).map (·, rest) := h none (by simp) rest
  simp only [List.cons_append]
  cases high with
  | none =>
      rw [readString.eq_4 _ _ _ _ _ _ hhex, Option.toList_none, List.nil_append]
      split_ifs with hlow hfirst
      · rw [textOfUnits?_lone_low hlow]
        rfl
      · exact h (some unit) (by simp [hfirst]) rest
      · rw [toOption_map, hnone, textOfUnits?_basic (Bool.eq_false_iff.2 hfirst) (Bool.eq_false_iff.2 hlow) hunit,
          Option.map_map, Option.map_map]
        rfl
  | some first =>
      rw [readString.eq_3 _ _ _ _ _ _ _ hhex, Option.toList_some, List.singleton_append]
      split_ifs with hlow
      · rw [toOption_map, hnone, textOfUnits?_pair (hhigh first rfl) hlow, Option.map_map, Option.map_map]
        rfl
      · rw [textOfUnits?_lone_high (hhigh first rfl) (by simp [hlow])]
        rfl

theorem SpellsUnits.readsAs (h : SpellsUnits s units) (hhigh : ∀ unit ∈ high, isHighSurrogate unit = true) :
    ReadsAs high s units := by
  induction h generalizing high with
  | nil =>
      intro rest
      cases high with
      | none => simp [readString, textOfUnits?, Except.toOption]
      | some unit =>
          rw [Option.toList_some, List.append_nil, textOfUnits?_lone_high (hhigh unit rfl) (by simp)]
          simp [readString, Except.toOption]
  | @char c s units hquote hescape hcontrol h ih =>
      refine ReadsAs.charUnits_append [c] hhigh (fun after => ?_) (fun unit after => ?_) (ih (by simp))
      · rw [List.singleton_append, readString.eq_9, if_neg (by simp [hcontrol]), if_neg hquote]
        all_goals simp [hescape]
      · rw [List.singleton_append, readString.eq_9, if_pos (Or.inl Option.isSome_some)]
        all_goals simp [hescape]
  | @escape letter c s units hletter h ih =>
      obtain ⟨hescaped, hu⟩ := escaped?_of_mem_escapes hletter
      refine ReadsAs.charUnits_append ['\\', letter] hhigh (fun after => ?_) (fun unit after => ?_) (ih (by simp))
      · exact readString.eq_7 _ _ _ (by simp [hu]) hu hescaped
      · exact readString.eq_8 _ _ _ (by simp [hu]) hu (by simp)
  | code h₃ h₂ h₁ h₀ h ih =>
      refine ReadsAs.code hhigh (hexValue?_of_isHexDigit h₃ h₂ h₁ h₀) ?_ fun high hhigh => ih hhigh
      have hle : ∀ {c : Char} {n : Nat}, IsHexDigit c n → n < 16 := And.left
      have := hle h₃
      have := hle h₂
      have := hle h₁
      have := hle h₀
      omega

theorem SpellsUnits.readString_eq_ok_iff (h : SpellsUnits s units) (rest : List Char) (read : List Char × List Char) :
    readString none (s ++ '"' :: rest) = .ok read ↔ textOfUnits? units = some read.1 ∧ read.2 = rest := by
  have hnone : ReadsAs none s units := h.readsAs (by simp)
  have hread : (readString none (s ++ '"' :: rest)).toOption = (textOfUnits? units).map (·, rest) := hnone rest
  cases hstring : readString none (s ++ '"' :: rest) with
  | error e =>
      rw [hstring] at hread
      simp [Option.map_eq_none_iff.1 hread.symm]
  | ok other =>
      rw [hstring] at hread
      obtain ⟨text, htext, rfl⟩ := Option.map_eq_some_iff.1 hread.symm
      rw [htext, Except.ok.injEq, Prod.ext_iff, Option.some.injEq, @eq_comm _ read.2]

/-! ## Numbers -/

/-- The characters that may stand after a value. None begins with one of them. -/
def separators : List Char :=
  [' ', '\n', '\r', '\t', ',', ']', '}']

theorem not_isDigit_of_mem_separators (h : c ∈ separators) : c.isDigit = false :=
  (show ∀ c ∈ separators, c.isDigit = false by simp [separators]) c h

theorem mem_separators_of_blank (h : c ∈ [' ', '\n', '\r', '\t']) : c ∈ separators :=
  List.mem_append_left [',', ']', '}'] h

/-- What may stand after a value. -/
def Stops (rest : List Char) : Prop :=
  ∀ c ∈ rest.head?, c ∈ separators

/-- A number does not go on behind a value. -/
theorem Stops.head (h : Stops rest) (hc : rest.head? = some c) : c.isDigit = false ∧ c ≠ '.' ∧ c ≠ 'e' ∧ c ≠ 'E' :=
  (show ∀ c ∈ separators, c.isDigit = false ∧ c ≠ '.' ∧ c ≠ 'e' ∧ c ≠ 'E' by simp [separators]) c (h c hc)

theorem Stops.append (h : Stops rest) (hblank : IsBlank s) : Stops (s ++ rest) := by
  cases s with
  | nil => exact h
  | cons c s =>
      rintro _ ⟨⟩
      exact mem_separators_of_blank (hblank c (List.mem_cons_self ..))

theorem stops_nil : Stops [] := by
  simp [Stops]

theorem stops_cons (h : c ∈ separators) (rest : List Char) : Stops (c :: rest) := by
  rintro _ ⟨⟩
  exact h

theorem not_isSpace_of_notMem_separators (h : c ∉ separators) : isSpace c = false :=
  Bool.eq_false_iff.2 fun hspace => h (mem_separators_of_blank (isSpace_iff.1 hspace))

theorem spanDigits_append (hs : ∀ c ∈ s, c.isDigit = true) (hrest : ∀ c ∈ rest.head?, c.isDigit = false) :
    spanDigits (s ++ rest) = (s, rest) := by
  rw [spanDigits, List.takeWhile_append_of_pos hs, List.dropWhile_append_of_pos hs]
  cases rest with
  | nil => simp
  | cons c rest => simp [hrest c rfl]

theorem IsDigits.readDigits_append (h : IsDigits s) (short : Failure) (hrest : ∀ c ∈ rest.head?, c.isDigit = false) :
    readDigits short (s ++ rest) = .ok (s, rest) := by
  have hspan := spanDigits_append h.digit hrest
  obtain ⟨c, after, rfl⟩ := List.exists_cons_of_ne_nil h.ne_nil
  rw [List.cons_append] at hspan ⊢
  rw [readDigits, if_pos (h.digit c (List.mem_cons_self ..)), hspan]

theorem IsDigits.head? (h : IsDigits s) : ∃ c, s.head? = some c ∧ c.isDigit = true := by
  obtain ⟨c, after, rfl⟩ := List.exists_cons_of_ne_nil h.ne_nil
  exact ⟨c, rfl, h.digit c (List.mem_cons_self ..)⟩

theorem SpellsExponent.readExponent_append {power exponent : List Char} {negative : Bool}
    (h : SpellsExponent power negative exponent) (short : Failure) (whole fraction : List Char) (hrest : Stops rest) :
    readExponent short whole fraction (power ++ rest) = .ok (⟨whole, fraction, negative, exponent⟩, rest) := by
  have hdigits : ∀ {s : List Char}, IsDigits s → readDigits short (s ++ rest) = .ok (s, rest) := fun hs =>
    hs.readDigits_append short fun c hc => (hrest.head hc).1
  cases h with
  | none =>
      cases rest with
      | nil => rfl
      | cons c rest =>
          obtain ⟨-, -, he, hE⟩ := hrest.head rfl
          rw [List.nil_append, readExponent, if_neg (not_or.2 ⟨he, hE⟩)]
          rfl
  | @plain e s he h =>
      obtain ⟨c, hc, hdigit⟩ := h.head?
      have hhead : (exponent ++ rest).head? = some c := by rw [List.head?_append, hc]; rfl
      have hplus : c ≠ '+' := by rintro rfl; cases hdigit
      have hminus : c ≠ '-' := by rintro rfl; cases hdigit
      rw [List.cons_append, readExponent, if_pos he, hhead, if_neg (by simp [hplus, hminus]), hdigits h]
      simp [bind, Except.bind, pure, Except.pure, hminus]
  | plus he h =>
      rw [List.cons_append, readExponent, if_pos he, List.cons_append, List.head?_cons, if_pos (Or.inl rfl), List.tail_cons,
        hdigits h]
      rfl
  | minus he h =>
      rw [List.cons_append, readExponent, if_pos he, List.cons_append, List.head?_cons, if_pos (Or.inr rfl), List.tail_cons,
        hdigits h]
      rfl

theorem SpellsExponent.head? {power exponent : List Char} {negative : Bool} (h : SpellsExponent power negative exponent)
    (hrest : Stops rest) : ∀ c ∈ (power ++ rest).head?, c.isDigit = false ∧ c ≠ '.' := by
  have he : ∀ {e : Char}, e = 'e' ∨ e = 'E' → e.isDigit = false ∧ e ≠ '.' := by
    rintro _ (rfl | rfl) <;> decide
  intro c hc
  cases h with
  | none => exact ⟨(hrest.head hc).1, (hrest.head hc).2.1⟩
  | plain hletter | plus hletter | minus hletter =>
      cases hc
      exact he hletter

theorem SpellsNumeral.readNumeral_append {numeral : Numeral} (h : SpellsNumeral s numeral) (short : Failure)
    (hrest : Stops rest) : readNumeral short (s ++ rest) = .ok (numeral, rest) := by
  obtain @⟨whole, point, fraction, power, exponent, negative, hwhole, hfraction, hexponent⟩ := h
  have hzero : ¬ (whole.head? = some '0' ∧ whole ≠ ['0']) := fun hlong => hlong.2 (hwhole.zero hlong.1)
  have hbehind := hexponent.head? hrest
  have hpower := hexponent.readExponent_append short whole fraction hrest
  have hread : readDigits short (whole ++ (point ++ (power ++ rest))) = .ok (whole, point ++ (power ++ rest)) := by
    refine hwhole.readDigits_append short ?_
    cases hfraction with
    | none => exact fun c hc => (hbehind c hc).1
    | digits =>
        rintro _ ⟨⟩
        rfl
  rw [List.append_assoc, List.append_assoc, readNumeral, hread]
  simp only [bind, Except.bind, if_neg hzero]
  cases hfraction with
  | none =>
      rw [List.nil_append]
      split
      · next hpoint => exact absurd rfl (hbehind '.' (by rw [hpoint]; rfl)).2
      · exact hpower
  | digits hdigits =>
      have hdigits := hdigits.readDigits_append short fun c hc => (hbehind c hc).1
      simp only [List.cons_append, hdigits]
      exact hpower

end HangulScript.Json
