import HangulScript.Region.Basic

/-!
# The lexical grammar

Which texts are code whose strings, comments and templates are all closed. The grammar knows nothing of the scan.
-/

namespace HangulScript

namespace Lexical

/-- The rest of a string after its opening quote. A backslash takes the next character along. -/
inductive StringTail (quote : Char) : List Char → Prop
  | close : StringTail quote [quote]
  | escape {c : Char} {text : List Char} (h : StringTail quote text) : StringTail quote ('\\' :: c :: text)
  | char {c : Char} {text : List Char} (hescape : c ≠ '\\') (hquote : c ≠ quote) (h : StringTail quote text) :
      StringTail quote (c :: text)

/-- The rest of a line comment, which its newline ends. -/
inductive LineTail : List Char → Prop
  | close : LineTail ['\n']
  | char {c : Char} {text : List Char} (hline : c ≠ '\n') (h : LineTail text) : LineTail (c :: text)

/-- The rest of a block comment, which the first `*/` ends. -/
inductive BlockTail : List Char → Prop
  | close : BlockTail ['*', '/']
  | char {c : Char} {text : List Char} (hend : ¬ (c = '*' ∧ text.head? = some '/')) (h : BlockTail text) :
      BlockTail (c :: text)

/-- A character of code that opens nothing and is no brace. A slash must not begin a comment with what follows. -/
def Plain (c : Char) (rest : List Char) : Prop :=
  c ∉ ['"', '\'', '`', '{', '}'] ∧ (c = '/' → rest.head? ≠ some '/' ∧ rest.head? ≠ some '*')

instance (c : Char) (rest : List Char) : Decidable (Plain c rest) :=
  inferInstanceAs (Decidable (_ ∧ (_ → _)))

mutual

/-- Code. At the top level (`none`) braces mean nothing; in a hole (`some n`) they are balanced after `n` more of them are
closed, and never more are closed than were opened. -/
inductive Code : Option Nat → List Char → Prop
  | top : Code none []
  | balanced : Code (some 0) []
  | plain {braces : Option Nat} {c : Char} {text : List Char} (hplain : Plain c text) (h : Code braces text) :
      Code braces (c :: text)
  | brace {c : Char} {text : List Char} (hbrace : c = '{' ∨ c = '}') (h : Code none text) : Code none (c :: text)
  | opening {n : Nat} {text : List Char} (h : Code (some (n + 1)) text) : Code (some n) ('{' :: text)
  | closing {n : Nat} {text : List Char} (h : Code (some n) text) : Code (some (n + 1)) ('}' :: text)
  | enclosed {braces : Option Nat} {region text : List Char} (hregion : Enclosed region) (h : Code braces text) :
      Code braces (region ++ text)

/-- A string, a comment or a template from its first character to its last. -/
inductive Enclosed : List Char → Prop
  | doubleQuoted {text : List Char} (h : StringTail '"' text) : Enclosed ('"' :: text)
  | singleQuoted {text : List Char} (h : StringTail '\'' text) : Enclosed ('\'' :: text)
  | lineComment {text : List Char} (h : LineTail text) : Enclosed ('/' :: '/' :: text)
  | blockComment {text : List Char} (h : BlockTail text) : Enclosed ('/' :: '*' :: text)
  | template {text : List Char} (h : TemplateTail text) : Enclosed ('`' :: text)

/-- The rest of a template after its opening backtick. A hole holds code in which the braces are balanced. -/
inductive TemplateTail : List Char → Prop
  | close : TemplateTail ['`']
  | escape {c : Char} {text : List Char} (h : TemplateTail text) : TemplateTail ('\\' :: c :: text)
  | char {c : Char} {text : List Char} (hescape : c ≠ '\\') (hclose : c ≠ '`')
      (hhole : ¬ (c = '$' ∧ text.head? = some '{')) (h : TemplateTail text) : TemplateTail (c :: text)
  | hole {body text : List Char} (hbody : Code (some 0) body) (h : TemplateTail text) :
      TemplateTail ('$' :: '{' :: (body ++ '}' :: text))

end

/-! ## Reading a tail from its first character -/

theorem not_stringTail_nil {quote : Char} : ¬ StringTail quote [] := nofun

theorem not_lineTail_nil : ¬ LineTail [] := nofun

theorem not_blockTail_nil : ¬ BlockTail [] := nofun

theorem not_templateTail_nil : ¬ TemplateTail [] := nofun

variable {quote c d : Char} {text rest : List Char} {braces : Option Nat}

theorem stringTail_char_iff (hescape : c ≠ '\\') (hquote : c ≠ quote) :
    StringTail quote (c :: text) ↔ StringTail quote text := by
  constructor
  · intro h
    cases h with
    | close => exact absurd rfl hquote
    | escape => exact absurd rfl hescape
    | char _ _ h => exact h
  · exact .char hescape hquote

theorem stringTail_quote_iff (hquote : quote ≠ '\\') : StringTail quote (quote :: text) ↔ text = [] := by
  constructor
  · intro h
    cases h with
    | close => rfl
    | escape => exact absurd rfl hquote
    | char _ hne _ => exact absurd rfl hne
  · rintro rfl
    exact .close

theorem stringTail_escape_iff (hquote : quote ≠ '\\') :
    StringTail quote ('\\' :: c :: text) ↔ StringTail quote text := by
  constructor
  · intro h
    cases h with
    | escape h => exact h
    | char hne _ _ => exact absurd rfl hne
  · exact .escape

theorem not_stringTail_backslash (hquote : quote ≠ '\\') : ¬ StringTail quote ['\\'] := by
  intro h
  cases h with
  | close => exact hquote rfl
  | char hne _ _ => exact hne rfl

theorem lineTail_char_iff (hline : c ≠ '\n') : LineTail (c :: text) ↔ LineTail text := by
  constructor
  · intro h
    cases h with
    | close => exact absurd rfl hline
    | char _ h => exact h
  · exact .char hline

theorem lineTail_newline_iff : LineTail ('\n' :: text) ↔ text = [] := by
  constructor
  · intro h
    cases h with
    | close => rfl
    | char hline _ => exact absurd rfl hline
  · rintro rfl
    exact .close

theorem blockTail_char_iff (hend : ¬ (c = '*' ∧ text.head? = some '/')) : BlockTail (c :: text) ↔ BlockTail text := by
  constructor
  · intro h
    cases h with
    | close => exact absurd ⟨rfl, rfl⟩ hend
    | char _ h => exact h
  · exact .char hend

theorem blockTail_end_iff : BlockTail ('*' :: '/' :: text) ↔ text = [] := by
  constructor
  · intro h
    cases h with
    | close => rfl
    | char hend _ => exact absurd ⟨rfl, rfl⟩ hend
  · rintro rfl
    exact .close

theorem templateTail_char_iff (hescape : c ≠ '\\') (hclose : c ≠ '`') (hhole : ¬ (c = '$' ∧ text.head? = some '{')) :
    TemplateTail (c :: text) ↔ TemplateTail text := by
  constructor
  · intro h
    cases h with
    | close => exact absurd rfl hclose
    | escape => exact absurd rfl hescape
    | char _ _ _ h => exact h
    | hole => exact absurd ⟨rfl, rfl⟩ hhole
  · exact .char hescape hclose hhole

theorem templateTail_close_iff : TemplateTail ('`' :: text) ↔ text = [] := by
  constructor
  · intro h
    cases h with
    | close => rfl
    | char _ hclose _ _ => exact absurd rfl hclose
  · rintro rfl
    exact .close

theorem templateTail_escape_iff : TemplateTail ('\\' :: c :: text) ↔ TemplateTail text := by
  constructor
  · intro h
    cases h with
    | escape h => exact h
    | char hescape _ _ _ => exact absurd rfl hescape
  · exact .escape

theorem templateTail_hole_iff :
    TemplateTail ('$' :: '{' :: text) ↔
      ∃ body after, text = body ++ '}' :: after ∧ Code (some 0) body ∧ TemplateTail after := by
  constructor
  · intro h
    cases h with
    | char _ _ hhole _ => exact absurd ⟨rfl, rfl⟩ hhole
    | hole hbody h => exact ⟨_, _, rfl, hbody, h⟩
  · rintro ⟨body, after, rfl, hbody, h⟩
    exact .hole hbody h

theorem not_templateTail_backslash : ¬ TemplateTail ['\\'] := by
  intro h
  cases h with
  | char hescape _ _ _ => exact hescape rfl

/-! ## Reading code from its first character -/

theorem Code.uncons (h : Code braces (c :: text)) :
    (Plain c text ∧ Code braces text) ∨ (braces = none ∧ (c = '{' ∨ c = '}') ∧ Code none text) ∨
      (∃ n, braces = some n ∧ c = '{' ∧ Code (some (n + 1)) text) ∨
      (∃ n, braces = some (n + 1) ∧ c = '}' ∧ Code (some n) text) ∨
      ∃ region rest, c :: text = region ++ rest ∧ Enclosed region ∧ Code braces rest := by
  obtain ⟨whole, hwhole⟩ : ∃ whole, c :: text = whole := ⟨_, rfl⟩
  rw [hwhole] at h
  cases h with
  | top | balanced => cases hwhole
  | plain hplain h =>
      cases hwhole
      exact Or.inl ⟨hplain, h⟩
  | brace hbrace h =>
      cases hwhole
      exact Or.inr (Or.inl ⟨rfl, hbrace, h⟩)
  | opening h =>
      cases hwhole
      exact Or.inr (Or.inr (Or.inl ⟨_, rfl, rfl, h⟩))
  | closing h =>
      cases hwhole
      exact Or.inr (Or.inr (Or.inr (Or.inl ⟨_, rfl, rfl, h⟩)))
  | enclosed hregion h => exact Or.inr (Or.inr (Or.inr (Or.inr ⟨_, _, hwhole, hregion, h⟩)))

theorem not_plain_brace (hbrace : c = '{' ∨ c = '}') : ¬ Plain c text := by
  rintro ⟨hmem, -⟩
  rcases hbrace with rfl | rfl <;> exact hmem (by decide)

theorem Enclosed.not_plain {region : List Char} (h : Enclosed region) (hwhole : c :: text = region ++ rest) :
    ¬ Plain c text ∧ c ≠ '{' ∧ c ≠ '}' := by
  cases h <;> obtain ⟨rfl, rfl⟩ := List.cons.inj hwhole <;> simp [Plain]

theorem code_nil_iff {n : Nat} : Code (some n) [] ↔ n = 0 := by
  constructor
  · intro h
    obtain ⟨whole, hwhole⟩ : ∃ whole : List Char, [] = whole := ⟨_, rfl⟩
    rw [hwhole] at h
    cases h with
    | balanced => rfl
    | plain | opening | closing => cases hwhole
    | enclosed hregion h => cases hregion <;> cases hwhole
  · rintro rfl
    exact .balanced

theorem code_plain_iff (hplain : Plain c text) : Code braces (c :: text) ↔ Code braces text := by
  constructor
  · intro h
    rcases h.uncons with ⟨-, h⟩ | ⟨-, hbrace, -⟩ | ⟨_, -, hbrace, -⟩ | ⟨_, -, hbrace, -⟩ | ⟨_, _, hwhole, hregion, -⟩
    · exact h
    · exact absurd hplain (not_plain_brace hbrace)
    · exact absurd hplain (not_plain_brace (Or.inl hbrace))
    · exact absurd hplain (not_plain_brace (Or.inr hbrace))
    · exact absurd hplain (hregion.not_plain hwhole).1
  · exact .plain hplain

theorem code_none_brace_iff (hbrace : c = '{' ∨ c = '}') : Code none (c :: text) ↔ Code none text := by
  constructor
  · intro h
    rcases h.uncons with ⟨hplain, -⟩ | ⟨-, -, h⟩ | ⟨_, hnone, -⟩ | ⟨_, hnone, -⟩ | ⟨_, _, hwhole, hregion, -⟩
    · exact absurd hplain (not_plain_brace hbrace)
    · exact h
    · cases hnone
    · cases hnone
    · obtain ⟨-, hopen, hclose⟩ := hregion.not_plain hwhole
      exact (hbrace.elim hopen hclose).elim
  · exact .brace hbrace

theorem code_opening_iff {n : Nat} : Code (some n) ('{' :: text) ↔ Code (some (n + 1)) text := by
  constructor
  · intro h
    rcases h.uncons with ⟨hplain, -⟩ | ⟨hnone, -⟩ | ⟨_, hn, -, h⟩ | ⟨_, -, hbrace, -⟩ | ⟨_, _, hwhole, hregion, -⟩
    · exact absurd hplain (not_plain_brace (Or.inl rfl))
    · cases hnone
    · cases hn
      exact h
    · exact absurd hbrace (by decide)
    · exact absurd rfl (hregion.not_plain hwhole).2.1
  · exact .opening

theorem code_closing_iff {n : Nat} : Code (some n) ('}' :: text) ↔ ∃ m, n = m + 1 ∧ Code (some m) text := by
  constructor
  · intro h
    rcases h.uncons with ⟨hplain, -⟩ | ⟨hnone, -⟩ | ⟨_, -, hbrace, -⟩ | ⟨m, hm, -, hrest⟩ | ⟨_, _, hwhole, hregion, -⟩
    · exact absurd hplain (not_plain_brace (Or.inr rfl))
    · cases hnone
    · exact absurd hbrace (by decide)
    · cases hm
      exact ⟨m, rfl, hrest⟩
    · exact absurd rfl (hregion.not_plain hwhole).2.2
  · rintro ⟨m, rfl, h⟩
    exact .closing h

end Lexical

end HangulScript
