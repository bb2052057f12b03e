import HangulScript.Proofs.Lexical.Grammar
import Mathlib.Tactic.SplitIfs

/-!
# What open regions demand

The regions that are open make a demand on the rest of the text: it has to lead out of each of them, from the innermost
one outwards. Here the demand is read off the grammar, from one character or two at the beginning of the text.
-/

namespace HangulScript

namespace Lexical

/-! ## The demand -/

/-- The text ends where the region is closed, and nowhere before. -/
def Ends : Region → List Char → Prop
  | .code, _ => False
  | .singleQuoted, text => StringTail '\'' text
  | .doubleQuoted, text => StringTail '"' text
  | .template, text => TemplateTail text
  | .hole depth, text => ∃ body, text = body ++ ['}'] ∧ Code (some (depth - 1)) body
  | .lineComment, text => LineTail text
  | .blockComment, text => BlockTail text

/-- The text closes the regions one after the other, and `P` holds of what is left. -/
def Closes (P : List Char → Prop) : List Region → List Char → Prop
  | [], text => P text
  | region :: outer, text => ∃ a b, text = a ++ b ∧ Ends region a ∧ Closes P outer b

variable {P : List Char → Prop} {region : Region} {outer next : List Region} {text rest : List Char} {c d : Char}
  {braces : Option Nat}

theorem not_ends_nil (region : Region) : ¬ Ends region [] := by
  cases region with
  | code => exact id
  | singleQuoted | doubleQuoted => exact not_stringTail_nil
  | template => exact not_templateTail_nil
  | hole depth =>
      rintro ⟨body, hbody, -⟩
      cases body <;> cases hbody
  | lineComment => exact not_lineTail_nil
  | blockComment => exact not_blockTail_nil

theorem closes_append (text : List Char) :
    Closes P (next ++ outer) text ↔ ∃ a b, text = a ++ b ∧ Closes (· = []) next a ∧ Closes P outer b := by
  induction next generalizing text with
  | nil =>
      constructor
      · exact fun h => ⟨[], text, rfl, rfl, h⟩
      · rintro ⟨a, b, rfl, rfl, h⟩
        exact h
  | cons region next ih =>
      constructor
      · rintro ⟨a, b, rfl, hends, h⟩
        obtain ⟨a', b', rfl, hnext, houter⟩ := (ih b).1 h
        exact ⟨a ++ a', b', by simp, ⟨a, a', rfl, hends, hnext⟩, houter⟩
      · rintro ⟨_, b, rfl, ⟨a, a', rfl, hends, hnext⟩, houter⟩
        exact ⟨a, a' ++ b, by simp, hends, (ih _).2 ⟨a', b, rfl, hnext, houter⟩⟩

theorem closes_singleton : Closes (· = []) [region] text ↔ Ends region text := by
  constructor
  · rintro ⟨a, b, rfl, hends, rfl⟩
    simpa using hends
  · exact fun h => ⟨text, [], by simp, h, rfl⟩

theorem closes_nil_iff : Closes (Code none) outer [] ↔ outer = [] := by
  cases outer with
  | nil => exact ⟨fun _ => rfl, fun _ => .top⟩
  | cons region outer =>
      constructor
      · rintro ⟨a, b, hnil, hends, -⟩
        obtain ⟨rfl, -⟩ := List.append_eq_nil_iff.1 hnil.symm
        exact absurd hends (not_ends_nil region)
      · exact fun h => absurd h (List.cons_ne_nil _ _)

/-- Where the region goes on as the regions `next` after a piece, the demand on the text goes over to the rest. -/
theorem closes_step (piece : List Char) (hshort : ∀ a, a <+: piece → a ≠ piece → ¬ Ends region a)
    (hstep : ∀ a b, rest = a ++ b → (Ends region (piece ++ a) ↔ Closes (· = []) next a)) :
    Closes P (region :: outer) (piece ++ rest) ↔ Closes P (next ++ outer) rest := by
  rw [closes_append]
  constructor
  · rintro ⟨a, b, htext, hends, houter⟩
    rcases List.append_eq_append_iff.1 htext with ⟨a', rfl, hrest⟩ | ⟨more, rfl, hrest⟩
    · exact ⟨a', b, hrest, (hstep a' b hrest).1 hends, houter⟩
    · cases more with
      | nil =>
          rw [List.append_nil] at hstep
          exact ⟨[], b, by simpa using hrest.symm, (hstep [] rest rfl).1 (by simpa using hends), houter⟩
      | cons x more => exact absurd hends (hshort a (List.prefix_append ..) (by simp))
  · rintro ⟨a, b, rfl, hnext, houter⟩
    exact ⟨piece ++ a, b, by simp, (hstep a b rfl).2 hnext, houter⟩

theorem closes_step_one (next : List Region)
    (hstep : ∀ a b, rest = a ++ b → (Ends region (c :: a) ↔ Closes (· = []) next a)) :
    Closes P (region :: outer) (c :: rest) ↔ Closes P (next ++ outer) rest := by
  refine closes_step [c] (fun a ha hne => ?_) hstep
  obtain rfl : a = [] := by
    rcases List.prefix_cons_iff.1 ha with rfl | ⟨t, rfl, ht⟩
    · rfl
    · exact absurd (by rw [List.prefix_nil.1 ht]) hne
  exact not_ends_nil region

theorem closes_step_two (next : List Region) (hfirst : ¬ Ends region [c])
    (hstep : ∀ a, Ends region (c :: d :: a) ↔ Closes (· = []) next a) :
    Closes P (region :: outer) (c :: d :: rest) ↔ Closes P (next ++ outer) rest := by
  refine closes_step [c, d] (fun a ha hne => ?_) fun a _ _ => hstep a
  rcases List.prefix_cons_iff.1 ha with rfl | ⟨t, rfl, ht⟩
  · exact not_ends_nil region
  · rcases List.prefix_cons_iff.1 ht with rfl | ⟨s, rfl, hs⟩
    · exact hfirst
    · exact absurd (by rw [List.prefix_nil.1 hs]) hne

/-! ## What opens a region in code -/

/-- The characters that open a region in code. -/
inductive Opens : List Char → Region → Prop
  | doubleQuoted : Opens ['"'] .doubleQuoted
  | singleQuoted : Opens ['\''] .singleQuoted
  | template : Opens ['`'] .template
  | lineComment : Opens ['/', '/'] .lineComment
  | blockComment : Opens ['/', '*'] .blockComment

theorem enclosed_iff :
    Enclosed text ↔ ∃ opening region a, Opens opening region ∧ text = opening ++ a ∧ Ends region a := by
  constructor
  · intro h
    cases h with
    | doubleQuoted h => exact ⟨_, _, _, .doubleQuoted, rfl, h⟩
    | singleQuoted h => exact ⟨_, _, _, .singleQuoted, rfl, h⟩
    | lineComment h => exact ⟨_, _, _, .lineComment, rfl, h⟩
    | blockComment h => exact ⟨_, _, _, .blockComment, rfl, h⟩
    | template h => exact ⟨_, _, _, .template, rfl, h⟩
  · rintro ⟨opening, region, a, hopen, rfl, h⟩
    cases hopen with
    | doubleQuoted => exact .doubleQuoted h
    | singleQuoted => exact .singleQuoted h
    | template => exact .template h
    | lineComment => exact .lineComment h
    | blockComment => exact .blockComment h

theorem Opens.unique {opening opening' x y : List Char} {region region' : Region} (h : Opens opening region)
    (h' : Opens opening' region') (heq : opening ++ x = opening' ++ y) : opening = opening' ∧ region = region' := by
  cases h <;> cases h' <;> simp_all

theorem Opens.not_plain {opening : List Char} (h : Opens opening region) (heq : opening ++ rest = c :: text) :
    ¬ Plain c text ∧ c ≠ '{' ∧ c ≠ '}' := by
  cases h <;> obtain ⟨rfl, rfl⟩ := List.cons.inj heq <;> simp [Plain]

theorem code_opens_iff {opening : List Char} (hopen : Opens opening region) :
    Code braces (opening ++ text) ↔ ∃ a b, text = a ++ b ∧ Ends region a ∧ Code braces b := by
  constructor
  · intro h
    obtain ⟨c, more, hcons⟩ : ∃ c more, opening ++ text = c :: more := by
      cases hopen <;> exact ⟨_, _, rfl⟩
    obtain ⟨hplain, hopening, hclosing⟩ := hopen.not_plain hcons
    rw [hcons] at h
    rcases h.uncons with
      ⟨hp, -⟩ | ⟨-, hbrace, -⟩ | ⟨_, -, hbrace, -⟩ | ⟨_, -, hbrace, -⟩ | ⟨whole, b, hwhole, henclosed, h⟩
    · exact absurd hp hplain
    · exact (hbrace.elim hopening hclosing).elim
    · exact absurd hbrace hopening
    · exact absurd hbrace hclosing
    · obtain ⟨opening', region', a, hopen', rfl, hends⟩ := enclosed_iff.1 henclosed
      rw [← hcons, List.append_assoc] at hwhole
      obtain ⟨rfl, rfl⟩ := hopen.unique hopen' hwhole
      exact ⟨a, b, List.append_cancel_left hwhole, hends, h⟩
  · rintro ⟨a, b, rfl, hends, h⟩
    rw [← List.append_assoc]
    exact .enclosed (enclosed_iff.2 ⟨opening, region, a, hopen, rfl, hends⟩) h

/-! ## What leads out of a hole or a template -/

theorem ends_hole_append {piece : List Char} {depth : Nat} (hpiece : '}' ∉ piece) :
    Ends (.hole depth) (piece ++ text) ↔ ∃ body, text = body ++ ['}'] ∧ Code (some (depth - 1)) (piece ++ body) := by
  constructor
  · rintro ⟨body, htext, hcode⟩
    rcases List.append_eq_append_iff.1 htext with ⟨more, rfl, rfl⟩ | ⟨more, rfl, hmore⟩
    · exact ⟨more, rfl, hcode⟩
    · rcases List.cons_eq_append_iff.1 hmore with ⟨rfl, rfl⟩ | ⟨_, rfl, -⟩
      · exact ⟨[], rfl, by simpa using hcode⟩
      · exact absurd (by simp) hpiece
  · rintro ⟨body, rfl, hcode⟩
    exact ⟨piece ++ body, by simp, hcode⟩

/-- What code does at a piece without braces, it does in a hole too. -/
theorem ends_hole_iff {depth : Nat} (piece : List Char) (next : List Region) (hpiece : '}' ∉ piece)
    (hcode : ∀ a b, rest = a ++ b → (Code (some (depth - 1)) (piece ++ a) ↔
      ∃ x y, a = x ++ y ∧ Closes (· = []) next x ∧ Code (some (depth - 1)) y))
    (a b : List Char) (hrest : rest = a ++ b) :
    Ends (.hole depth) (piece ++ a) ↔ Closes (· = []) (next ++ [.hole depth]) a := by
  rw [ends_hole_append hpiece, closes_append]
  constructor
  · rintro ⟨body, rfl, h⟩
    obtain ⟨x, y, rfl, hx, hy⟩ := (hcode body ('}' :: b) (by simpa using hrest)).1 h
    exact ⟨x, y ++ ['}'], by simp, hx, closes_singleton.2 ⟨y, rfl, hy⟩⟩
  · rintro ⟨x, _, rfl, hx, hy⟩
    obtain ⟨y, rfl, hbody⟩ := closes_singleton.1 hy
    exact ⟨x ++ y, by simp, (hcode (x ++ y) ('}' :: b) (by simpa using hrest)).2 ⟨x, y, rfl, hx, hbody⟩⟩

theorem ends_hole_opening {depth : Nat} (hdepth : depth ≠ 0) :
    Ends (.hole depth) ('{' :: text) ↔ Ends (.hole (depth + 1)) text := by
  have hcount : depth - 1 + 1 = depth := Nat.succ_pred hdepth
  rw [← List.singleton_append, ends_hole_append (by decide)]
  simp only [List.singleton_append, code_opening_iff, hcount]
  rfl

theorem ends_hole_closing_one : Ends (.hole 1) ('}' :: text) ↔ text = [] := by
  constructor
  · rintro ⟨body, hbody, hcode⟩
    rcases List.cons_eq_append_iff.1 hbody with ⟨rfl, hend⟩ | ⟨more, rfl, -⟩
    · simpa using hend
    · obtain ⟨m, hm, -⟩ := code_closing_iff.1 hcode
      cases hm
  · rintro rfl
    exact ⟨[], rfl, .balanced⟩

theorem ends_hole_closing {depth : Nat} :
    Ends (.hole (depth + 2)) ('}' :: text) ↔ Ends (.hole (depth + 1)) text := by
  constructor
  · rintro ⟨body, hbody, hcode⟩
    rcases List.cons_eq_append_iff.1 hbody with ⟨rfl, -⟩ | ⟨more, rfl, rfl⟩
    · cases code_nil_iff.1 hcode
    · obtain ⟨m, hm, h⟩ := code_closing_iff.1 hcode
      obtain rfl : depth = m := by simpa using hm
      exact ⟨more, rfl, h⟩
  · rintro ⟨body, rfl, hcode⟩
    exact ⟨'}' :: body, rfl, code_closing_iff.2 ⟨depth, rfl, hcode⟩⟩

theorem ends_hole_opens {opening : List Char} {depth : Nat} (hopen : Opens opening region) (hclose : '}' ∉ opening) :
    Ends (.hole depth) (opening ++ text) ↔ Closes (· = []) [region, .hole depth] text :=
  ends_hole_iff opening [region] hclose (fun a b _ => by simpa only [closes_singleton] using code_opens_iff hopen) text []
    (List.append_nil text).symm

theorem not_ends_hole_singleton {depth : Nat} (hc : c ≠ '}') : ¬ Ends (.hole depth) [c] := by
  rintro ⟨body, hbody, -⟩
  rcases List.cons_eq_append_iff.1 hbody with ⟨rfl, hend⟩ | ⟨_, rfl, hend⟩
  · exact hc (by simpa using hend.symm)
  · simp at hend

theorem ends_template_hole :
    Ends .template ('$' :: '{' :: text) ↔ Closes (· = []) [.hole 1, .template] text := by
  refine templateTail_hole_iff.trans ?_
  constructor
  · rintro ⟨body, after, rfl, hbody, h⟩
    exact ⟨body ++ ['}'], after, by simp, ⟨body, rfl, hbody⟩, closes_singleton.2 h⟩
  · rintro ⟨_, after, rfl, ⟨body, rfl, hbody⟩, h⟩
    exact ⟨body, after, by simp, hbody, closes_singleton.1 h⟩

end Lexical

end HangulScript
