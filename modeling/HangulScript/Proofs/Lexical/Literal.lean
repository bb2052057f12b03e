import HangulScript.Proofs.Conversion.Regions
import HangulScript.Proofs.Lexical.Hole

/-!
# Template literals

A template literal is text with holes of code in it. It is rewritten hole by hole: the text stays, and the code in each
hole becomes what it becomes on its own.
-/

namespace HangulScript

open Text

namespace Lexical

open Keywords

/-! ## Text and holes -/

/-- Text of a template between its holes: no backtick and no `$` with a brace, but a backslash takes any character. -/
inductive Chunk : List Char → Prop
  | nil : Chunk []
  | escape {c : Char} {text : List Char} (h : Chunk text) : Chunk ('\\' :: c :: text)
  | char {c : Char} {text : List Char} (hescape : c ≠ '\\') (hclose : c ≠ '`')
      (hhole : ¬ (c = '$' ∧ text.head? = some '{')) (h : Chunk text) : Chunk (c :: text)

structure Hole where
  body : List Char
  after : List Char
  code : Code (some 0) body
  chunk : Chunk after

/-- A template literal: the text before its first hole and the holes, each with the text after it. -/
structure Literal where
  first : List Char
  holes : List Hole
  chunk : Chunk first

/-- The hole with `f` done to its body, in its delimiters and with the text after it. -/
def Hole.render (f : List Char → List Char) (hole : Hole) : List Char :=
  '$' :: '{' :: (f hole.body ++ '}' :: hole.after)

def Literal.render (f : List Char → List Char) (literal : Literal) : List Char :=
  '`' :: (literal.first ++ (literal.holes.flatMap (Hole.render f) ++ ['`']))

def Literal.text (literal : Literal) : List Char :=
  literal.render id

variable {table : List Rule} {outer : List Region} {text rest out : List Char} {final : OpenRegions}

/-! ## Every template is a literal -/

theorem templateTail_chunk {chunk : List Char} (h : Chunk chunk) (hrest : rest.head? ≠ some '{') :
    TemplateTail (chunk ++ rest) ↔ TemplateTail rest := by
  induction h with
  | nil => rfl
  | escape _ ih => exact templateTail_escape_iff.trans ih
  | @char c text hescape hclose hhole _ ih =>
      refine (templateTail_char_iff hescape hclose ?_).trans ih
      rintro ⟨rfl, hhead⟩
      cases text with
      | nil => exact hrest hhead
      | cons d text => exact hhole ⟨rfl, hhead⟩

theorem head?_holes (holes : List Hole) : (holes.flatMap (Hole.render id) ++ ['`']).head? ≠ some '{' := by
  cases holes <;> simp [Hole.render]

theorem templateTail_holes (holes : List Hole) : TemplateTail (holes.flatMap (Hole.render id) ++ ['`']) := by
  induction holes with
  | nil => exact .close
  | cons hole holes ih =>
      rw [List.flatMap_cons, List.append_assoc]
      have htail := (templateTail_chunk hole.chunk (head?_holes holes)).2 ih
      simpa [Hole.render] using TemplateTail.hole hole.code htail

/-- Exactly the texts of literals are templates of the grammar. -/
theorem template_iff : TemplateTail text ↔ ∃ literal : Literal, literal.text = '`' :: text := by
  constructor
  · intro h
    induction hn : text.length using Nat.strongRecOn generalizing text with
    | ind n ih =>
        cases h with
        | close => exact ⟨⟨[], [], .nil⟩, rfl⟩
        | @escape c rest h =>
            have hlt : rest.length < n := by
              simp only [← hn, List.length_cons]
              omega
            obtain ⟨literal, hliteral⟩ := ih rest.length hlt h rfl
            have hrest := (List.cons.inj hliteral).2
            exact ⟨⟨'\\' :: c :: literal.first, literal.holes, .escape literal.chunk⟩,
              congrArg (fun text => '`' :: '\\' :: c :: text) hrest⟩
        | @char c rest hescape hclose hhole h =>
            have hlt : rest.length < n := by
              simp only [← hn, List.length_cons]
              omega
            obtain ⟨literal, hliteral⟩ := ih rest.length hlt h rfl
            have hrest := (List.cons.inj hliteral).2
            have hfirst : ¬ (c = '$' ∧ literal.first.head? = some '{') := by
              rintro ⟨rfl, hhead⟩
              obtain ⟨first, hfirst⟩ := List.head?_eq_some_iff.1 hhead
              exact hhole ⟨rfl, by simp [← hrest, hfirst]⟩
            exact ⟨⟨c :: literal.first, literal.holes, .char hescape hclose hfirst literal.chunk⟩,
              congrArg (fun text => '`' :: c :: text) hrest⟩
        | @hole body rest hbody h =>
            have hlt : rest.length < n := by
              simp only [← hn, List.length_cons, List.length_append]
              omega
            obtain ⟨literal, hliteral⟩ := ih rest.length hlt h rfl
            have hrest := (List.cons.inj hliteral).2
            refine ⟨⟨[], ⟨body, literal.first, hbody, literal.chunk⟩ :: literal.holes, .nil⟩, ?_⟩
            simp [Literal.text, Literal.render, Hole.render, ← hrest]
  · rintro ⟨literal, hliteral⟩
    rw [← (List.cons.inj hliteral).2]
    exact (templateTail_chunk literal.chunk (head?_holes _)).2 (templateTail_holes literal.holes)

/-! ## The scan of a template -/

theorem step_template_char {before : Option Char} {c : Char} (hescape : c ≠ '\\') (hclose : c ≠ '`')
    (hhole : ¬ (c = '$' ∧ rest.head? = some '{')) :
    (keywordPass table).step ⟨.template :: outer⟩ ⟨before, [c] ++ rest⟩ = (.copy [c], ⟨.template :: outer⟩) := by
  have hstep : step table ⟨.template :: outer⟩ ⟨before, c :: rest⟩ = templateStep ⟨.template :: outer⟩ (c :: rest) := rfl
  rw [keywordPass_step, List.singleton_append, hstep, templateStep_cons, if_neg hescape, if_neg hhole, if_neg hclose]

theorem leads_chunk {chunk : List Char} (h : Chunk chunk) (hrest : rest.head? ≠ some '{')
    (hlead : ∀ before, (keywordPass table).Leads ⟨.template :: outer⟩ ⟨before, rest⟩ out final) :
    ∀ before, (keywordPass table).Leads ⟨.template :: outer⟩ ⟨before, chunk ++ rest⟩ (chunk ++ out) final := by
  induction h with
  | nil => exact hlead
  | @escape c text h ih =>
      intro before
      exact .of_copy ['\\', c] rfl (List.cons_ne_nil _ _) (ih (some c))
  | @char c text hescape hclose hhole h ih =>
      intro before
      refine .of_copy [c] (step_template_char hescape hclose ?_) (List.cons_ne_nil _ _) (ih (some c))
      rintro ⟨rfl, hhead⟩
      cases text with
      | nil => exact hrest hhead
      | cons d text => exact hhole ⟨rfl, hhead⟩

theorem leads_hole (hplain : ∀ rule ∈ table, rule.Plain) (hole : Hole) (hrest : rest.head? ≠ some '{')
    (hlead : ∀ before, (keywordPass table).Leads ⟨.template :: outer⟩ ⟨before, rest⟩ out final) (before : Option Char) :
    (keywordPass table).Leads ⟨.template :: outer⟩ ⟨before, hole.render id ++ rest⟩
      (hole.render (fun body => ((keywordPass table).run body).output) ++ out) final := by
  have hchunk := leads_chunk hole.chunk hrest hlead (some '}')
  have hsound : (OpenRegions.bottom.inHole 1 []).Sound := by
    intro region hregion
    obtain rfl := List.mem_singleton.1 hregion
    simp
  have hclose : Closes (· = hole.after ++ rest) [.hole 1] (hole.body ++ '}' :: (hole.after ++ rest)) :=
    ⟨hole.body ++ ['}'], hole.after ++ rest, by simp, ⟨hole.body, rfl, hole.code⟩, rfl⟩
  have hfree : (some '{').any isNameChar = (none : Option Char).any isNameChar := by decide +kernel
  have hbody : (keywordPass table).Leads ⟨.hole 1 :: .template :: outer⟩
      ⟨some '{', hole.body ++ '}' :: (hole.after ++ rest)⟩
      (((keywordPass table).run hole.body).output ++ '}' :: (hole.after ++ out)) final :=
    leads_inHole hplain ((keywordPass table).leads_run hole.body) hsound hclose hfree hchunk
  have hstep : (keywordPass table).step ⟨.template :: outer⟩
      ⟨before, ['$', '{'] ++ (hole.body ++ '}' :: (hole.after ++ rest))⟩ =
        (.copy ['$', '{'], ⟨.hole 1 :: .template :: outer⟩) := rfl
  simpa [Hole.render] using Pass.Leads.of_copy ['$', '{'] hstep (List.cons_ne_nil _ _) hbody

theorem leads_holes (hplain : ∀ rule ∈ table, rule.Plain) (holes : List Hole) (before : Option Char) :
    (keywordPass table).Leads ⟨[.template]⟩ ⟨before, holes.flatMap (Hole.render id) ++ ['`']⟩
      (holes.flatMap (Hole.render fun body => ((keywordPass table).run body).output) ++ ['`']) .bottom := by
  induction holes generalizing before with
  | nil => exact .of_copy ['`'] rfl (List.cons_ne_nil _ _) (.done rfl)
  | cons hole holes ih =>
      rw [List.flatMap_cons, List.flatMap_cons, List.append_assoc, List.append_assoc]
      exact leads_hole hplain hole (head?_holes holes) ih before

theorem leads_literal (hplain : ∀ rule ∈ table, rule.Plain) (literal : Literal) :
    (keywordPass table).Leads .bottom (Cursor.start literal.text)
      (literal.render fun body => ((keywordPass table).run body).output) .bottom := by
  have hfirst := leads_chunk literal.chunk (head?_holes literal.holes) (leads_holes hplain literal.holes) (some '`')
  exact .of_copy ['`'] rfl (List.cons_ne_nil _ _) hfirst

theorem count_body_le {literal : Literal} {hole : Hole} (hmem : hole ∈ literal.holes) :
    hole.body.count '{' ≤ literal.text.count '{' := by
  obtain ⟨earlier, later, hholes⟩ := List.append_of_mem hmem
  simp only [Literal.text, Literal.render, hholes, List.flatMap_append, List.flatMap_cons, Hole.render, id_eq,
    List.count_cons, List.count_append]
  omega

/-- In a template literal the text between the holes stays, and the code in each hole becomes what it becomes on its own.
The scan ends with nothing open. -/
theorem literal_rewritten (literal : Literal) :
    let trace := (keywordPass keywordTable).run literal.text
    trace.output = literal.render keyed ∧ trace.final = .bottom ∧
      (literal.text.count '{' < Region.maxHoleDepth →
        traceKeywords keywordTable literal.text = .ok trace ∧
        replaceKeywords literal.text = .ok (literal.render keyed) ∧
        ∀ hole ∈ literal.holes, replaceKeywords hole.body = .ok (keyed hole.body)) := by
  obtain ⟨hout, hfinal⟩ := (leads_literal Rule.keywordTable_plain literal).unique
    ((keywordPass keywordTable).leads_run literal.text)
  refine ⟨hout.symm, hfinal.symm, fun hbraces => ⟨traceKeywords_ok keywordTable hbraces, ?_, fun hole hmem => ?_⟩⟩
  · rw [replaceKeywords_ok hbraces, keyed, ← hout]
  · exact replaceKeywords_ok (Nat.lt_of_le_of_lt (count_body_le hmem) hbraces)

/-- A template with an escaped backtick, a keyword in its text, a template in a hole and braces in another. -/
def nestedLiteral : Literal where
  first := ['함', '\\', '`', '$']
  holes :=
    [⟨['`', '$', '{', '참', '}', '`'], ['함', '수'],
      .enclosed (.template (.hole (.plain (by decide) .balanced) .close)) .balanced,
      .char (by decide) (by decide) (by decide) (.char (by decide) (by decide) (by decide) .nil)⟩,
    ⟨['{', '참', '}'], [], .opening (.plain (by decide) (.closing .balanced)), .nil⟩]
  chunk := .char (by decide) (by decide) (by decide) (.escape (.char (by decide) (by decide) (by decide) .nil))

theorem literal_rewritten_nested :
    nestedLiteral.text.count '{' < Region.maxHoleDepth ∧
      let trace := (keywordPass keywordTable).run nestedLiteral.text
      trace.output = nestedLiteral.render keyed ∧ trace.final = .bottom ∧
        traceKeywords keywordTable nestedLiteral.text = .ok trace ∧
        replaceKeywords nestedLiteral.text = .ok (nestedLiteral.render keyed) ∧
        ∀ hole ∈ nestedLiteral.holes, replaceKeywords hole.body = .ok (keyed hole.body) := by
  have hbraces : nestedLiteral.text.count '{' < Region.maxHoleDepth := by decide
  obtain ⟨hout, hfinal, hok⟩ := literal_rewritten nestedLiteral
  exact ⟨hbraces, hout, hfinal, hok hbraces⟩

example : keyed nestedLiteral.text = "`함\\`$$\x7b`$\x7btrue\x7d`\x7d함수$\x7b\x7btrue\x7d\x7d`".toList := by
  rw [keyed, Pass.run_eq_runWithin]
  decide +kernel

end Lexical

end HangulScript
