import HangulScript.Proofs.Lexical.Acceptance
import HangulScript.Proofs.Scan.Locality

/-!
# Code in a hole

The code in a hole is scanned as code at the top level is: the regions opened in it do not depend on where it stands, and
the braces around it bound a word as the edges of a text do.
-/

namespace HangulScript

open Text

/-! ## Regions inside a hole -/

namespace OpenRegions

/-- The regions of a text that stands in a hole of other regions. -/
def inHole (regions : OpenRegions) (depth : Nat) (outer : List Region) : OpenRegions :=
  ⟨regions.inner ++ .hole depth :: outer⟩

variable {regions : OpenRegions} {depth : Nat} {outer : List Region} {c d : Char}

theorem holdsCode_inHole : (regions.inHole depth outer).innermost.holdsCode = regions.innermost.holdsCode := by
  rcases regions with ⟨_ | ⟨region, inner⟩⟩ <;> rfl

theorem afterPair?_inHole :
    (regions.inHole depth outer).afterPair? c d = (regions.afterPair? c d).map (·.inHole depth outer) := by
  rcases regions with ⟨_ | ⟨region, inner⟩⟩
  · rw [Keywords.afterPair?_of_holdsCode rfl, Keywords.afterPair?_of_holdsCode rfl]
    split_ifs <;> rfl
  · cases region <;> simp only [afterPair?, inHole, innermost, List.cons_append, List.headD_cons]
    all_goals first
      | rfl
      | split_ifs <;> rfl

theorem opening_inHole : (regions.inHole depth outer).opening c = (regions.opening c).inHole depth outer := by
  unfold opening
  split_ifs <;> rfl

/-- A character does the same in the hole, unless it is the brace that closes it; a brace at the bottom is counted. -/
theorem after_inHole (hclose : regions = .bottom → c = '}' → 2 ≤ depth) :
    ∃ depth', ∀ outer, (regions.inHole depth outer).after c = (regions.after c).inHole depth' outer := by
  rcases regions with ⟨_ | ⟨region, inner⟩⟩
  · by_cases hopening : c = '{'
    · subst hopening
      exact ⟨depth + 1, fun _ => rfl⟩
    by_cases hclosing : c = '}'
    · subst hclosing
      match depth, hclose rfl rfl with
      | depth + 2, _ => exact ⟨depth + 1, fun _ => rfl⟩
    · refine ⟨depth, fun outer => ?_⟩
      have hcode : (OpenRegions.mk []).after c = (OpenRegions.mk []).opening c := rfl
      rw [hcode, ← opening_inHole]
      simp [after, inHole, innermost, hopening, hclosing]
  · refine ⟨depth, fun outer => ?_⟩
    cases region with
    | code => exact @opening_inHole ⟨.code :: inner⟩ depth outer c
    | hole n =>
        have hopen := @opening_inHole ⟨.hole n :: inner⟩ depth outer c
        simp only [after, innermost, inHole, List.cons_append, List.headD_cons] at hopen ⊢
        split_ifs
        · rfl
        · by_cases hzero : n - 1 = 0 <;> simp [closing, countClosing, holeDepth?, pop, hzero]
        · exact hopen
    | blockComment => rfl
    | singleQuoted | doubleQuoted | template | lineComment =>
        simp only [after, innermost, inHole, List.cons_append, List.headD_cons]
        split_ifs <;> rfl

theorem pairing?_inHole (rest : List Char) :
    (regions.inHole depth outer).pairing? c rest = (regions.pairing? c rest).map (·.inHole depth outer) := by
  cases rest with
  | nil => rfl
  | cons d rest => exact afterPair?_inHole

end OpenRegions

namespace Lexical

open Keywords

variable {table : List Rule} {regions : OpenRegions} {region : Region} {outer rs : List Region} {depth : Nat}
  {body text rest u out tail : List Char} {c d : Char} {final last : OpenRegions} {before : Option Char} {place : Cursor}

/-! ## What is left to read -/

theorem length_closes (h : Closes (· = u) rs text) : rs.length + u.length ≤ text.length := by
  induction rs generalizing text with
  | nil =>
      cases h
      simp
  | cons region rs ih =>
      obtain ⟨a, b, rfl, hends, hclose⟩ := h
      have hpos : 0 < a.length := List.length_pos_iff.2 fun hnil => not_ends_nil region (hnil ▸ hends)
      have := ih hclose
      simp only [List.length_cons, List.length_append]
      omega

theorem closes_of_plain {P : List Char → Prop} (hsound : regions.Sound) (hbottom : regions = .bottom → P = Code none)
    {piece : List Char} (hplain : ∀ c ∈ piece, marksRegion c = false) :
    Closes P regions.inner (piece ++ rest) ↔ Closes P regions.inner rest := by
  induction piece with
  | nil => rfl
  | cons c piece ih =>
      have hmark := hplain c List.mem_cons_self
      have hpair : regions.pairing? c (piece ++ rest) = none :=
        regions.pairing?_of_not_takesNext _ (takesNext_of_not_marksRegion hmark)
      have hafter := closes_after hsound hbottom hpair
      rw [OpenRegions.after_of_not_marksRegion hmark] at hafter
      exact hafter.trans (ih fun d hd => hplain d (List.mem_cons_of_mem c hd))

theorem inHole_ne_bottom : regions.inHole depth outer ≠ .bottom := fun h => by
  have := congrArg (fun r : OpenRegions => r.inner.length) h
  simp [OpenRegions.inHole, OpenRegions.bottom] at this

/-- Where only the closing brace of the hole is left, nothing else is open. -/
theorem bottom_of_closes (hsound : (regions.inHole depth []).Sound)
    (h : Closes (· = u) (regions.inHole depth []).inner ('}' :: u)) : regions = .bottom ∧ depth = 1 := by
  have hlen := length_closes h
  simp only [OpenRegions.inHole, List.length_append, List.length_cons, List.length_nil] at hlen
  have hnil : regions.inner = [] := List.eq_nil_of_length_eq_zero (by omega)
  obtain rfl : regions = .bottom := congrArg OpenRegions.mk hnil
  have hpos : depth ≠ 0 := fun hzero => (hsound (.hole depth) List.mem_cons_self).2 (by rw [hzero])
  have hpair : (OpenRegions.bottom.inHole depth []).pairing? '}' u = none :=
    OpenRegions.pairing?_of_not_takesNext _ (by decide)
  have hclose := (closes_after hsound (fun h => absurd h inHole_ne_bottom) hpair).1 h
  match depth, hpos with
  | 1, _ => exact ⟨rfl, rfl⟩
  | depth + 2, _ =>
      -- one brace less is open, and no text is left for it
      have hrest : [Region.hole (depth + 1)].length + u.length ≤ u.length := length_closes hclose
      rw [List.length_singleton] at hrest
      omega

/-! ## A hole -/

theorem step_inHole_nil (hrest : place.rest ≠ []) (hsound : (regions.inHole depth []).Sound)
    (hclose : Closes (· = u) (regions.inHole depth []).inner (place.rest ++ '}' :: u)) :
    ∃ depth', ∀ outer before, step [] (regions.inHole depth outer) ⟨before, place.rest ++ '}' :: u⟩ =
      ((step [] regions place).1, (step [] regions place).2.inHole depth' outer) := by
  have hbottom : regions.inHole depth [] = .bottom → (· = u) = Code none := fun h => absurd h inHole_ne_bottom
  rcases step_nil_cases regions hrest with ⟨c, rest, hplace, hpair, hstep⟩ | ⟨c, d, rest, next, hplace, hpair, hstep⟩
  · rw [hplace, List.cons_append] at hclose
    -- a character that would take the closing brace along leaves no text for the hole
    have hpair' : regions.pairing? c (rest ++ '}' :: u) = none := by
      cases rest with
      | cons d rest => exact hpair
      | nil =>
          refine Option.eq_none_iff_forall_not_mem.2 fun next hnext => ?_
          have hafter : (regions.inHole depth []).afterPair? c '}' = some (next.inHole depth []) := by
            have hnext : regions.afterPair? c '}' = some next := hnext
            rw [OpenRegions.afterPair?_inHole, hnext]
            rfl
          have hlen := length_closes ((closes_afterPair hsound hbottom hafter).1 hclose)
          simp only [OpenRegions.inHole, List.length_append, List.length_cons] at hlen
          omega
    have hpairIn : ∀ outer, (regions.inHole depth outer).pairing? c (rest ++ '}' :: u) = none := fun outer => by
      rw [OpenRegions.pairing?_inHole, hpair']
      rfl
    have hbrace : regions = .bottom → c = '}' → 2 ≤ depth := by
      rintro rfl rfl
      have hpos : depth ≠ 0 := fun hzero => (hsound (.hole depth) List.mem_cons_self).2 (by rw [hzero])
      have hnext := (closes_after hsound hbottom (hpairIn [])).1 hclose
      match depth, hpos with
      | 1, _ =>
          have hnil : rest ++ '}' :: u = u := hnext
          have hlen := congrArg List.length hnil
          simp only [List.length_append, List.length_cons] at hlen
          omega
      | depth + 2, _ => exact Nat.le_add_left ..
    obtain ⟨depth', hafter⟩ := OpenRegions.after_inHole hbrace
    refine ⟨depth', fun outer before => ?_⟩
    rw [hplace, List.cons_append, step_nil_cons, hpairIn, hstep, hafter]
  · refine ⟨depth, fun outer before => ?_⟩
    have hpairIn : (regions.inHole depth outer).pairing? c (d :: (rest ++ '}' :: u)) =
        some (next.inHole depth outer) := by
      have hnext : regions.pairing? c (d :: (rest ++ '}' :: u)) = some next := hpair
      rw [OpenRegions.pairing?_inHole, hnext]
      rfl
    rw [hplace, List.cons_append, List.cons_append, step_nil_cons, hpairIn, hstep]
    rfl

/-- A step over code does the same where the code stands in a hole. -/
theorem step_inHole (hplain : ∀ rule ∈ table, rule.Plain) (hrest : place.rest ≠ [])
    (hsound : (regions.inHole depth []).Sound)
    (hclose : Closes (· = u) (regions.inHole depth []).inner (place.rest ++ '}' :: u)) :
    ∃ depth', ∀ outer before, before.any isNameChar = place.before.any isNameChar →
      step table (regions.inHole depth outer) ⟨before, place.rest ++ '}' :: u⟩ =
        ((step table regions place).1, (step table regions place).2.inHole depth' outer) := by
  have hname : isNameChar '}' = false := by decide +kernel
  rcases step_append_stop (m := '}') hplain hname (notMem_spelling hplain rfl) with ⟨rule, hstep, hin⟩ | ⟨hstep, hin⟩
  · refine ⟨depth, fun outer before hfree => ?_⟩
    rw [hin _ before u OpenRegions.holdsCode_inHole hfree, hstep]
  · obtain ⟨depth', hnil⟩ := step_inHole_nil hrest hsound hclose
    refine ⟨depth', fun outer before hfree => ?_⟩
    rw [hin _ before u OpenRegions.holdsCode_inHole hfree, hnil, hstep]

/-- A step with a table keeps the demand of the open regions, as the scan of the regions does. -/
theorem closes_table_step {P : List Char → Prop} (hplain : ∀ rule ∈ table, rule.Plain) (hsound : regions.Sound)
    (hbottom : regions = .bottom → P = Code none) (before : Option Char) (htext : text ≠ []) :
    (step table regions ⟨before, text⟩).2.Sound ∧
      (Closes P regions.inner text ↔
        Closes P (step table regions ⟨before, text⟩).2.inner
          (text.drop (step table regions ⟨before, text⟩).1.consumed.length)) := by
  rcases step_cases table regions ⟨before, text⟩ with ⟨rule, -, hrule, hstep⟩ | ⟨-, hstep⟩
  · obtain ⟨rest, rfl⟩ : rule.spelling <+: text := Rule.spelling_prefix (Rule.applies_of_firstMatch? hrule)
    rw [hstep]
    refine ⟨hsound, ?_⟩
    rw [Edit.consumed, List.nil_append, List.drop_left]
    exact closes_of_plain hsound hbottom (hplain rule (Rule.mem_of_firstMatch? hrule)).1
  · have htext : (Cursor.mk before text).rest ≠ [] := htext
    rw [hstep]
    exact ⟨sound_scan_step hsound htext, closes_scan_step hsound hbottom htext⟩

theorem step_closing_brace (table : List Rule) (outer : List Region) (before : Option Char) (u : List Char) :
    step table ⟨.hole 1 :: outer⟩ ⟨before, '}' :: u⟩ = (.copy ['}'], ⟨outer⟩) := rfl

/-- Code that closes its regions and balances its braces is rewritten in a hole as it is at the top level. -/
theorem leads_inHole (hplain : ∀ rule ∈ table, rule.Plain) (h : (keywordPass table).Leads regions place out final) :
    ∀ {depth : Nat} {before : Option Char}, (regions.inHole depth []).Sound →
      Closes (· = u) (regions.inHole depth []).inner (place.rest ++ '}' :: u) →
      before.any isNameChar = place.before.any isNameChar →
      (keywordPass table).Leads ⟨outer⟩ ⟨some '}', u⟩ tail last →
      (keywordPass table).Leads (regions.inHole depth outer) ⟨before, place.rest ++ '}' :: u⟩ (out ++ '}' :: tail)
        last := by
  induction h with
  | @done regions place hrest =>
      intro depth before hsound hclose _ htail
      rw [hrest, List.nil_append] at hclose ⊢
      obtain ⟨rfl, rfl⟩ := bottom_of_closes hsound hclose
      exact .of_copy ['}'] (step_closing_brace table outer before u) (List.cons_ne_nil _ _) htail
  | @step regions final place out hrest _ ih =>
      intro depth before hsound hclose hfree htail
      obtain ⟨depth', hstep⟩ := step_inHole hplain hrest hsound hclose
      obtain ⟨rest, hread⟩ := Pass.consumed_prefix (keywordPass table) regions place
      have hne := (keywordPass table).consumed_ne_nil regions place hrest
      rw [keywordPass_step] at hread hne ih ⊢
      rw [Cursor.advance_append hread.symm] at ih
      have hreadIn : place.rest ++ '}' :: u = (step table regions place).1.consumed ++ (rest ++ '}' :: u) := by
        rw [← hread, List.append_assoc]
      have hneIn : place.rest ++ '}' :: u ≠ [] := List.append_ne_nil_of_left_ne_nil hrest _
      -- in the hole the demand goes over to what the step leaves
      have hbottom : regions.inHole depth [] = .bottom → (· = u) = Code none := fun h => absurd h inHole_ne_bottom
      obtain ⟨hsoundIn, hcloseIn⟩ := closes_table_step hplain hsound hbottom before hneIn
      rw [hstep [] before hfree] at hsoundIn hcloseIn
      have hcloseRest := hcloseIn.1 hclose
      rw [hreadIn, List.drop_left] at hcloseRest
      -- both places come after what the step reads
      have hlast : ((step table regions place).1.consumed.getLast?.or before).any isNameChar =
          ((step table regions place).1.consumed.getLast?.or place.before).any isNameChar := by
        obtain ⟨piece, y, hy⟩ := List.eq_nil_or_concat _ |>.resolve_left hne
        rw [hy, List.concat_eq_append, List.getLast?_concat, Option.some_or, Option.some_or]
      rw [List.append_assoc]
      exact .of_step (hstep outer before hfree) hreadIn hneIn (ih hsoundIn hcloseRest hlast htail)

end Lexical

end HangulScript
