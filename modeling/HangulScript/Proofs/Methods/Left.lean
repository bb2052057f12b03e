import HangulScript.Proofs.Methods.Normal
import HangulScript.Proofs.Methods.Scope

/-!
# What the method pass leaves

At corresponding places of a text and of what the pass leaves of it the same braces are open and the same words `class`
stand. No member of a class body begins with the word `function` in what is left, and a second pass has nothing to drop,
unless the word came twice after an `async`.
-/

namespace HangulScript

open Text

namespace Methods

variable {text lead rest word a b : List Char} {c : Char} {done : List (Visit State)} {state : State} {place : Cursor}

/-- The pass drops the character at the byte offset. -/
def dropped (text : List Char) : Nat → Bool :=
  droppedBy (methodPass.run text).changes

theorem dropped_eq (text : List Char) : dropped text = droppedBy (methodPass.run text).visits :=
  droppedBy_changes _

/-! ## Inside of words -/

/-- After the beginning of a word no other word stands. -/
theorem not_holdsWord_inside (hsolid : Solid (a ++ b)) (hb : b ≠ []) (ha : a ≠ []) :
    (Cursor.mk (lead ++ a).getLast? rest).holdsWord word = false := by
  refine Bool.eq_false_iff.2 fun hholds => ha (hsolid.eq_nil hb ?_)
  have hfree := (Cursor.holdsWord_iff.1 hholds).2.1
  rw [Cursor.freeBefore, List.getLast?_append, Option.or_of_isSome (by simpa using ha)] at hfree
  simpa using hfree

/-- A character that is dropped is neither a brace nor the beginning of a `class`. -/
theorem plain_of_dropped (htext : text = lead ++ c :: rest) (hgone : dropped text (byteLength lead) = true) :
    c ≠ '{' ∧ c ≠ '}' ∧ (Cursor.mk lead.getLast? (c :: rest)).holdsWord classWord = false := by
  rw [dropped_eq] at hgone
  obtain ⟨_, v, q₁, q₂, -, -, hdrops, rfl, hremoved⟩ := drops_of_droppedBy htext hgone
  have hplain : marksRegion c = false := marksRegion_of_mem_removed hdrops (by simp [hremoved])
  have hopening : c ≠ '{' := by
    rintro rfl
    cases hplain
  have hclosing : c ≠ '}' := by
    rintro rfl
    cases hplain
  refine ⟨hopening, hclosing, ?_⟩
  by_cases hq : q₁ = []
  · -- the dropped word begins with another letter
    have hletter : c = 'f' := by
      rcases hdrops.consumed_cases.2 with hword | hword <;> rw [hword, hq] at hremoved <;>
        exact (List.cons.inj hremoved).1.symm
    rw [hletter]
    exact Bool.eq_false_iff.2 fun hholds => by cases holdsWord_class_head hholds
  · have hsolid : Solid (q₁ ++ c :: q₂) := by
      obtain ⟨-, hbare, hspaced, -⟩ := solid_words
      rcases hdrops.consumed_cases.2 with hword | hword <;> rw [← hremoved, hword] <;> assumption
    exact not_holdsWord_inside hsolid (List.cons_ne_nil _ _) hq

/-! ## Where characters are left -/

/-- A character that is left stands where the pass copies, or inside of a word that it keeps as a whole. -/
theorem kept_cases (htext : text = lead ++ c :: rest) (hkept : dropped text (byteLength lead) = false) :
    (∃ earlier state piece, methodPass.Reaches text earlier state ⟨lead.getLast?, c :: rest⟩ ∧ readBy earlier = lead ∧
        edit state ⟨lead.getLast?, c :: rest⟩ = .copy piece) ∨
      ∃ word a b head, (word = classWord ∧ a ≠ [] ∨ word = asyncLead) ∧ word = a ++ c :: b ∧
        survivors (dropped text) 0 lead = survivors (dropped text) 0 head ++ a ∧ lead = head ++ a := by
  rw [dropped_eq] at hkept ⊢
  obtain ⟨earlier, v, a, b, hv, hreach, hoffset, hedit, rfl, hconsumed, hplace⟩ := methodPass.exists_visit_reading htext
  have hedit : v.edit = edit v.state v.place := hedit
  have hrest : v.place.rest ≠ [] := by simp [hplace]
  rw [byteLength_append, ← hoffset] at hkept
  obtain ⟨more, hmore⟩ := kept_of_not_droppedBy hv hconsumed hkept
  have hleft := survivors_append_kept hv hoffset hmore
  have hreached : a = [] → ∀ piece, edit v.state v.place = .copy piece →
      ∃ earlier' state piece, methodPass.Reaches text earlier' state ⟨(readBy earlier ++ a).getLast?, c :: rest⟩ ∧
        readBy earlier' = readBy earlier ++ a ∧
        edit state ⟨(readBy earlier ++ a).getLast?, c :: rest⟩ = .copy piece := by
    rintro rfl piece hcopy
    rw [List.append_nil, ← hreach.before_eq, ← List.nil_append (c :: rest), ← hplace]
    exact ⟨earlier, v.state, piece, hreach, rfl, hcopy⟩
  rcases edit_forms v.state hrest with ⟨-, hcopy⟩ | hdrops | ⟨d, _, -, hcopy, -⟩
  · by_cases ha : a = []
    · exact Or.inl (hreached ha _ hcopy)
    · refine Or.inr ⟨classWord, a, more, readBy earlier, Or.inl ⟨rfl, ha⟩, ?_, hleft, rfl⟩
      rw [← hmore, hedit, hcopy]
      rfl
  · rw [← hedit] at hdrops
    rcases hdrops.kept with hnil | hasync
    · exact absurd (hmore.symm.trans hnil) (List.append_ne_nil_of_right_ne_nil a (List.cons_ne_nil c more))
    · exact Or.inr ⟨asyncLead, a, more, readBy earlier, Or.inr rfl, hasync.symm.trans hmore, hleft, rfl⟩
  · refine Or.inl (hreached ?_ _ hcopy)
    rw [hedit, hcopy] at hmore
    rcases List.append_eq_singleton_iff.1 hmore.symm with ⟨ha, -⟩ | ⟨-, hnil⟩
    · exact ha
    · exact absurd hnil (List.cons_ne_nil c more)

/-- Where a place of what is left is reached, the pass writes from it what is left of the rest. -/
theorem leads_left (hreach : methodPass.Reaches text done state place) :
    survivors (dropped text) 0 (readBy done) = writtenBy done ∧
      methodPass.Leads state place (survivors (dropped text) (byteLength (readBy done)) place.rest)
        (methodPass.run text).final := by
  rw [dropped_eq]
  exact ⟨survivors_run edit_inserted hreach, leads_survivors edit_inserted hreach⟩

/-- A word `class` stands in what is left where it stands in the text. -/
theorem holdsWord_class_left (htext : text = lead ++ c :: rest) (hkept : dropped text (byteLength lead) = false) :
    (Cursor.mk (survivors (dropped text) 0 lead).getLast?
      (survivors (dropped text) (byteLength lead) (c :: rest))).holdsWord classWord =
        (Cursor.mk lead.getLast? (c :: rest)).holdsWord classWord := by
  rcases kept_cases htext hkept with ⟨earlier, state, piece, hreach, rfl, hcopy⟩ | ⟨word, a, b, head, hword, hcut, hleft, rfl⟩
  · obtain ⟨hwritten, hleads⟩ := leads_left hreach
    have hmem : classWord ∈ passWords := by simp [passWords]
    rw [hwritten]
    cases hheld : (Cursor.mk (readBy earlier).getLast? (c :: rest)).holdsWord classWord with
    | false => exact not_holdsWord_written hmem hreach hcopy hleads hheld
    | true =>
        have hrest : (Cursor.mk (readBy earlier).getLast? (c :: rest)).rest ≠ [] := List.cons_ne_nil c rest
        have hbegins := hleads.begins hrest
        rw [methodPass_step, step_fst, edit_of_class hheld, Edit.written_copy] at hbegins
        exact (holdsWord_written hmem hreach hcopy hleads hbegins).trans hheld
  · rw [survivors_cons_of_kept hkept, hleft]
    -- neither here nor there a word begins inside of another one
    by_cases ha : a = []
    · have hletter : c = 'a' := by
        obtain ⟨-, hne⟩ | rfl := hword
        · exact absurd ha hne
        · rw [ha] at hcut
          exact (List.cons.inj hcut).1.symm
      have hnone : ∀ {before : Option Char} {after : List Char},
          (Cursor.mk before (c :: after)).holdsWord classWord = false := fun {before after} =>
        Bool.eq_false_iff.2 fun hholds => by
          rw [hletter] at hholds
          cases holdsWord_class_head hholds
      rw [hnone, hnone]
    · have hsolid : Solid (a ++ c :: b) := by
        obtain ⟨hclassWord, -, -, hasyncLead⟩ := solid_words
        obtain ⟨rfl, -⟩ | rfl := hword <;> rw [← hcut] <;> assumption
      rw [not_holdsWord_inside hsolid (List.cons_ne_nil c b) ha, not_holdsWord_inside hsolid (List.cons_ne_nil c b) ha]

/-! ## The frames of what is left -/

theorem Frames.over_congr {frames : Frames} {place other : Cursor}
    (hclass : place.holdsWord classWord = other.holdsWord classWord) (hhead : place.rest.head? = other.rest.head?) :
    frames.over place = frames.over other := by
  simp only [Frames.over, hclass, hhead]

/-- The same braces are open at corresponding places of the text and of what is left of it. -/
theorem framesAt_left (htext : text = lead ++ rest) :
    framesAt (survivors (dropped text) 0 lead) (survivors (dropped text) (byteLength lead) rest) = framesAt lead rest := by
  induction lead using List.reverseRecOn generalizing rest with
  | nil => rfl
  | append_singleton lead c ih =>
      rw [List.append_assoc, List.singleton_append] at htext
      have ih := ih htext
      have hnext : byteLength (lead ++ [c]) = byteLength lead + c.utf8Size := by simp
      rw [framesAt_concat, survivors_append, Nat.zero_add, hnext]
      cases hgone : dropped text (byteLength lead) with
      | true =>
          obtain ⟨hopening, hclosing, hclass⟩ := plain_of_dropped htext hgone
          have hover : (framesAt lead (c :: rest)).over ⟨lead.getLast?, c :: rest⟩ = framesAt lead (c :: rest) := by
            simp [Frames.over, hclass, hopening, hclosing]
          rw [hover, ← ih]
          simp [survivors, hgone]
      | false =>
          have hclass := holdsWord_class_left htext hgone
          rw [← ih, ← Frames.over_congr hclass (by simp [survivors, hgone])]
          simp only [survivors, hgone, Bool.false_eq_true, if_false, framesAt_concat]

/-! ## The words of what is left -/

theorem bareMethods_left (text : List Char) : bareMethods text = survivors (dropped text) 0 text := by
  rw [bareMethods_eq_survivors, dropped_eq]

theorem not_begins_left (hword : (Cursor.mk a.getLast? b).holdsWord functionWord = true) (hleft : bareMethods text = a ++ b)
    (hbraces : (framesAt a b).braces.head? = some .classBody) : ¬ BeginsMember (lastSolidAfter none a) := by
  intro hmember
  obtain ⟨d, hd⟩ : ∃ d, b = 'f' :: d := List.head?_eq_some_iff.1 (head?_of_begins (Cursor.holdsWord_iff.1 hword).1)
  subst hd
  rw [bareMethods_left] at hleft
  obtain ⟨lead, rest, htext, hkept, ha, hb⟩ := survivors_eq_append_cons hleft
  rw [Nat.zero_add] at hkept hb
  rcases kept_cases htext hkept with ⟨earlier, state, piece, hreach, rfl, hcopy⟩ | ⟨word, x, y, -, hcases, hcut, -, -⟩
  · obtain ⟨hwritten, hleads⟩ := leads_left hreach
    have hrest : (Cursor.mk (readBy earlier).getLast? ('f' :: rest)).rest ≠ [] := List.cons_ne_nil 'f' rest
    have hmem : functionWord ∈ passWords := by simp [passWords]
    rw [hb] at hleads
    have hstands := holdsWord_written hmem hreach hcopy hleads (Cursor.holdsWord_iff.1 hword).1
    rw [← hwritten, ha, hword] at hstands
    have hat : state.atMember = true := by
      refine (reaches_atMember hreach).2 ⟨?_, ?_⟩
      · rw [← framesAt_left htext, ha, hb]
        exact hbraces
      · rw [← dropped_eq, ha]
        exact hmember
    obtain ⟨hdrops, -⟩ := drops_of_atMember (Or.inl rfl) hat hstands.symm
    have hchanges := changes_of_drops hdrops
    rw [hcopy] at hchanges
    cases hchanges
  · -- neither `class` nor `async` has the letter
    have hletter : 'f' ∈ word := by simp [hcut]
    obtain ⟨rfl, -⟩ | rfl := hcases <;> revert hletter <;> decide

/-- What holds of the text that the pass leaves, and of its places. -/
structure Settles (text : List Char) : Prop where
  left : bareMethods text = survivors (dropped text) 0 text
  /-- Each character that is left corresponds to a place of the text. -/
  place : ∀ a b c, bareMethods text = a ++ c :: b → ∃ lead rest, text = lead ++ c :: rest ∧
    dropped text (byteLength lead) = false ∧ survivors (dropped text) 0 lead = a ∧
    survivors (dropped text) (byteLength lead) (c :: rest) = c :: b
  braces : (bareMethods text).filter (fun c => c = '{' ∨ c = '}') = text.filter (fun c => c = '{' ∨ c = '}')
  /-- The words `class` stand at corresponding places. -/
  classes : ∀ lead rest c, text = lead ++ c :: rest →
    ((Cursor.mk lead.getLast? (c :: rest)).holdsWord classWord = true ↔ dropped text (byteLength lead) = false ∧
      (Cursor.mk (survivors (dropped text) 0 lead).getLast?
        (survivors (dropped text) (byteLength lead) (c :: rest))).holdsWord classWord = true)
  /-- The same braces are open at corresponding places, and a `class` waits for its brace at both or at none. -/
  frames : ∀ lead rest, text = lead ++ rest →
    framesAt (survivors (dropped text) 0 lead) (survivors (dropped text) (byteLength lead) rest) = framesAt lead rest
  /-- A second pass goes by these braces wherever it comes. -/
  scan : ∀ earlier later, (methodPass.run (bareMethods text)).visits = earlier ++ later → ∃ rest,
    bareMethods text = readBy earlier ++ rest ∧
      ((methodPass.run (bareMethods text)).stateAt later).frames = framesAt (readBy earlier) rest
  /-- In a class body no word `function` is left where a member begins. -/
  normal : ∀ a b, bareMethods text = a ++ b → (Cursor.mk a.getLast? b).holdsWord functionWord = true →
    ¬ ((framesAt a b).braces.head? = some .classBody ∧ BeginsMember (lastSolidAfter none a))
  settled : ¬ "async function function".toList <:+: text → bareMethods (bareMethods text) = bareMethods text

/-- The pass changes neither the braces of a text nor its words `class`, and of the members it leaves none to drop. -/
theorem bareMethods_settles (text : List Char) : Settles text := by
  constructor
  case left => exact bareMethods_left text
  case place =>
    intro a b c hleft
    rw [bareMethods_left] at hleft
    simpa using survivors_eq_append_cons hleft
  case braces =>
    rw [bareMethods_left]
    refine filter_survivors fun a c b htext hgone => ?_
    rw [Nat.zero_add] at hgone
    obtain ⟨hopening, hclosing, -⟩ := plain_of_dropped htext hgone
    simp [hopening, hclosing]
  case classes =>
    intro lead rest c htext
    cases hgone : dropped text (byteLength lead) with
    | true => simp [(plain_of_dropped htext hgone).2.2]
    | false => simp [holdsWord_class_left htext hgone]
  case frames => exact fun lead rest => framesAt_left
  case scan =>
    intro earlier later hvisits
    obtain ⟨_, _, hend⟩ := methodPass.run_reaches (bareMethods text)
    obtain ⟨place, hreach, -⟩ := hend.of_append hvisits
    exact ⟨place.rest, hreach.text_eq, (reaches_frames hreach).symm⟩
  case normal => exact fun a b hleft hword ⟨hbraces, hmember⟩ => not_begins_left hword hleft hbraces hmember
  case settled => exact bareMethods_bareMethods

/-- Where the word comes twice after an `async`, each pass drops one. -/
example : bareMethods "class A \x7basync function function f".toList = "class A \x7basync function f".toList ∧
    bareMethods "class A \x7basync function f".toList = "class A \x7basync f".toList := by
  simp only [bareMethods, Pass.run_eq_runWithin]
  decide +kernel

end Methods

end HangulScript
