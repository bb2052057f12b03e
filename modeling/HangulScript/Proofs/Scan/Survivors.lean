import HangulScript.Proofs.Scan.Modes

/-!
# Texts with characters dropped

A text loses the characters at some byte offsets. As long as none of them takes part in opening or closing a region and
none follows a character that takes the next one along, the regions open and close as before.
-/

namespace HangulScript

open Text

/-- The characters of a text at a byte offset that are not gone. -/
def survivors (gone : Nat → Bool) : Nat → List Char → List Char
  | _, [] => []
  | offset, c :: text =>
    if gone offset then survivors gone (offset + c.utf8Size) text
    else c :: survivors gone (offset + c.utf8Size) text

/-- What is left of a stretch. -/
def Stretch.thin (gone : Nat → Bool) (s : Stretch) : Stretch :=
  { s with text := survivors gone s.offset s.text }

/-- No character that is gone marks a region, and none is taken along by the one before it. -/
def Loose (gone : Nat → Bool) (text : List Char) : Prop :=
  ∀ a c b, text = a ++ c :: b → gone (byteLength a) = true →
    marksRegion c = false ∧ ∀ x, a.getLast? = some x → takesNext x = false

variable {gone other : Nat → Bool} {text : List Char}

/-! ## What is left -/

theorem survivors_cons_of_kept {offset : Nat} {c : Char} (hkept : gone offset = false) :
    survivors gone offset (c :: text) = c :: survivors gone (offset + c.utf8Size) text := by
  rw [survivors, if_neg (Bool.eq_false_iff.1 hkept)]

theorem survivors_append (offset : Nat) (a b : List Char) :
    survivors gone offset (a ++ b) = survivors gone offset a ++ survivors gone (offset + byteLength a) b := by
  induction a generalizing offset with
  | nil => rfl
  | cons c a ih =>
      simp only [List.cons_append, survivors, ih, byteLength_cons, Nat.add_assoc]
      split_ifs <;> rfl

theorem survivors_sublist (offset : Nat) (text : List Char) : (survivors gone offset text).Sublist text := by
  induction text generalizing offset with
  | nil => exact .slnil
  | cons c text ih =>
      rw [survivors]
      split_ifs
      · exact .cons c (ih _)
      · exact .cons_cons c (ih _)

theorem survivors_congr {offset : Nat} (h : ∀ i, offset ≤ i → i < offset + byteLength text → gone i = other i) :
    survivors gone offset text = survivors other offset text := by
  induction text generalizing offset with
  | nil => rfl
  | cons c text ih =>
      have hsize := c.utf8Size_pos
      rw [byteLength_cons] at h
      have htail : survivors gone (offset + c.utf8Size) text = survivors other (offset + c.utf8Size) text :=
        ih fun i hle hlt => h i (by omega) (by omega)
      rw [survivors, survivors, h offset (Nat.le_refl _) (by omega), htail]

theorem survivors_of_kept {offset : Nat} (h : ∀ i, offset ≤ i → i < offset + byteLength text → gone i = false) :
    survivors gone offset text = text := by
  have hnone : survivors gone offset text = survivors (fun _ => false) offset text := survivors_congr h
  rw [hnone]
  clear h hnone
  induction text generalizing offset with
  | nil => rfl
  | cons c text ih => simp [survivors, ih]

theorem kept_of_survivors_eq {offset : Nat} {c : Char} (h : survivors gone offset (c :: text) = c :: text) :
    gone offset = false := by
  refine Bool.eq_false_iff.2 fun hgone => ?_
  have hsub : (survivors gone (offset + c.utf8Size) text).Sublist text := survivors_sublist _ text
  have hle := hsub.length_le
  rw [survivors, if_pos hgone] at h
  rw [h, List.length_cons] at hle
  omega

theorem survivors_of_gone {offset : Nat} (h : ∀ i, offset ≤ i → i < offset + byteLength text → gone i = true) :
    survivors gone offset text = [] := by
  have hall : survivors gone offset text = survivors (fun _ => true) offset text := survivors_congr h
  rw [hall]
  clear h hall
  induction text generalizing offset with
  | nil => rfl
  | cons c text ih => simp [survivors, ih]

/-- If none of the characters that are gone has the property, those that have it are left in order. -/
theorem filter_survivors {p : Char → Bool} {offset : Nat}
    (hgone : ∀ a c b, text = a ++ c :: b → gone (offset + byteLength a) = true → p c = false) :
    (survivors gone offset text).filter p = text.filter p := by
  induction text generalizing offset with
  | nil => rfl
  | cons c text ih =>
      have htail : (survivors gone (offset + c.utf8Size) text).filter p = text.filter p := by
        refine ih fun a d b htext hd => hgone (c :: a) d b (by rw [htext, List.cons_append]) ?_
        rwa [byteLength_cons, ← Nat.add_assoc]
      rw [survivors]
      split_ifs with hc
      · rw [htail, List.filter_cons_of_neg (by rw [hgone [] c text rfl hc]; exact Bool.false_ne_true)]
      · rw [List.filter_cons, List.filter_cons, htail]

/-- A character that is left stood in the text, between what the two parts are left of. -/
theorem survivors_eq_append_cons {offset : Nat} {a b : List Char} {c : Char}
    (h : survivors gone offset text = a ++ c :: b) : ∃ lead rest, text = lead ++ c :: rest ∧
      gone (offset + byteLength lead) = false ∧ survivors gone offset lead = a ∧
      survivors gone (offset + byteLength lead) (c :: rest) = c :: b := by
  induction text generalizing offset a with
  | nil => exact absurd h.symm (List.append_ne_nil_of_right_ne_nil a (List.cons_ne_nil c b))
  | cons d text ih =>
      rw [survivors] at h
      split_ifs at h with hd
      · obtain ⟨lead, rest, rfl, hkept, hlead, hrest⟩ := ih h
        refine ⟨d :: lead, rest, rfl, ?_, ?_, ?_⟩
        · rwa [byteLength_cons, ← Nat.add_assoc]
        · rw [survivors, if_pos hd, hlead]
        · rwa [byteLength_cons, ← Nat.add_assoc]
      · rcases List.cons_eq_append_iff.1 h with ⟨rfl, hcons⟩ | ⟨a, rfl, htail⟩
        · obtain ⟨rfl, rfl⟩ := List.cons.inj hcons
          have hkept : gone (offset + byteLength []) = false := Bool.eq_false_iff.2 hd
          exact ⟨[], text, rfl, hkept, rfl, survivors_cons_of_kept hkept⟩
        · obtain ⟨lead, rest, rfl, hkept, hlead, hrest⟩ := ih htail
          refine ⟨d :: lead, rest, rfl, ?_, ?_, ?_⟩
          · rwa [byteLength_cons, ← Nat.add_assoc]
          · rw [survivors_cons_of_kept (Bool.eq_false_iff.2 hd), hlead]
          · rwa [byteLength_cons, ← Nat.add_assoc]

theorem Stretch.map_thin_lengthen {n : Nat} {cut : List Stretch} (piece : List Char)
    (hends : ∀ s ∈ cut.head?, s.offset + byteLength s.text = n) :
    (lengthen piece cut).map (thin gone) = lengthen (survivors gone n piece) (cut.map (thin gone)) := by
  rcases cut with _ | ⟨s, cut⟩
  · rfl
  · have hs : s.offset + byteLength s.text = n := hends s rfl
    simp [lengthen, thin, survivors_append, hs]

theorem Stretch.lengthen_nil (cut : List Stretch) : lengthen [] cut = cut := by
  cases cut <;> simp [lengthen]

/-- A step over what is left of a piece cuts what is left of the stretches. -/
theorem Stretch.map_thin_cutStep {v w : Visit OpenRegions} {next : OpenRegions} {cut cut' : List Stretch}
    (hcut : cut'.map content = (cut.map (thin gone)).map content) (hstate : w.state = v.state)
    (hread : w.edit.consumed = survivors gone v.offset v.edit.consumed)
    (hends : v.state.innermost.holdsCode = false → ∀ s ∈ cut.head?, s.offset + byteLength s.text = v.offset) :
    (cutStep cut' (w, next)).map content = ((cutStep cut (v, next)).map (thin gone)).map content := by
  unfold cutStep
  simp only [hstate, hread]
  split_ifs with hcode hnext
  · exact hcut
  · simp [hcut, content, thin, survivors]
  · rw [map_thin_lengthen _ (hends (by simpa using hcode))]
    exact map_content_lengthen _ hcut

theorem Stretch.map_thin_cutStep_gone {v : Visit OpenRegions} {cut : List Stretch}
    (hgone : survivors gone v.offset v.edit.consumed = [])
    (hends : v.state.innermost.holdsCode = false → ∀ s ∈ cut.head?, s.offset + byteLength s.text = v.offset) :
    (cutStep cut (v, v.state)).map (thin gone) = cut.map (thin gone) := by
  cases hcode : v.state.innermost.holdsCode with
  | true => rw [cutStep_of_code cut hcode hcode]
  | false =>
      simp only [cutStep, hcode, Bool.false_eq_true, if_false]
      rw [map_thin_lengthen _ (hends hcode), hgone, lengthen_nil]

/-! ## Stretches up to a place -/

namespace Keywords

variable {table : List Rule} {done : List (Visit OpenRegions)} {regions : OpenRegions} {place : Cursor}

/-- Out of code the last stretch goes up to the place. -/
theorem cut_ends (h : (keywordPass table).Reaches text done regions place) (hcode : regions.innermost.holdsCode = false) :
    ∀ s ∈ (Trace.mk done regions).cut.head?, s.offset + byteLength s.text = byteLength (readBy done) := by
  induction h with
  | start => cases hcode
  | @step done regions place h hrest ih =>
      rw [Trace.cut_append]
      cases hbefore : regions.innermost.holdsCode with
      | true =>
          intro s hs
          simp only [Stretch.cutStep, hbefore, hcode, if_true, Bool.false_eq_true, if_false, List.head?_cons,
            Option.mem_def, Option.some.injEq] at hs
          subst hs
          simp
      | false =>
          intro s hs
          simp only [Stretch.cutStep, hbefore, Bool.false_eq_true, if_false] at hs
          cases hcut : (Trace.mk done regions).cut with
          | nil => simp [hcut, Stretch.lengthen] at hs
          | cons t cut =>
              have ht := ih hbefore t (by simp [hcut])
              simp only [hcut, Stretch.lengthen, List.head?_cons, Option.mem_def, Option.some.injEq] at hs
              subst hs
              simp only [byteLength_append, readBy_append, readBy_cons, readBy_nil, List.append_nil]
              omega

/-! ## The scan of what is left -/

theorem kept_of_marksRegion (hloose : Loose gone text) {a rest : List Char} {c : Char} (htext : text = a ++ c :: rest)
    (hmark : marksRegion c = true) : gone (byteLength a) = false := by
  refine Bool.eq_false_iff.2 fun hgone => ?_
  rw [(hloose a c rest htext hgone).1] at hmark
  cases hmark

theorem kept_of_takesNext (hloose : Loose gone text) {a rest : List Char} {c d : Char}
    (htext : text = a ++ c :: d :: rest) (htakes : takesNext c = true) : gone (byteLength (a ++ [c])) = false := by
  refine Bool.eq_false_iff.2 fun hgone => ?_
  have := (hloose (a ++ [c]) d rest (by simp [htext]) hgone).2 c (by simp)
  rw [this] at htakes
  cases htakes

theorem pairing?_survivors (hloose : Loose gone text) {a rest : List Char} {c : Char} (htext : text = a ++ c :: rest)
    (regions : OpenRegions) :
    regions.pairing? c (survivors gone (byteLength (a ++ [c])) rest) = regions.pairing? c rest := by
  cases htakes : takesNext c with
  | false => rw [regions.pairing?_of_not_takesNext _ htakes, regions.pairing?_of_not_takesNext _ htakes]
  | true =>
      cases rest with
      | nil => rfl
      | cons d rest =>
          rw [survivors, kept_of_takesNext hloose htext htakes]
          rfl

theorem takesNext_of_afterPair? {next : OpenRegions} {c d : Char} (h : regions.afterPair? c d = some next) :
    takesNext c = true := by
  cases htakes : takesNext c with
  | true => rfl
  | false =>
      rw [OpenRegions.afterPair?_of_not_takesNext htakes] at h
      cases h

theorem marksRegion_of_takesNext {c : Char} (h : takesNext c = true) : marksRegion c = true := by
  cases hmark : marksRegion c with
  | true => rfl
  | false =>
      rw [takesNext_of_not_marksRegion hmark] at h
      cases h

/-- The scan of the regions reads a character that is gone and stays where it is, or what it reads is left and it does
the same over what is left. -/
theorem step_survivors (hloose : Loose gone text) {a : List Char} (htext : text = a ++ place.rest)
    (hrest : place.rest ≠ []) (regions : OpenRegions) (before : Option Char) :
    ∃ piece, piece ≠ [] ∧ (step [] regions place).1 = .copy piece ∧
      (survivors gone (byteLength a) piece = [] ∧ (step [] regions place).2 = regions ∨
        survivors gone (byteLength a) piece = piece ∧
          step [] regions ⟨before, survivors gone (byteLength a) place.rest⟩ = step [] regions place) := by
  rcases step_nil_cases regions hrest with ⟨c, rest, hplace, hpair, heq⟩ | ⟨c, d, rest, next, hplace, hpair, heq⟩
  · rw [hplace] at htext
    refine ⟨[c], List.cons_ne_nil _ _, by rw [heq], ?_⟩
    cases hgone : gone (byteLength a) with
    | true =>
        have hmark := (hloose a c rest htext hgone).1
        exact Or.inl ⟨by simp [survivors, hgone], by rw [heq, OpenRegions.after_of_not_marksRegion hmark]⟩
    | false =>
        refine Or.inr ⟨by simp [survivors, hgone], ?_⟩
        have hsame := pairing?_survivors hloose htext regions
        rw [byteLength_append, byteLength_cons, byteLength_nil, Nat.add_zero] at hsame
        simp only [hplace, survivors, hgone, Bool.false_eq_true, if_false, step_nil_cons, hsame, hpair, heq]
  · rw [hplace] at htext
    have htakes := takesNext_of_afterPair? hpair
    -- neither of the two is gone
    have hfirst := kept_of_marksRegion hloose htext (marksRegion_of_takesNext htakes)
    have hsecond := kept_of_takesNext hloose htext htakes
    rw [byteLength_append, byteLength_cons, byteLength_nil, Nat.add_zero] at hsecond
    refine ⟨[c, d], List.cons_ne_nil _ _, by rw [heq], Or.inr ⟨by simp [survivors, hfirst, hsecond], ?_⟩⟩
    simp [hplace, survivors, hfirst, hsecond, step_nil_cons, OpenRegions.pairing?, hpair, heq]

theorem reaches_survivors (hloose : Loose gone text) (h : (keywordPass []).Reaches text done regions place) :
    ∃ done' before,
      (keywordPass []).Reaches (survivors gone 0 text) done' regions
        ⟨before, survivors gone (byteLength (readBy done)) place.rest⟩ ∧
      (Trace.mk done' regions).turns = (Trace.mk done regions).turns ∧
      (Trace.mk done' regions).cut.map Stretch.content =
        ((Trace.mk done regions).cut.map (Stretch.thin gone)).map Stretch.content := by
  induction h with
  | start => exact ⟨[], none, .start, rfl, rfl⟩
  | @step done regions place h hrest ih =>
      obtain ⟨done', before, hreach, hturns, hcut⟩ := ih
      obtain ⟨piece, hne, hpiece, hstep⟩ := step_survivors hloose h.text_eq hrest regions before
      obtain ⟨after, hafter⟩ := Pass.consumed_prefix (keywordPass []) regions place
      simp only [keywordPass_step, hpiece, Edit.consumed_copy] at hafter ⊢
      have hleft : survivors gone (byteLength (readBy done)) place.rest =
          survivors gone (byteLength (readBy done)) piece ++
            survivors gone (byteLength (readBy done) + byteLength piece) after := by
        rw [← hafter, survivors_append]
      -- where a character is gone only the text moves on; otherwise both scans make the same step
      rw [hleft] at hreach
      rw [Cursor.advance_append hafter.symm]
      simp only [readBy_append, readBy_cons, readBy_nil, Edit.consumed_copy, List.append_nil, byteLength_append]
      rcases hstep with ⟨hgone, hstay⟩ | ⟨hkept, hsame⟩
      · rw [hgone, List.nil_append] at hreach
        rw [hstay]
        refine ⟨done', before, hreach, ?_, ?_⟩
        · rw [Trace.turns_append_stay done ⟨_, _, regions, _⟩, hturns]
        · rw [Trace.cut_append, Stretch.map_thin_cutStep_gone (by simpa using hgone) fun hcode => cut_ends h hcode, hcut]
      · have hnext := hreach.step (by rw [hkept]; simp [hne])
        rw [hleft] at hsame
        rw [keywordPass_step, hsame, hpiece, Edit.consumed_copy, hkept, Cursor.advance_append rfl] at hnext
        refine ⟨_, _, hnext, ?_, ?_⟩
        · rw [Trace.turns_append, Trace.turns_append]
          simp only [hturns]
        · rw [Trace.cut_append, Trace.cut_append]
          exact Stretch.map_thin_cutStep hcut rfl (by simpa using hkept.symm) fun hcode => cut_ends h hcode

/-- Where a text loses characters loosely, the scan of the regions of what is left ends in the same regions, after the
same turns and past what is left of the same stretches. -/
theorem regionScan_survivors (hloose : Loose gone text) :
    let left := survivors gone 0 text
    (regionScan left).final = (regionScan text).final ∧ (regionScan left).turns = (regionScan text).turns ∧
      (regionScan left).stretches.map Stretch.content =
        ((regionScan text).stretches.map (Stretch.thin gone)).map Stretch.content := by
  obtain ⟨stop, hstop, hend⟩ := (keywordPass []).run_reaches text
  obtain ⟨done', before, hreach, hturns, hcut⟩ := reaches_survivors hloose hend
  have hrun : regionScan (survivors gone 0 text) = _ := hreach.run_eq_of_nil (by rw [hstop]; rfl)
  refine ⟨by rw [hrun]; rfl, by rw [hrun, hturns]; rfl, ?_⟩
  rw [hrun, Trace.stretches, Trace.stretches, List.map_reverse, List.map_reverse, List.map_reverse, hcut]
  rfl

end Keywords

end HangulScript
