import HangulScript.Proofs.Pass.Offsets
import HangulScript.Proofs.Scan.Nesting

/-!
# The scan by byte offsets

The scan for keywords as a loop over byte offsets. It makes the steps of the keyword pass, with every table, and is broken
off only where the counter of a hole is full.
-/

namespace HangulScript

open Text

namespace Keywords

/-! ## The loop -/

section

variable (source : List Char) (table : List Rule)

/-- The rule applies at the offset. -/
def appliesAt (rule : Rule) (offset : Nat) : Except Fault Bool := do
  let (_, rest) ← cutAt source offset
  if !rule.spelling.isPrefixOf rest then return false
  if !rule.standsAlone then return true
  aloneAt source rule.spelling offset

/-- An iteration in code, where the character `c` comes next. -/
def codeAt (c : Char) (walk : Walk OpenRegions) : Except Fault (Walk OpenRegions) := do
  let (_, rest) ← cutAt source walk.offset
  match Region.opened? rest with
  | some (region, size) => (walk.remember (walk.memory.push region)).copy source size
  | none =>
    match ← table.findM? (appliesAt source · walk.offset) with
    | some rule => return ⟨walk.offset + byteLength rule.spelling, walk.out ++ rule.replacement, walk.memory⟩
    | none => return walk.bump c

/-- An iteration in a hole. -/
def holeAt (c : Char) (walk : Walk OpenRegions) : Except Fault (Walk OpenRegions) :=
  match c with
  | '{' =>
    match walk.memory.countOpening? with
    | .ok regions => .ok ((walk.bump c).remember regions)
    | .error reason => .error (.abort reason)
  | '}' =>
    let closed := walk.memory.countClosing
    .ok ((walk.bump c).remember (if closed.holeDepth? = some 0 then closed.pop else closed))
  | _ => codeAt source table c walk

/-- The walk after a backslash has taken the next character along, if there is one. -/
def escapedAt (walk : Walk OpenRegions) : Except Fault (Walk OpenRegions) := do
  let (_, rest) ← cutAt source walk.offset
  match rest with
  | next :: _ => return walk.bump next
  | [] => return walk

/-- An iteration in a string that ends with `quote`. -/
def quotedAt (quote c : Char) (walk : Walk OpenRegions) : Except Fault (Walk OpenRegions) :=
  if c = '\\' then escapedAt source (walk.bump c)
  else if c = quote then .ok ((walk.bump c).remember walk.memory.pop)
  else .ok (walk.bump c)

/-- An iteration in template text. -/
def templateAt (c : Char) (walk : Walk OpenRegions) : Except Fault (Walk OpenRegions) := do
  match c with
  | '\\' => escapedAt source (walk.bump c)
  | '`' => return (walk.bump c).remember walk.memory.pop
  | '$' =>
    let (_, rest) ← cutAt source walk.offset
    if ['$', '{'].isPrefixOf rest then (walk.remember (walk.memory.push (.hole 1))).copy source 2
    else return walk.bump c
  | _ => return walk.bump c

def lineCommentAt (c : Char) (walk : Walk OpenRegions) : Walk OpenRegions :=
  if c = '\n' then (walk.bump c).remember walk.memory.pop else walk.bump c

def blockCommentAt (walk : Walk OpenRegions) : Except Fault (Walk OpenRegions) := do
  let (_, rest) ← cutAt source walk.offset
  if ['*', '/'].isPrefixOf rest then (walk.remember walk.memory.pop).copy source 2
  else
    match rest with
    | c :: _ => return walk.bump c
    | [] => return walk

/-- The loop of the scan. -/
def scanLoop : Loop OpenRegions := fun walk => do
  let (_, rest) ← cutAt source walk.offset
  match rest with
  | [] => return none
  | c :: _ =>
    let next ← match walk.memory.innermost with
      | .code => codeAt source table c walk
      | .hole _ => holeAt source table c walk
      | .singleQuoted => quotedAt source '\'' c walk
      | .doubleQuoted => quotedAt source '"' c walk
      | .template => templateAt source c walk
      | .lineComment => pure (lineCommentAt c walk)
      | .blockComment => blockCommentAt source walk
    return some next

end

/-! ## The steps of the pass -/

variable {table : List Rule} {lead rest : List Char} {c : Char} {walk : Walk OpenRegions}

theorem appliesAt_eq (rule : Rule) :
    appliesAt (lead ++ rest) rule (byteLength lead) = .ok (rule.applies ⟨lead.getLast?, rest⟩) := by
  rw [appliesAt, cutAt_append, Rule.applies]
  cases hword : rule.spelling.isPrefixOf rest with
  | false => simp [hword]
  | true => cases rule.standsAlone <;> simp [hword, aloneAt_append (List.isPrefixOf_iff_prefix.1 hword)]

theorem findM?_appliesAt (table : List Rule) :
    table.findM? (appliesAt (lead ++ rest) · (byteLength lead)) = .ok (Rule.firstMatch? table ⟨lead.getLast?, rest⟩) := by
  simp only [appliesAt_eq]
  exact List.findM?_pure _ _

/-- The walk after a step of the pass, unless a counter of its regions is too high. -/
def checked (walk : Walk OpenRegions) (made : Edit × OpenRegions) : Except Fault (Walk OpenRegions) :=
  if made.2.fits then .ok (walk.follow made.1 made.2) else .error (.abort .holeTooDeep)

theorem checked_copy {regions : OpenRegions} (hfits : regions.fits = true) (piece : List Char) :
    checked walk (.copy piece, regions) = .ok (walk.follow (.copy piece) regions) :=
  if_pos hfits

theorem byteLength_take_of_opened {text : List Char} {region : Region} {n : Nat}
    (h : Region.opened? text = some (region, n)) : byteLength (text.take n) = n := by
  revert h
  fun_cases Region.opened? text <;> simp only [Option.some.injEq, Prod.mk.injEq, reduceCtorEq, false_implies, and_imp]
  all_goals
    rintro - rfl
    rfl

theorem fits_push {regions : OpenRegions} {region : Region} (hregion : region.fits = true) (hfits : regions.fits = true) :
    (regions.push region).fits = true := by
  simpa [OpenRegions.fits, OpenRegions.push, hregion] using hfits

theorem fits_pop {regions : OpenRegions} (hfits : regions.fits = true) : regions.pop.fits = true :=
  List.all_eq_true.2 fun region hregion => List.all_eq_true.1 hfits region (List.mem_of_mem_tail hregion)

theorem fits_countClosing {regions : OpenRegions} (hfits : regions.fits = true) : regions.countClosing.fits = true := by
  rcases regions with ⟨_ | ⟨region, outer⟩⟩
  · rfl
  · simp only [OpenRegions.fits, List.all_cons, Bool.and_eq_true] at hfits
    cases region with
    | hole depth =>
        have hdepth : depth ≤ Region.maxHoleDepth := of_decide_eq_true hfits.1
        simp only [OpenRegions.countClosing, OpenRegions.fits, List.all_cons, hfits.2, Bool.and_true]
        exact decide_eq_true (Nat.le_trans (Nat.sub_le depth 1) hdepth)
    | _ => simpa [OpenRegions.countClosing, OpenRegions.fits] using hfits

theorem countOpening?_eq {regions : OpenRegions} (hfits : regions.fits = true) :
    regions.countOpening? =
      if regions.countOpening.fits then .ok regions.countOpening else .error .holeTooDeep := by
  have hcount := OpenRegions.countOpening?_eq_ok_iff hfits
  by_cases hfull : regions.holeDepth? = some Region.maxHoleDepth
  · have hfault : regions.countOpening? = .error .holeTooDeep := if_pos hfull
    rw [hfault] at hcount ⊢
    rw [if_neg fun hroom => nomatch hcount.2 hroom]
  · have hroom : regions.countOpening? = .ok regions.countOpening := if_neg hfull
    rw [hroom, if_pos (hcount.1 hroom)]

/-! ## The handlers -/

theorem codeAt_eq (hat : walk.offset = byteLength lead) (hfits : walk.memory.fits = true) :
    codeAt (lead ++ c :: rest) table c walk = checked walk (codeStep table walk.memory ⟨lead.getLast?, c :: rest⟩) := by
  rw [codeAt, hat, cutAt_append, codeStep]
  simp only [Fault.ok_bind]
  cases hopened : Region.opened? (c :: rest) with
  | some opened =>
      obtain ⟨region, n⟩ := opened
      have hregion : region.fits = true := by
        have hflat := (Region.opened?_eq_some hopened).1
        cases region <;> first | rfl | cases hflat
      have hcopy := Walk.copy_eq hat (walk.memory.push region) ((c :: rest).take n) ((c :: rest).drop n)
      rw [byteLength_take_of_opened hopened, List.take_append_drop] at hcopy
      exact hcopy.trans (checked_copy (fits_push hregion hfits) _).symm
  | none =>
      simp only [findM?_appliesAt, Fault.ok_bind]
      cases Rule.firstMatch? table ⟨lead.getLast?, c :: rest⟩ with
      | some rule =>
          simp [checked, hfits, Walk.follow, hat, Edit.consumed, Edit.written]
      | none =>
          simp [checked, hfits, Walk.bump_eq]

theorem holeAt_eq (hat : walk.offset = byteLength lead) (hfits : walk.memory.fits = true) :
    holeAt (lead ++ c :: rest) table c walk = checked walk (holeStep table walk.memory ⟨lead.getLast?, c :: rest⟩) := by
  by_cases hopening : c = '{'
  · subst hopening
    simp only [holeAt, holeStep, checked, countOpening?_eq hfits]
    split_ifs
    · exact congrArg Except.ok (Walk.bump_remember walk _ _)
    · rfl
  by_cases hclosing : c = '}'
  · subst hclosing
    have hclosed := fits_countClosing hfits
    simp only [holeAt, holeStep, Walk.bump_remember]
    refine (checked_copy ?_ _).symm
    split_ifs
    · exact fits_pop hclosed
    · exact hclosed
  · have hloop : holeAt (lead ++ c :: rest) table c walk = codeAt (lead ++ c :: rest) table c walk := by
      simp [holeAt]
    have hstep : holeStep table walk.memory ⟨lead.getLast?, c :: rest⟩ =
        codeStep table walk.memory ⟨lead.getLast?, c :: rest⟩ := by
      simp [holeStep, hopening, hclosing]
    rw [hloop, hstep, codeAt_eq hat hfits]

/-- After a backslash the next character is copied with it. -/
theorem escapedAt_eq (hat : walk.offset = byteLength lead) :
    escapedAt (lead ++ c :: rest) (walk.bump c) = .ok (walk.follow (.copy (c :: rest.take 1)) walk.memory) := by
  have hnext : (walk.bump c).offset = byteLength (lead ++ [c]) := by simp [Walk.bump, hat]
  have hcut := cutAt_append (lead ++ [c]) rest
  rw [List.append_assoc, List.singleton_append] at hcut
  rw [escapedAt, hnext, hcut]
  cases rest with
  | nil => simp [Walk.bump_eq]
  | cons d rest => simp [Walk.bump, Walk.follow, Nat.add_assoc]

theorem quotedAt_eq (hat : walk.offset = byteLength lead) (hfits : walk.memory.fits = true) (quote : Char) :
    quotedAt (lead ++ c :: rest) quote c walk = checked walk (quotedStep quote walk.memory (c :: rest)) := by
  by_cases hescape : c = '\\'
  · subst hescape
    rw [quotedAt, if_pos rfl, escapedAt_eq hat]
    exact (checked_copy hfits _).symm
  · have hstep : quotedStep quote walk.memory (c :: rest) =
        (.copy [c], if c = quote then walk.memory.pop else walk.memory) := by
      simp [quotedStep]
    rw [quotedAt, if_neg hescape, hstep]
    split_ifs with hends
    · rw [Walk.bump_remember, checked_copy (fits_pop hfits)]
    · rw [Walk.bump_eq, checked_copy hfits]

theorem templateAt_eq (hat : walk.offset = byteLength lead) (hfits : walk.memory.fits = true) :
    templateAt (lead ++ c :: rest) c walk = checked walk (templateStep walk.memory (c :: rest)) := by
  by_cases hescape : c = '\\'
  · subst hescape
    exact (escapedAt_eq hat).trans (checked_copy hfits _).symm
  by_cases hends : c = '`'
  · subst hends
    exact (congrArg Except.ok (Walk.bump_remember walk _ _)).trans (checked_copy (fits_pop hfits) _).symm
  by_cases hhole : ['$', '{'] <+: c :: rest
  · obtain ⟨after, hafter⟩ := hhole
    obtain rfl : '$' = c := (List.cons.inj hafter).1
    have hcopy := Walk.copy_eq hat (walk.memory.push (.hole 1)) ['$', '{'] after
    have hfirst : (Region.hole 1).fits = true := by decide
    rw [← hafter]
    simp only [templateAt, hat, cutAt_append]
    exact hcopy.trans (checked_copy (fits_push hfirst hfits) _).symm
  · have hnone : ['$', '{'].isPrefixOf (c :: rest) = false :=
      Bool.eq_false_iff.2 fun h => hhole (List.isPrefixOf_iff_prefix.1 h)
    have hstep : templateStep walk.memory (c :: rest) = (.copy [c], walk.memory) := by
      unfold templateStep
      split <;> simp_all
    have hloop : templateAt (lead ++ c :: rest) c walk = .ok (walk.bump c) := by
      by_cases hdollar : c = '$'
      · subst hdollar
        simp only [templateAt, hat, cutAt_append, Fault.ok_bind, hnone]
        rfl
      · simp [templateAt]
    rw [hloop, hstep, Walk.bump_eq, checked_copy hfits]

theorem lineCommentAt_eq (hfits : walk.memory.fits = true) :
    .ok (lineCommentAt c walk) = checked walk (lineCommentStep walk.memory (c :: rest)) := by
  by_cases hends : c = '\n'
  · subst hends
    rw [lineCommentAt, if_pos rfl, Walk.bump_remember]
    exact (checked_copy (fits_pop hfits) _).symm
  · have hstep : lineCommentStep walk.memory (c :: rest) = (.copy [c], walk.memory) := by
      simp [lineCommentStep]
    rw [lineCommentAt, if_neg hends, hstep, Walk.bump_eq, checked_copy hfits]

theorem blockCommentAt_eq (hat : walk.offset = byteLength lead) (hfits : walk.memory.fits = true) :
    blockCommentAt (lead ++ c :: rest) walk = checked walk (blockCommentStep walk.memory (c :: rest)) := by
  rw [blockCommentAt, hat, cutAt_append]
  by_cases hends : ['*', '/'] <+: c :: rest
  · obtain ⟨after, hafter⟩ := hends
    have hcopy := Walk.copy_eq hat walk.memory.pop ['*', '/'] after
    rw [← hafter]
    exact hcopy.trans (checked_copy (fits_pop hfits) _).symm
  · have hnone : ['*', '/'].isPrefixOf (c :: rest) = false :=
      Bool.eq_false_iff.2 fun h => hends (List.isPrefixOf_iff_prefix.1 h)
    have hstep : blockCommentStep walk.memory (c :: rest) = (.copy [c], walk.memory) := by
      unfold blockCommentStep
      split <;> simp_all
    simp only [Fault.ok_bind, hnone, hstep, Walk.bump_eq, checked_copy hfits]
    rfl

/-- An iteration makes a step of the pass. -/
theorem scanLoop_eq (hat : walk.offset = byteLength lead) (hfits : walk.memory.fits = true) (hrest : rest ≠ []) :
    scanLoop (lead ++ rest) table walk = (checked walk (step table walk.memory ⟨lead.getLast?, rest⟩)).map some := by
  obtain ⟨c, rest, rfl⟩ := List.exists_cons_of_ne_nil hrest
  have hend : ∀ {result : Except Fault (Walk OpenRegions)} {made : Edit × OpenRegions}, result = checked walk made →
      (result >>= fun next => .ok (some next)) = (checked walk made).map some := by
    rintro _ made rfl
    cases checked walk made <;> rfl
  rw [scanLoop, hat, cutAt_append]
  simp only [Fault.ok_bind, step]
  cases walk.memory.innermost with
  | code => exact hend (codeAt_eq hat hfits)
  | hole depth => exact hend (holeAt_eq hat hfits)
  | singleQuoted => exact hend (quotedAt_eq hat hfits _)
  | doubleQuoted => exact hend (quotedAt_eq hat hfits _)
  | template => exact hend (templateAt_eq hat hfits)
  | lineComment => exact hend (lineCommentAt_eq hfits)
  | blockComment => exact hend (blockCommentAt_eq hat hfits)

/-! ## Counters -/

variable {source : List Char} {regions next : OpenRegions} {place : Cursor} {piece : List Char}
  {done : List (Visit OpenRegions)}

theorem fits_cons_iff {region : Region} {outer : List Region} :
    (OpenRegions.mk (region :: outer)).fits = true ↔ region.fits = true ∧ (OpenRegions.mk outer).fits = true := by
  rw [OpenRegions.fits, List.all_cons, Bool.and_eq_true]
  rfl

/-- A turn changes the innermost counter only. -/
theorem fits_of_turn (h : regions.Turn piece next) (hfits : regions.fits = true) (hinner : next.innermost.fits = true) :
    next.fits = true := by
  cases h with
  | stay => exact hfits
  | opens => exact fits_cons_iff.2 ⟨hinner, hfits⟩
  | hole => exact fits_cons_iff.2 ⟨hinner, hfits⟩
  | opening => exact fits_cons_iff.2 ⟨hinner, (fits_cons_iff.1 hfits).2⟩
  | closing => exact fits_cons_iff.2 ⟨hinner, (fits_cons_iff.1 hfits).2⟩
  | closed => exact (fits_cons_iff.1 hfits).2
  | ends => exact (fits_cons_iff.1 hfits).2

/-- Where no innermost counter is too high none is. -/
theorem reaches_fits (h : (keywordPass table).Reaches source done regions place)
    (hdone : ∀ v ∈ done, v.state.innermost.fits = true) (hfits : regions.innermost.fits = true) : regions.fits = true := by
  induction h with
  | start => rfl
  | @step done regions place h hrest ih =>
      have hbefore := ih (fun v hv => hdone v (List.mem_append_left _ hv))
        (hdone _ (List.mem_append_right _ List.mem_cons_self))
      exact fits_of_turn (step_turn (reaches_nested h) hrest) hbefore hfits

theorem innermost_fits (h : regions.fits = true) : regions.innermost.fits = true := by
  rcases regions with ⟨_ | ⟨region, outer⟩⟩
  · rfl
  · exact (fits_cons_iff.1 h).1

theorem allFit_eq (table : List Rule) (source : List Char) :
    Loop.allFit OpenRegions.fits ((keywordPass table).run source) = ((keywordPass table).run source).fits := by
  rw [Bool.eq_iff_iff, Loop.allFit, Trace.fits]
  simp only [Bool.and_eq_true, List.all_eq_true]
  constructor
  · exact fun h => ⟨fun v hv => innermost_fits (h.1 v hv), innermost_fits h.2⟩
  · rintro ⟨hvisits, hfinal⟩
    obtain ⟨_, _, hend⟩ := (keywordPass table).run_reaches source
    refine ⟨fun v hv => ?_, reaches_fits hend hvisits hfinal⟩
    obtain ⟨earlier, hreach, -, -, -, later, hall⟩ := Pass.of_mem_run hv
    exact reaches_fits hreach (fun u hu => hvisits u (hall ▸ List.mem_append_left _ hu)) (hvisits v hv)

/-! ## A whole scan -/

/-- The loop makes the steps of the keyword pass. -/
theorem scanLoop_follows (table : List Rule) (source : List Char) :
    Loop.Follows (keywordPass table) id OpenRegions.fits source (scanLoop source table) := by
  constructor
  case start => rfl
  case stop =>
    intro done regions place hreach hrest
    simp [scanLoop, Walk.ofVisits, Loop.cutAt_of_reaches hreach, hrest]
  case step =>
    intro done regions place hreach hfits hrest
    have hloop : scanLoop (readBy done ++ place.rest) table (.ofVisits id done regions) =
        (checked (.ofVisits id done regions) (step table regions ⟨(readBy done).getLast?, place.rest⟩)).map some :=
      scanLoop_eq rfl hfits hrest
    rw [← hreach.text_eq, ← hreach.before_eq, checked] at hloop
    rw [keywordPass_step, hloop]
    split_ifs <;> rfl

theorem fits_of_within {n : Nat} (h : regions.Within n) (hn : n ≤ Region.maxHoleDepth) : regions.fits = true := by
  refine List.all_eq_true.2 fun region hregion => ?_
  cases region with
  | hole depth => exact decide_eq_true (Nat.le_trans (h depth hregion) hn)
  | _ => rfl

theorem braces_of_not_fits (h : (keywordPass table).Reaches source done regions place) (hfits : regions.fits = false) :
    Region.maxHoleDepth ≤ source.count '{' := by
  by_contra hfew
  have hcount : (readBy done).count '{' ≤ source.count '{' := by
    rw [h.text_eq, List.count_append]
    exact Nat.le_add_right _ _
  rw [fits_of_within (reaches_within h) (by omega)] at hfits
  cases hfits

/-- What holds of the loop of the scan, with any table over any text. -/
structure ScanTotal (table : List Rule) (source : List Char) : Prop where
  advances : Loop.Advances source (scanLoop source table) (.start .bottom)
  /-- Only the full counter of a hole breaks it off, and only after so many braces. -/
  fault : ∀ n walk fault, (scanLoop source table).Comes (.start .bottom) n walk →
    scanLoop source table walk = .error fault →
    fault = .abort .holeTooDeep ∧ Region.maxHoleDepth ≤ source.count '{'
  /-- It comes to the end with what the keyword pass writes, or it is broken off where the pass is. -/
  run : ∀ bound, source.length ≤ bound → (scanLoop source table).run bound (.start .bottom) =
    match traceKeywords table source with
    | .ok trace => .ok (some ⟨byteLength source, trace.output, trace.final⟩)
    | .error reason => .error (.abort reason)

theorem scan_total (table : List Rule) (source : List Char) : ScanTotal table source := by
  have hfollows := scanLoop_follows table source
  constructor
  case advances => exact hfollows.advances
  case fault =>
    intro n walk fault hcomes hfault
    obtain ⟨hhole, done, regions, place, hreach, hfits⟩ := hfollows.fault hcomes hfault
    exact ⟨hhole, braces_of_not_fits hreach hfits⟩
  case run =>
    intro bound hbound
    refine (hfollows.run_eq hbound).trans ?_
    rw [allFit_eq, traceKeywords]
    split_ifs <;> rfl

end Keywords

end HangulScript
