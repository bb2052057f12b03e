import HangulScript.Proofs.Methods.Members
import HangulScript.Proofs.Scan.Offsets

/-!
# The method pass by byte offsets

The pass that drops `function` from methods as a loop over byte offsets. It looks for its words at the offset it has come
to, and for the last solid character in what it has written.
-/

namespace HangulScript

open Text

namespace Methods

/-! ## The loop -/

section

variable (source : List Char)

/-- The word stands alone at the offset. -/
def holdsWordAt (word : List Char) (offset : Nat) : Except Fault Bool := do
  let (_, rest) ← cutAt source offset
  if !word.isPrefixOf rest then return false
  aloneAt source word offset

/-- The offset after the space that stands there, if one does. -/
def skipSpaceAt (offset : Nat) : Except Fault Nat := do
  let (_, rest) ← cutAt source offset
  return if rest.head? = some ' ' then offset + 1 else offset

/-- An iteration at a character that is no brace. -/
def memberAt (c : Char) (walk : Walk Frames) : Except Fault (Walk Frames) := do
  if walk.memory.braces.head? = some .classBody then
    if (← holdsWordAt source (asyncLead ++ functionWord) walk.offset) && canBeginMember (lastSolidAfter none walk.out) then
      return ⟨← skipSpaceAt source (walk.offset + byteLength (asyncLead ++ functionWord)), walk.out ++ asyncLead, walk.memory⟩
    if (← holdsWordAt source functionWord walk.offset) && canBeginMember (lastSolidAfter none walk.out) then
      return ⟨← skipSpaceAt source (walk.offset + byteLength functionWord), walk.out, walk.memory⟩
  return walk.bump c

/-- The loop of the method pass. -/
def methodLoop : Loop Frames := fun walk => do
  let (_, rest) ← cutAt source walk.offset
  match rest with
  | [] => return none
  | c :: _ =>
    if ← holdsWordAt source classWord walk.offset then
      return some ⟨walk.offset + byteLength classWord, walk.out ++ classWord, ⟨walk.memory.braces, true⟩⟩
    match c with
    | '{' =>
      let brace := if walk.memory.classAhead then .classBody else walk.memory.braces.headD .other
      return some ((walk.bump c).remember ⟨brace :: walk.memory.braces, false⟩)
    | '}' => return some ((walk.bump c).remember ⟨walk.memory.braces.tail, walk.memory.classAhead⟩)
    | _ => return some (← memberAt source c walk)

end

/-! ## The steps of the pass -/

variable {source lead rest word : List Char} {c : Char} {walk : Walk Frames} {state : State} {place : Cursor}
  {done : List (Visit State)}

theorem holdsWordAt_eq (word : List Char) :
    holdsWordAt (lead ++ rest) word (byteLength lead) = .ok ((Cursor.mk lead.getLast? rest).holdsWord word) := by
  rw [holdsWordAt, cutAt_append, Cursor.holdsWord]
  cases hword : word.isPrefixOf rest with
  | false => simp [hword]
  | true => simp [hword, aloneAt_append (List.isPrefixOf_iff_prefix.1 hword)]

/-- The offset after a dropped word is the one after what its elision takes. -/
theorem skipSpaceAt_eq (lead kept : List Char) (hword : kept ++ functionWord <+: rest) :
    skipSpaceAt (lead ++ rest) (byteLength lead + byteLength (kept ++ functionWord)) =
      .ok (byteLength lead + (byteLength kept + byteLength (elision (rest.drop kept.length)))) := by
  obtain ⟨after, rfl⟩ := hword
  have hcut := cutAt_append (lead ++ (kept ++ functionWord)) after
  rw [List.append_assoc lead, byteLength_append] at hcut
  rw [skipSpaceAt, hcut, List.append_assoc, List.drop_left, elision, List.drop_left]
  simp only [Fault.ok_bind, Fault.pure_eq_ok, byteLength_append]
  split_ifs with hspace
  · obtain ⟨after, rfl⟩ := List.head?_eq_some_iff.1 hspace
    have htake : (functionWord ++ ' ' :: after).take (functionWord.length + 1) = functionWord ++ [' '] := rfl
    have hsize : (' ' : Char).utf8Size = 1 := rfl
    rw [htake, byteLength_append, byteLength_cons, byteLength_nil, hsize, Nat.add_zero]
    simp only [Nat.add_assoc]
  · rw [List.take_left]

/-- No word that is looked for begins with a brace. -/
theorem edit_of_brace (hclass : place.holdsWord classWord = false) (hrest : place.rest = c :: rest)
    (hbrace : c = '{' ∨ c = '}') : edit state place = .copy [c] := by
  rcases edit_forms state (hrest ▸ List.cons_ne_nil c rest) with ⟨hholds, -⟩ | hdrops | ⟨d, _, hd, hedit, -⟩
  · rw [hclass] at hholds
    cases hholds
  · have hbegins := (Cursor.holdsWord_iff.1 hdrops.word).1
    rw [hrest] at hbegins
    rcases hdrops.kept with hkept | hkept <;> rcases hbrace with rfl | rfl <;> rw [hkept] at hbegins <;>
      cases head?_of_begins hbegins
  · rw [hedit, (List.cons.inj (hrest.symm.trans hd)).1]

theorem memberAt_eq (hat : walk.offset = byteLength lead) (hlast : state.lastSolid = lastSolidAfter none walk.out)
    (hframes : walk.memory = state.frames)
    (hclass : (Cursor.mk lead.getLast? (c :: rest)).holdsWord classWord = false) :
    memberAt (lead ++ c :: rest) c walk = .ok (walk.follow (edit state ⟨lead.getLast?, c :: rest⟩) walk.memory) := by
  have hbraces : walk.memory.braces = state.braces := congrArg Frames.braces hframes
  have hmember : state.atMember =
      (decide (walk.memory.braces.head? = some .classBody) && canBeginMember (lastSolidAfter none walk.out)) := by
    rw [State.atMember, hbraces, hlast]
  have hcopies : (Cursor.mk lead.getLast? (c :: rest)).rest.take 1 = [c] := rfl
  rw [memberAt, edit, hclass, if_neg Bool.false_ne_true, hmember, hcopies]
  by_cases hbody : walk.memory.braces.head? = some .classBody
  · rw [if_pos hbody]
    simp only [hat, holdsWordAt_eq, Fault.ok_bind, hbody, decide_true, Bool.true_and,
      Bool.and_comm (canBeginMember (lastSolidAfter none walk.out))]
    split_ifs with hasync hbare
    · have hbegins : asyncLead ++ functionWord <+: c :: rest :=
        (Cursor.holdsWord_iff.1 (Bool.and_eq_true_iff.1 hasync).1).1
      have hkept : (c :: rest).take asyncLead.length = asyncLead := by
        obtain ⟨after, hafter⟩ := hbegins
        rw [← hafter, List.append_assoc, List.take_left]
      rw [skipSpaceAt_eq lead asyncLead hbegins, hkept]
      simp [Walk.follow, Edit.consumed, Edit.written, hat]
    · have hbegins := (Cursor.holdsWord_iff.1 (Bool.and_eq_true_iff.1 hbare).1).1
      have hskip := skipSpaceAt_eq lead [] hbegins
      rw [List.nil_append] at hskip
      rw [hskip]
      simp [Walk.follow, Edit.consumed, Edit.written, hat]
    · rw [Walk.bump_eq]
      rfl
  · rw [if_neg hbody]
    simp [hbody, Walk.bump_eq]

/-- An iteration makes a step of the pass. -/
theorem methodLoop_eq (hat : walk.offset = byteLength lead) (hlast : state.lastSolid = lastSolidAfter none walk.out)
    (hframes : walk.memory = state.frames) (hrest : rest ≠ []) :
    methodLoop (lead ++ rest) walk =
      .ok (some (walk.follow (edit state ⟨lead.getLast?, rest⟩) (walk.memory.over ⟨lead.getLast?, rest⟩))) := by
  obtain ⟨c, rest, rfl⟩ := List.exists_cons_of_ne_nil hrest
  rw [methodLoop, hat, cutAt_append, Frames.over]
  simp only [Fault.ok_bind, holdsWordAt_eq]
  cases hclass : (Cursor.mk lead.getLast? (c :: rest)).holdsWord classWord with
  | true =>
      rw [edit_of_class hclass]
      simp [Walk.follow, hat]
  | false =>
      by_cases hopening : c = '{'
      · subst hopening
        rw [edit_of_brace hclass rfl (Or.inl rfl)]
        exact congrArg (fun walk => Except.ok (some walk)) (Walk.bump_remember walk _ _)
      by_cases hclosing : c = '}'
      · subst hclosing
        rw [edit_of_brace hclass rfl (Or.inr rfl)]
        exact congrArg (fun walk => Except.ok (some walk)) (Walk.bump_remember walk _ _)
      · have hhead : (c :: rest).head? ≠ some '{' ∧ (c :: rest).head? ≠ some '}' := by simp [hopening, hclosing]
        rw [if_neg Bool.false_ne_true, if_neg hhead.1, if_neg hhead.2]
        simp [memberAt_eq hat hlast hframes hclass]

/-! ## A whole run -/

/-- The loop makes the steps of the method pass. -/
theorem methodLoop_follows (source : List Char) :
    Loop.Follows methodPass State.frames (fun _ => true) source (methodLoop source) := by
  constructor
  case start => rfl
  case stop =>
    intro done state place hreach hrest
    simp [methodLoop, Walk.ofVisits, Loop.cutAt_of_reaches hreach, hrest]
  case step =>
    intro done state place hreach _ hrest
    have hloop : methodLoop (readBy done ++ place.rest) (.ofVisits State.frames done state) = _ :=
      methodLoop_eq rfl (reaches_lastSolid hreach) rfl hrest
    rw [← hreach.text_eq, ← hreach.before_eq] at hloop
    rw [if_pos rfl, hloop, Walk.ofVisits, ← frames_enter]
    rfl

/-- What holds of the loop of the method pass over any text. -/
structure MethodsTotal (source : List Char) : Prop where
  advances : Loop.Advances source (methodLoop source) (.start ⟨[], false⟩)
  unbroken : ∀ n walk fault, (methodLoop source).Comes (.start ⟨[], false⟩) n walk → methodLoop source walk ≠ .error fault
  /-- It comes to the end with what the pass writes, whatever braces are open there. -/
  run : ∀ bound, source.length ≤ bound → (methodLoop source).run bound (.start ⟨[], false⟩) =
    .ok (some ⟨byteLength source, bareMethods source, (methodPass.run source).final.frames⟩)

theorem methods_total (source : List Char) : MethodsTotal source := by
  have hfollows := methodLoop_follows source
  constructor
  case advances => exact hfollows.advances
  case unbroken =>
    intro n walk fault hcomes hfault
    obtain ⟨-, _, _, _, -, hfits⟩ := hfollows.fault hcomes hfault
    cases hfits
  case run =>
    intro bound hbound
    have hall : Loop.allFit (fun _ => true) (methodPass.run source) = true := by simp [Loop.allFit]
    exact (hfollows.run_eq hbound).trans (if_pos hall)

end Methods

/-! ## Both passes -/

/-- The loops of both passes over a text, and where the text can be cut. -/
structure PassesTotal (table : List Rule) (source : List Char) : Prop where
  cuts : ∀ offset, (∃ parts, cutAt source offset = .ok parts) ↔
    String.Pos.Raw.IsValid (String.ofList source) ⟨offset⟩
  scan : Keywords.ScanTotal table source
  methods : Methods.MethodsTotal source

/-- Both passes come to the end of every text and cut it between two characters only. Nothing but the counter of a hole can
break one of them off. -/
theorem passes_total (table : List Rule) (source : List Char) : PassesTotal table source where
  cuts _ := cutAt_isOk_iff
  scan := Keywords.scan_total table source
  methods := Methods.methods_total source

end HangulScript
