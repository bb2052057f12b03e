import Mathlib.Tactic.SplitIfs
import HangulScript.Abort
import HangulScript.Proofs.Pass.Reaches
import HangulScript.Text.Word

/-!
# Passes by byte offsets

A pass as a loop over byte offsets, which cuts the text at an offset wherever it looks at it. A cut inside of a character or
after the end breaks the loop off. Where each iteration makes the step of a pass, no such cut is made, every iteration goes
on to a later character, and the loop stops at the end of the text with what the pass writes.
-/

namespace HangulScript

open Text

/-- Why a loop is broken off. -/
inductive Fault
  /-- The text was to be cut inside of a character or after its end. -/
  | badCut
  | abort (reason : Abort)
deriving DecidableEq, Repr

@[simp] theorem Fault.ok_bind {α β : Type} (a : α) (next : α → Except Fault β) : (Except.ok a >>= next) = next a := rfl

@[simp] theorem Fault.pure_eq_ok {α : Type} (a : α) : (pure a : Except Fault α) = .ok a := rfl

/-! ## Cuts -/

namespace Text

variable {lead rest : List Char} {n : Nat}

/-- The text before a byte offset and the text after it. -/
def cutAt (text : List Char) (offset : Nat) : Except Fault (List Char × List Char) :=
  match Cursor.atOffset? text offset with
  | some place => .ok (text.take (text.length - place.rest.length), place.rest)
  | none => .error .badCut

/-- The text between two byte offsets. -/
def pieceAt (text : List Char) (first last : Nat) : Except Fault (List Char) := do
  let (before, _) ← cutAt text last
  let (_, piece) ← cutAt before first
  return piece

/-- No identifier reaches the offset from the left. -/
def freeBeforeAt (text : List Char) (offset : Nat) : Except Fault Bool := do
  let (before, _) ← cutAt text offset
  return !before.getLast?.any isNameChar

/-- No identifier goes on at the offset. -/
def freeAfterAt (text : List Char) (offset : Nat) : Except Fault Bool := do
  let (_, rest) ← cutAt text offset
  return !rest.head?.any isNameChar

/-- No identifier touches the word at the offset. -/
def aloneAt (text word : List Char) (offset : Nat) : Except Fault Bool := do
  if !(← freeBeforeAt text offset) then return false
  freeAfterAt text (offset + byteLength word)

theorem cutAt_append (lead rest : List Char) : cutAt (lead ++ rest) (byteLength lead) = .ok (lead, rest) := by
  have hplace : Cursor.atOffset? (lead ++ rest) (byteLength lead) = some ⟨lead.getLast?, rest⟩ :=
    Cursor.atOffset?_eq_some_iff.2 ⟨lead, rfl, rfl, rfl⟩
  simp [cutAt, hplace]

theorem utf8ByteSize_ofList (text : List Char) : (String.ofList text).utf8ByteSize = byteLength text := by
  induction text with
  | nil => rfl
  | cons c text ih =>
      rw [← List.singleton_append, String.ofList_append, String.utf8ByteSize_append, ← String.singleton_eq_ofList,
        String.utf8ByteSize_singleton, ih]
      rfl

theorem isValid_byteLength (lead rest : List Char) :
    String.Pos.Raw.IsValid (String.ofList (lead ++ rest)) ⟨byteLength lead⟩ :=
  String.Pos.Raw.isValid_ofList.2 ⟨lead.length, by rw [List.take_left, utf8ByteSize_ofList]⟩

/-- A text can be cut at the boundaries between its characters, and nowhere else. -/
theorem cutAt_isOk_iff {text : List Char} :
    (∃ parts, cutAt text n = .ok parts) ↔ String.Pos.Raw.IsValid (String.ofList text) ⟨n⟩ := by
  constructor
  · rintro ⟨parts, hparts⟩
    unfold cutAt at hparts
    split at hparts
    · next place hplace =>
        obtain ⟨skipped, rfl, rfl, -⟩ := Cursor.atOffset?_eq_some_iff.1 hplace
        exact isValid_byteLength skipped place.rest
    · cases hparts
  · intro hvalid
    obtain ⟨i, hi⟩ := String.Pos.Raw.isValid_ofList.1 hvalid
    obtain rfl : n = byteLength (text.take i) := hi.trans (utf8ByteSize_ofList _)
    have hcut := cutAt_append (text.take i) (text.drop i)
    rw [List.take_append_drop] at hcut
    exact ⟨_, hcut⟩

example : cutAt "상수".toList 3 = .ok (['상'], ['수']) ∧ cutAt "상수".toList 4 = .error .badCut ∧
    cutAt "상수".toList 7 = .error .badCut :=
  ⟨rfl, rfl, rfl⟩

theorem pieceAt_append (lead piece rest : List Char) :
    pieceAt (lead ++ (piece ++ rest)) (byteLength lead) (byteLength lead + byteLength piece) = .ok piece := by
  rw [pieceAt, ← byteLength_append, ← List.append_assoc, cutAt_append]
  simp only [Fault.ok_bind, cutAt_append, Fault.pure_eq_ok]

/-- The character after a word is looked at only where the word stands. -/
theorem aloneAt_append {word : List Char} (hword : word <+: rest) :
    aloneAt (lead ++ rest) word (byteLength lead) =
      .ok ((Cursor.mk lead.getLast? rest).freeBefore &&
        ((Cursor.mk lead.getLast? rest).advance word.length).freeAfter) := by
  have hbefore : freeBeforeAt (lead ++ rest) (byteLength lead) = .ok (Cursor.mk lead.getLast? rest).freeBefore := by
    rw [freeBeforeAt, cutAt_append]
    rfl
  have hafter : freeAfterAt (lead ++ rest) (byteLength lead + byteLength word) =
      .ok ((Cursor.mk lead.getLast? rest).advance word.length).freeAfter := by
    obtain ⟨after, rfl⟩ := hword
    rw [freeAfterAt, ← byteLength_append, ← List.append_assoc, cutAt_append, Cursor.advance_append rfl]
    rfl
  rw [aloneAt, hbefore, hafter]
  cases (Cursor.mk lead.getLast? rest).freeBefore <;> rfl

end Text

/-! ## Loops -/

variable {σ τ : Type}

/-- What a loop works on: the byte offset it has come to, what it has written and what it remembers. -/
structure Walk (τ : Type) where
  offset : Nat
  out : List Char
  memory : τ

namespace Walk

def start (memory : τ) : Walk τ :=
  ⟨0, [], memory⟩

/-- The walk after the character `c` has been copied. -/
def bump (walk : Walk τ) (c : Char) : Walk τ :=
  { walk with offset := walk.offset + c.utf8Size, out := walk.out ++ [c] }

/-- The walk after the next `size` bytes of the text have been copied. -/
def copy (walk : Walk τ) (text : List Char) (size : Nat) : Except Fault (Walk τ) := do
  let piece ← pieceAt text walk.offset (walk.offset + size)
  return { walk with offset := walk.offset + size, out := walk.out ++ piece }

def remember (walk : Walk τ) (memory : τ) : Walk τ :=
  { walk with memory := memory }

/-- The walk after an edit. -/
def follow (walk : Walk τ) (edit : Edit) (memory : τ) : Walk τ :=
  ⟨walk.offset + byteLength edit.consumed, walk.out ++ edit.written, memory⟩

theorem bump_eq (walk : Walk τ) (c : Char) : walk.bump c = walk.follow (.copy [c]) walk.memory := by
  simp [bump, follow]

theorem bump_remember (walk : Walk τ) (c : Char) (memory : τ) :
    (walk.bump c).remember memory = walk.follow (.copy [c]) memory := by
  simp [bump, remember, follow]

theorem copy_eq {walk : Walk τ} {lead : List Char} (hat : walk.offset = byteLength lead) (memory : τ)
    (piece rest : List Char) :
    (walk.remember memory).copy (lead ++ (piece ++ rest)) (byteLength piece) = .ok (walk.follow (.copy piece) memory) := by
  rw [copy, remember, hat, pieceAt_append]
  simp [follow, hat]

/-- The walk of a pass that has come to a state. -/
def ofVisits (view : σ → τ) (done : List (Visit σ)) (state : σ) : Walk τ :=
  ⟨byteLength (readBy done), writtenBy done, view state⟩

end Walk

/-- One iteration of a loop; none where it stops. -/
abbrev Loop (τ : Type) := Walk τ → Except Fault (Option (Walk τ))

namespace Loop

/-- The loop, with at most `bound` iterations; none if it would go on. -/
def run (loop : Loop τ) : Nat → Walk τ → Except Fault (Option (Walk τ))
  | 0, walk => do
    match ← loop walk with
    | none => return some walk
    | some _ => return none
  | bound + 1, walk => do
    match ← loop walk with
    | none => return some walk
    | some next => loop.run bound next

/-- The loop comes to a walk after a number of iterations. -/
inductive Comes (loop : Loop τ) (start : Walk τ) : Nat → Walk τ → Prop
  | start : Comes loop start 0 start
  | next {n : Nat} {walk next : Walk τ} (h : Comes loop start n walk) (hnext : loop walk = .ok (some next)) :
      Comes loop start (n + 1) next

/-- No iteration makes a bad cut. Each one starts at a boundary between two characters and goes on to a later one, and
only at the end of the text there is none. -/
structure Advances (text : List Char) (loop : Loop τ) (start : Walk τ) : Prop where
  cuts : ∀ n walk, loop.Comes start n walk → loop walk ≠ .error .badCut
  boundary : ∀ n walk, loop.Comes start n walk →
    String.Pos.Raw.IsValid (String.ofList text) ⟨walk.offset⟩ ∧ walk.offset ≤ byteLength text
  forward : ∀ n walk next, loop.Comes start n walk → loop walk = .ok (some next) → walk.offset < next.offset
  bounded : ∀ n walk, loop.Comes start n walk → n ≤ text.length
  stops : ∀ n walk, loop.Comes start n walk → (loop walk = .ok none ↔ walk.offset = byteLength text)

variable {pass : Pass σ} {view : σ → τ} {fits : σ → Bool} {text : List Char} {loop : Loop τ}
  {done : List (Visit σ)} {state : σ} {place : Cursor}

/-- Each iteration makes the step of the pass, unless the state after it does not fit. -/
structure Follows (pass : Pass σ) (view : σ → τ) (fits : σ → Bool) (text : List Char) (loop : Loop τ) : Prop where
  start : fits pass.start = true
  stop : ∀ {done state place}, pass.Reaches text done state place → place.rest = [] →
    loop (.ofVisits view done state) = .ok none
  step : ∀ {done state place}, pass.Reaches text done state place → fits state = true → place.rest ≠ [] →
    loop (.ofVisits view done state) =
      if fits (pass.step state place).2 then
        .ok (some (Walk.follow (.ofVisits view done state) (pass.step state place).1 (view (pass.step state place).2)))
      else .error (.abort .holeTooDeep)

theorem ofVisits_concat (done : List (Visit σ)) (offset : Nat) (place : Cursor) (state next : σ) (edit : Edit) :
    Walk.ofVisits view (done ++ [⟨offset, place, state, edit⟩]) next =
      (Walk.ofVisits view done state).follow edit (view next) := by
  simp [Walk.ofVisits, Walk.follow]

theorem cutAt_of_reaches (h : pass.Reaches text done state place) :
    cutAt text (byteLength (readBy done)) = .ok (readBy done, place.rest) := by
  rw [h.text_eq, cutAt_append]

/-- The loop comes to the places of the pass only. -/
theorem Follows.reaches (h : Follows pass view fits text loop) {n : Nat} {walk : Walk τ}
    (hcomes : loop.Comes (.start (view pass.start)) n walk) : ∃ done state place,
      pass.Reaches text done state place ∧ fits state = true ∧ walk = .ofVisits view done state ∧ done.length = n := by
  induction hcomes with
  | start => exact ⟨[], pass.start, _, .start, h.start, rfl, rfl⟩
  | next _ hnext ih =>
      obtain ⟨done, state, place, hreach, hfits, rfl, rfl⟩ := ih
      by_cases hrest : place.rest = []
      · rw [h.stop hreach hrest] at hnext
        cases hnext
      · rw [h.step hreach hfits hrest] at hnext
        split_ifs at hnext with hfitsNext
        cases hnext
        refine ⟨_, _, _, hreach.step hrest, hfitsNext, (ofVisits_concat done _ place state _ _).symm, ?_⟩
        rw [List.length_append, List.length_singleton]

theorem length_le_of_reaches (h : pass.Reaches text done state place) : done.length ≤ (readBy done).length := by
  induction h with
  | start => exact Nat.le_refl _
  | @step done state place _ hrest ih =>
      have hread := List.length_pos_iff.2 (pass.consumed_ne_nil state place hrest)
      simp only [List.length_append, List.length_singleton, readBy_append, readBy_cons, readBy_nil, List.append_nil]
      omega

/-- The loop breaks off only where the pass comes to a state that does not fit. -/
theorem Follows.fault (h : Follows pass view fits text loop) {n : Nat} {walk : Walk τ} {fault : Fault}
    (hcomes : loop.Comes (.start (view pass.start)) n walk) (hfault : loop walk = .error fault) :
    fault = .abort .holeTooDeep ∧ ∃ done state place, pass.Reaches text done state place ∧ fits state = false := by
  obtain ⟨done, state, place, hreach, hfits, rfl, -⟩ := h.reaches hcomes
  by_cases hrest : place.rest = []
  · rw [h.stop hreach hrest] at hfault
    cases hfault
  · rw [h.step hreach hfits hrest] at hfault
    split_ifs at hfault with hnext
    cases hfault
    exact ⟨rfl, _, _, _, hreach.step hrest, Bool.eq_false_iff.2 hnext⟩

theorem Follows.advances (h : Follows pass view fits text loop) : Advances text loop (.start (view pass.start)) := by
  constructor
  case cuts => exact fun n walk hcomes hcut => nomatch (h.fault hcomes hcut).1
  case boundary =>
    rintro n _ hcomes
    obtain ⟨done, state, place, hreach, -, rfl, -⟩ := h.reaches hcomes
    have hle : byteLength (readBy done) ≤ byteLength (readBy done ++ place.rest) := by
      rw [byteLength_append]
      exact Nat.le_add_right _ _
    rw [hreach.text_eq]
    exact ⟨isValid_byteLength _ _, hle⟩
  case forward =>
    rintro n _ next hcomes hnext
    obtain ⟨done, state, place, hreach, hfits, rfl, -⟩ := h.reaches hcomes
    by_cases hrest : place.rest = []
    · rw [h.stop hreach hrest] at hnext
      cases hnext
    · rw [h.step hreach hfits hrest] at hnext
      split_ifs at hnext
      cases hnext
      have hread := List.length_pos_iff.2 (pass.consumed_ne_nil state place hrest)
      have hsize := length_le_byteLength (pass.step state place).1.consumed
      simp only [Walk.follow]
      omega
  case bounded =>
    rintro n _ hcomes
    obtain ⟨done, state, place, hreach, -, rfl, rfl⟩ := h.reaches hcomes
    have hlength := length_le_of_reaches hreach
    rw [hreach.text_eq, List.length_append]
    omega
  case stops =>
    rintro n _ hcomes
    obtain ⟨done, state, place, hreach, hfits, rfl, -⟩ := h.reaches hcomes
    by_cases hrest : place.rest = []
    · refine iff_of_true (h.stop hreach hrest) ?_
      rw [hreach.text_eq, hrest, List.append_nil]
      rfl
    · refine iff_of_false ?_ ?_
      · rw [h.step hreach hfits hrest]
        split_ifs <;> nofun
      · have hpos := List.length_pos_iff.2 hrest
        have hsize := length_le_byteLength place.rest
        rw [hreach.text_eq, byteLength_append]
        simp only [Walk.ofVisits]
        omega

/-! ## Whole runs -/

theorem run_of_stop {walk : Walk τ} (hstop : loop walk = .ok none) (bound : Nat) :
    loop.run bound walk = .ok (some walk) := by
  cases bound <;> rw [run, hstop] <;> rfl

theorem run_of_next {walk next : Walk τ} (hnext : loop walk = .ok (some next)) (bound : Nat) :
    loop.run (bound + 1) walk = loop.run bound next := by
  rw [run, hnext]
  rfl

theorem run_of_fault {walk : Walk τ} {fault : Fault} (hfault : loop walk = .error fault) (bound : Nat) :
    loop.run bound walk = .error fault := by
  cases bound <;> rw [run, hfault] <;> rfl

/-- All states in which the pass comes to a place fit. -/
def allFit (fits : σ → Bool) (trace : Trace σ) : Bool :=
  trace.visits.all (fits ·.state) && fits trace.final

theorem allFit_of_not_fits {offset : Nat} (hfits : fits state = false) :
    allFit fits (pass.runFrom offset state place) = false := by
  by_cases hrest : place.rest = []
  · simp [pass.runFrom_nil hrest, allFit, hfits]
  · simp [pass.runFrom_of_ne_nil hrest, allFit, hfits]

theorem allFit_of_ne_nil {offset : Nat} (hrest : place.rest ≠ []) (hfits : fits state = true) :
    allFit fits (pass.runFrom offset state place) =
      allFit fits (pass.runFrom (offset + byteLength (pass.step state place).1.consumed) (pass.step state place).2
        (place.advance (pass.step state place).1.consumed.length)) := by
  rw [pass.runFrom_of_ne_nil hrest]
  simp [allFit, hfits]

theorem Follows.run_at_end (h : Follows pass view fits text loop) (hreach : pass.Reaches text done state place)
    (hfits : fits state = true) (hrest : place.rest = []) (bound : Nat) :
    loop.run bound (.ofVisits view done state) =
      if allFit fits (pass.runFrom (byteLength (readBy done)) state place) then
        .ok (some ⟨byteLength text, (pass.run text).output, view (pass.run text).final⟩)
      else .error (.abort .holeTooDeep) := by
  have hread : text = readBy done := by rw [hreach.text_eq, hrest, List.append_nil]
  have hall : allFit fits (⟨[], state⟩ : Trace σ) = true := by simp [allFit, hfits]
  rw [run_of_stop (h.stop hreach hrest), pass.runFrom_nil hrest, if_pos hall, hreach.run_eq_of_nil hrest,
    Walk.ofVisits, ← hread]
  rfl

/-- From every place of the pass the loop goes on to the end, unless a state does not fit. -/
theorem Follows.run_from (h : Follows pass view fits text loop) {bound : Nat} (hreach : pass.Reaches text done state place)
    (hfits : fits state = true) (hbound : place.rest.length ≤ bound) :
    loop.run bound (.ofVisits view done state) =
      if allFit fits (pass.runFrom (byteLength (readBy done)) state place) then
        .ok (some ⟨byteLength text, (pass.run text).output, view (pass.run text).final⟩)
      else .error (.abort .holeTooDeep) := by
  induction bound generalizing done state place with
  | zero =>
      have hrest : place.rest = [] := List.eq_nil_of_length_eq_zero (Nat.le_zero.1 hbound)
      exact h.run_at_end hreach hfits hrest 0
  | succ bound ih =>
      by_cases hrest : place.rest = []
      · exact h.run_at_end hreach hfits hrest (bound + 1)
      · have hstep := h.step hreach hfits hrest
        have hlt := pass.length_advance_lt state hrest
        rw [allFit_of_ne_nil hrest hfits]
        cases hnext : fits (pass.step state place).2 with
        | false =>
            rw [hnext, if_neg Bool.false_ne_true] at hstep
            rw [run_of_fault hstep, allFit_of_not_fits hnext, if_neg Bool.false_ne_true]
        | true =>
            rw [hnext, if_pos rfl] at hstep
            have hlater := ih (hreach.step hrest) hnext (by omega)
            rw [ofVisits_concat] at hlater
            rw [run_of_next hstep, hlater]
            simp

/-- With at least as many iterations as the text has characters the loop comes to the end. -/
theorem Follows.run_eq (h : Follows pass view fits text loop) {bound : Nat} (hbound : text.length ≤ bound) :
    loop.run bound (.start (view pass.start)) =
      if allFit fits (pass.run text) then
        .ok (some ⟨byteLength text, (pass.run text).output, view (pass.run text).final⟩)
      else .error (.abort .holeTooDeep) :=
  h.run_from .start h.start hbound

end Loop

end HangulScript
