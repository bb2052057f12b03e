import Mathlib.Data.List.Basic
import HangulScript.Proofs.Pass.Reaches
import HangulScript.Text.Word

/-!
# From a place to the end

What a pass writes from a place on, whether it leaves the text there as it is, and what it makes of a text that goes on
after the end.
-/

namespace HangulScript

open Text

variable {σ : Type}

/-! ## Words in a text -/

/-- The text begins with the word and goes on as `after` does, with an identifier or without one. -/
def Text.GoesOn (word after text : List Char) : Prop :=
  ∃ rest, text = word ++ rest ∧ after.head?.any isNameChar = rest.head?.any isNameChar

theorem Text.goesOn_of_piece {word after piece out rest : List Char} (hout : word ++ after = piece ++ out)
    (h : ∀ more, word = piece ++ more → more ++ after = out → GoesOn more after rest) :
    GoesOn word after (piece ++ rest) := by
  rcases append_cases hout.symm with ⟨more, hcut, hmore⟩ | ⟨more, hne, rfl, rfl⟩
  · obtain ⟨rest, rfl, hafter⟩ := h more hcut hmore.symm
    exact ⟨rest, by rw [hcut, List.append_assoc], hafter⟩
  · -- the word ends inside the piece
    refine ⟨more ++ rest, by rw [List.append_assoc], ?_⟩
    rw [List.head?_append_of_ne_nil _ hne, List.head?_append_of_ne_nil _ hne]

namespace Pass

variable {pass : Pass σ} {state : σ} {place : Cursor}

/-! ## What is written from a place on -/

/-- From a place in a state the pass writes a text and ends in a state. -/
inductive Leads (pass : Pass σ) : σ → Cursor → List Char → σ → Prop
  | done {state : σ} {place : Cursor} (hrest : place.rest = []) : Leads pass state place [] state
  | step {state final : σ} {place : Cursor} {out : List Char} (hrest : place.rest ≠ [])
      (h : Leads pass (pass.step state place).2 (place.advance (pass.step state place).1.consumed.length) out final) :
      Leads pass state place ((pass.step state place).1.written ++ out) final

theorem leads_runFrom (pass : Pass σ) (offset : Nat) (state : σ) (place : Cursor) :
    Leads pass state place (pass.runFrom offset state place).output (pass.runFrom offset state place).final := by
  induction hn : place.rest.length using Nat.strongRecOn generalizing offset state place with
  | ind n ih =>
      by_cases hrest : place.rest = []
      · rw [pass.runFrom_nil hrest]
        exact .done hrest
      · have hlt := pass.length_advance_lt state hrest
        rw [pass.output_runFrom hrest, pass.runFrom_of_ne_nil hrest]
        exact .step hrest (ih _ (hn ▸ hlt) _ _ _ rfl)

theorem leads_run (pass : Pass σ) (text : List Char) :
    Leads pass pass.start (Cursor.start text) (pass.run text).output (pass.run text).final :=
  pass.leads_runFrom 0 pass.start (Cursor.start text)

theorem Leads.unique {out out' : List Char} {final final' : σ} (h : Leads pass state place out final)
    (h' : Leads pass state place out' final') : out = out' ∧ final = final' := by
  induction h generalizing out' final' with
  | done hrest =>
      cases h' with
      | done => exact ⟨rfl, rfl⟩
      | step hne => exact absurd hrest hne
  | step hne _ ih =>
      cases h' with
      | done hrest => exact absurd hrest hne
      | step _ h' =>
          obtain ⟨rfl, rfl⟩ := ih h'
          exact ⟨rfl, rfl⟩

theorem Leads.begins {out : List Char} {final : σ} (h : Leads pass state place out final) (hrest : place.rest ≠ []) :
    (pass.step state place).1.written <+: out := by
  cases h with
  | done hnil => exact absurd hnil hrest
  | step => exact List.prefix_append _ _

theorem Leads.of_step {edit : Edit} {next final : σ} {rest out : List Char} (hstep : pass.step state place = (edit, next))
    (hrest : place.rest = edit.consumed ++ rest) (hne : place.rest ≠ [])
    (h : Leads pass next ⟨edit.consumed.getLast?.or place.before, rest⟩ out final) :
    Leads pass state place (edit.written ++ out) final := by
  have hadvance := Cursor.advance_append hrest
  have hnext : Leads pass (pass.step state place).2 (place.advance (pass.step state place).1.consumed.length) out
      final := by
    rw [hstep, hadvance]
    exact h
  have := Leads.step hne hnext
  rwa [hstep] at this

theorem Leads.of_copy (piece : List Char) {before : Option Char} {next final : σ} {rest out : List Char}
    (hstep : pass.step state ⟨before, piece ++ rest⟩ = (.copy piece, next)) (hne : piece ≠ [])
    (h : Leads pass next ⟨piece.getLast?.or before, rest⟩ out final) :
    Leads pass state ⟨before, piece ++ rest⟩ (piece ++ out) final := by
  have hrest : piece ++ rest = (Edit.copy piece).consumed ++ rest := by rw [Edit.consumed_copy]
  rw [← Edit.consumed_copy piece] at h
  simpa using of_step hstep hrest (List.append_ne_nil_of_left_ne_nil hne rest) h

/-- Where no step changes the character `m` at the end of what it reads, neither does the run. -/
theorem Leads.getLast?_eq {m : Char} {out : List Char} {final : σ} (h : Leads pass state place out final)
    (hsteps : ∀ state place, place.rest ≠ [] → (pass.step state place).1.consumed.getLast? = some m →
      (pass.step state place).1.written.getLast? = some m)
    (hm : place.rest.getLast? = some m) : out.getLast? = some m := by
  induction h with
  | done hrest => simp [hrest] at hm
  | @step state final place out hrest h ih =>
      obtain ⟨rest, hread⟩ := pass.consumed_prefix state place
      rw [Cursor.advance_append hread.symm] at h ih
      rw [← hread, List.getLast?_append] at hm
      cases hlast : rest.getLast? with
      | none =>
          obtain ⟨rfl, -⟩ := h.unique (.done (List.getLast?_eq_none_iff.1 hlast))
          rw [hlast, Option.none_or] at hm
          rw [List.append_nil]
          exact hsteps state place hrest hm
      | some c =>
          obtain rfl : c = m := by simpa [hlast] using hm
          rw [List.getLast?_append, ih hlast, Option.some_or]

/-! ## Leaving a text as it is -/

/-- From a place in a state the pass copies everything. -/
inductive Idle (pass : Pass σ) : σ → Cursor → Prop
  | done {state : σ} {place : Cursor} (hrest : place.rest = []) : Idle pass state place
  | step {state : σ} {place : Cursor} {piece : List Char} (hrest : place.rest ≠ [])
      (hcopy : (pass.step state place).1 = .copy piece)
      (h : Idle pass (pass.step state place).2 (place.advance piece.length)) : Idle pass state place

theorem Idle.of_copy (piece : List Char) {before : Option Char} {next : σ} {rest : List Char}
    (hstep : pass.step state ⟨before, piece ++ rest⟩ = (.copy piece, next)) (hne : piece ≠ [])
    (h : Idle pass next ⟨piece.getLast?.or before, rest⟩) : Idle pass state ⟨before, piece ++ rest⟩ := by
  have hrest : (Cursor.mk before (piece ++ rest)).rest ≠ [] := List.append_ne_nil_of_left_ne_nil hne rest
  refine .step hrest (by rw [hstep]) ?_
  rw [hstep, Cursor.advance_append rfl]
  exact h

theorem Idle.runFrom (h : Idle pass state place) (offset : Nat) :
    (pass.runFrom offset state place).output = place.rest ∧ (pass.runFrom offset state place).changes = [] := by
  induction h generalizing offset with
  | done hrest =>
      rw [pass.runFrom_nil hrest, hrest]
      exact ⟨rfl, rfl⟩
  | @step state place piece hrest hcopy _ ih =>
      obtain ⟨rest, hread⟩ := pass.consumed_prefix state place
      rw [hcopy, Edit.consumed_copy] at hread
      obtain ⟨hout, hchanges⟩ := ih (offset + byteLength piece)
      rw [Cursor.advance_append hread.symm] at hout hchanges
      rw [pass.runFrom_of_ne_nil hrest]
      simp only [hcopy, Edit.consumed_copy, Cursor.advance_append hread.symm, Trace.output_eq, Trace.changes] at *
      rw [writtenBy_cons, hout, Edit.written_copy, hread, List.filter_cons_of_neg (by simp), hchanges]
      exact ⟨rfl, rfl⟩

theorem Idle.run {text : List Char} (h : Idle pass pass.start (Cursor.start text)) :
    (pass.run text).output = text ∧ (pass.run text).changes = [] :=
  h.runFrom 0

/-! ## A text that goes on -/

/-- Of the text before a place a step sees only whether an identifier reaches the place. -/
def SeesFree (pass : Pass σ) : Prop :=
  ∀ state before before' rest, before.any isNameChar = before'.any isNameChar →
    pass.step state ⟨before, rest⟩ = pass.step state ⟨before', rest⟩

theorem Leads.of_before (hpass : pass.SeesFree) {before before' : Option Char} {rest out : List Char} {final : σ}
    (hfree : before.any isNameChar = before'.any isNameChar) (h : Leads pass state ⟨before, rest⟩ out final) :
    Leads pass state ⟨before', rest⟩ out final := by
  cases h with
  | done hrest => exact .done hrest
  | step hrest h =>
      obtain ⟨after, hread⟩ := pass.consumed_prefix state ⟨before, rest⟩
      have hne := pass.consumed_ne_nil state ⟨before, rest⟩ hrest
      have hsame := hpass state before before' rest hfree
      rw [Cursor.advance_append hread.symm] at h
      refine .of_step hsame.symm hread.symm hrest ?_
      -- after the step both places come after what was read
      obtain ⟨piece, c, hc⟩ := List.eq_nil_or_concat _ |>.resolve_left hne
      rw [hc, List.concat_eq_append, List.getLast?_concat, Option.some_or] at h ⊢
      exact h

/-- Where no step before the last character of the text sees what comes after it, the run over a text that goes on is one
run after the other. -/
theorem Leads.append {out more tail : List Char} {final last : σ} {m : Char} (h : Leads pass state place out final)
    (hm : place.rest.getLast?.or place.before = some m)
    (hsame : ∀ state before text out, Leads pass state ⟨before, text ++ [m]⟩ out final →
      pass.step state ⟨before, text ++ m :: more⟩ = pass.step state ⟨before, text ++ [m]⟩)
    (hmore : Leads pass final ⟨some m, more⟩ tail last) :
    Leads pass state ⟨place.before, place.rest ++ more⟩ (out ++ tail) last := by
  induction h with
  | @done state place hrest =>
      rw [hrest, List.getLast?_nil, Option.none_or] at hm
      rw [hrest, hm]
      exact hmore
  | @step state final place out hrest h ih =>
      obtain ⟨rest, hread⟩ := pass.consumed_prefix state place
      rw [Cursor.advance_append hread.symm] at ih
      have hreadMore : place.rest ++ more = (pass.step state place).1.consumed ++ (rest ++ more) := by
        rw [← List.append_assoc, hread]
      have hmRest : rest.getLast?.or ((pass.step state place).1.consumed.getLast?.or place.before) = some m := by
        rw [← hm, ← hread, List.getLast?_append, Option.or_assoc]
      have hstep : pass.step state ⟨place.before, place.rest ++ more⟩ = pass.step state place := by
        have hall := Leads.step hrest h
        obtain ⟨text, c, hc⟩ := List.eq_nil_or_concat place.rest |>.resolve_left hrest
        rcases place with ⟨before, all⟩
        obtain rfl : all = text ++ [c] := by simpa using hc
        obtain rfl : c = m := by simpa using hm
        simpa using hsame _ _ _ _ hall
      rw [List.append_assoc]
      exact .of_step hstep hreadMore (List.append_ne_nil_of_left_ne_nil hrest more) (ih hmRest hsame hmore)

/-- The run over two texts, the first of which ends outside of identifiers. -/
theorem Leads.append_start (hpass : pass.SeesFree) {p s out tail : List Char} {final last : σ}
    (hedge : ∀ m ∈ p.getLast?, isNameChar m = false ∧
      ∀ state before text out, Leads pass state ⟨before, text ++ [m]⟩ out final →
        ∀ more, pass.step state ⟨before, text ++ m :: more⟩ = pass.step state ⟨before, text ++ [m]⟩)
    (hp : Leads pass state (Cursor.start p) out final) (hs : Leads pass final (Cursor.start s) tail last) :
    Leads pass state (Cursor.start (p ++ s)) (out ++ tail) last := by
  cases hlast : p.getLast? with
  | none =>
      obtain rfl : p = [] := List.getLast?_eq_none_iff.1 hlast
      obtain ⟨rfl, rfl⟩ := hp.unique (.done rfl)
      exact hs
  | some m =>
      obtain ⟨hname, hsame⟩ := hedge m hlast
      have hm : (Cursor.start p).rest.getLast?.or none = some m := by rw [Option.or_none]; exact hlast
      refine hp.append hm (fun state before text out h => hsame state before text out h s) (hs.of_before hpass ?_)
      rw [Option.any_none, Option.any_some, hname]

/-! ## Running with a bound -/

/-- At most `bound` visits of the run from a place on. Unlike `runFrom` it recurses on a number, so it can be
evaluated. -/
def runWithin (pass : Pass σ) : Nat → Nat → σ → Cursor → Trace σ
  | 0, _, state, _ => ⟨[], state⟩
  | bound + 1, offset, state, place =>
    if place.rest = [] then ⟨[], state⟩
    else
      let made := pass.step state place
      let tail := pass.runWithin bound (offset + byteLength made.1.consumed) made.2
        (place.advance made.1.consumed.length)
      ⟨⟨offset, place, state, made.1⟩ :: tail.visits, tail.final⟩

theorem runFrom_eq_runWithin (pass : Pass σ) {bound offset : Nat} {state : σ} {place : Cursor}
    (h : place.rest.length ≤ bound) : pass.runFrom offset state place = pass.runWithin bound offset state place := by
  induction bound generalizing offset state place with
  | zero =>
      have hnil : place.rest = [] := List.eq_nil_of_length_eq_zero (Nat.le_zero.1 h)
      rw [pass.runFrom_nil hnil, runWithin]
  | succ bound ih =>
      by_cases hrest : place.rest = []
      · rw [pass.runFrom_nil hrest, runWithin, if_pos hrest]
      · have hlt := pass.length_advance_lt state hrest
        have hbound : (place.advance (pass.step state place).1.consumed.length).rest.length ≤ bound := by
          omega
        rw [pass.runFrom_of_ne_nil hrest, runWithin, if_neg hrest]
        simp only [ih hbound]

theorem run_eq_runWithin (pass : Pass σ) (text : List Char) :
    pass.run text = pass.runWithin text.length 0 pass.start (Cursor.start text) :=
  pass.runFrom_eq_runWithin (Nat.le_refl _)

end Pass

end HangulScript
