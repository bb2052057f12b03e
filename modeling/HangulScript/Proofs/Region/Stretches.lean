import HangulScript.Proofs.Scan.Steps

/-!
# Turns and stretches

What a scan shows of the regions of a text: the turns, in which a region is opened or closed or a brace of a hole is
counted, and the stretches of the text that are no code.
-/

namespace HangulScript

open Text

/-! ## Visits with the state that they leave -/

/-- The visits of a run, each with the state after it. -/
def Trace.steps {σ : Type} (trace : Trace σ) : List (Visit σ × σ) :=
  trace.visits.zip ((trace.visits.map (·.state)).tail ++ [trace.final])

theorem Trace.steps_append {σ : Type} (done : List (Visit σ)) (v : Visit σ) (final : σ) :
    (Trace.mk (done ++ [v]) final).steps = (Trace.mk done v.state).steps ++ [(v, final)] := by
  cases done with
  | nil => rfl
  | cons w done =>
      have htail : ((w :: done ++ [v]).map (·.state)).tail = done.map (·.state) ++ [v.state] := by simp
      simp only [steps, htail]
      rw [List.zip_append (by simp)]
      rfl

/-! ## Turns -/

/-- The steps that changed the open regions: the regions before and after each of them. -/
def Trace.turns (trace : Trace OpenRegions) : List (OpenRegions × OpenRegions) :=
  (trace.steps.map fun s => (s.1.state, s.2)).filter fun t => t.1 ≠ t.2

theorem Trace.turns_append (done : List (Visit OpenRegions)) (v : Visit OpenRegions) (final : OpenRegions) :
    (Trace.mk (done ++ [v]) final).turns =
      (Trace.mk done v.state).turns ++ if v.state = final then [] else [(v.state, final)] := by
  simp only [turns, steps_append, List.map_append, List.filter_append, List.map_cons, List.map_nil]
  by_cases h : v.state = final <;> simp [h]

/-! ## Stretches -/

/-- A string, a comment or a piece of template text, up to and with the delimiter that ends it. -/
structure Stretch where
  region : Region
  offset : Nat
  text : List Char

namespace Stretch

/-- What the stretch holds, wherever it stands. -/
def content (s : Stretch) : Region × List Char :=
  (s.region, s.text)

/-- The last stretch, which stands first in the list, takes in more text. -/
def lengthen (text : List Char) : List Stretch → List Stretch
  | [] => []
  | s :: cut => { s with text := s.text ++ text } :: cut

/-- A step out of code begins a stretch, and a step anywhere else lengthens it. -/
def cutStep (cut : List Stretch) (s : Visit OpenRegions × OpenRegions) : List Stretch :=
  if s.1.state.innermost.holdsCode then
    if s.2.innermost.holdsCode then cut
    else ⟨s.2.innermost, s.1.offset + byteLength s.1.edit.consumed, []⟩ :: cut
  else lengthen s.1.edit.consumed cut

end Stretch

/-- The stretches so far, the last one first. -/
def Trace.cut (trace : Trace OpenRegions) : List Stretch :=
  trace.steps.foldl Stretch.cutStep []

/-- The stretches of the text that are no code, in order. -/
def Trace.stretches (trace : Trace OpenRegions) : List Stretch :=
  trace.cut.reverse

theorem Trace.cut_append (done : List (Visit OpenRegions)) (v : Visit OpenRegions) (final : OpenRegions) :
    (Trace.mk (done ++ [v]) final).cut = Stretch.cutStep (Trace.mk done v.state).cut (v, final) := by
  simp only [cut, steps_append, List.foldl_append, List.foldl_cons, List.foldl_nil]

namespace Stretch

variable {a b : List Stretch} {v w : Visit OpenRegions} {state next : OpenRegions}

theorem map_content_lengthen (text : List Char) (h : a.map content = b.map content) :
    (lengthen text a).map content = (lengthen text b).map content := by
  rcases a with _ | ⟨s, a⟩ <;> rcases b with _ | ⟨t, b⟩
  · rfl
  · simp at h
  · simp at h
  · simp only [List.map_cons, List.cons.injEq, content, Prod.mk.injEq] at h
    simp [lengthen, content, h]

/-- Two steps that read the same text between the same regions keep equal contents equal. -/
theorem map_content_cutStep (h : a.map content = b.map content) (hstate : v.state = w.state)
    (hread : v.edit.consumed = w.edit.consumed) :
    (cutStep a (v, next)).map content = (cutStep b (w, next)).map content := by
  unfold cutStep
  simp only [hstate, hread]
  split_ifs
  · exact h
  · simp [content, h]
  · exact map_content_lengthen _ h

theorem cutStep_of_code (cut : List Stretch) (hcode : v.state.innermost.holdsCode = true)
    (hnext : next.innermost.holdsCode = true) : cutStep cut (v, next) = cut := by
  simp [cutStep, hcode, hnext]

end Stretch

theorem Trace.turns_append_stay (done : List (Visit OpenRegions)) (v : Visit OpenRegions) :
    (Trace.mk (done ++ [v]) v.state).turns = (Trace.mk done v.state).turns := by
  simp [turns_append]

theorem Trace.cut_append_stay (done : List (Visit OpenRegions)) {v : Visit OpenRegions}
    (hcode : v.state.innermost.holdsCode = true) :
    (Trace.mk (done ++ [v]) v.state).cut = (Trace.mk done v.state).cut := by
  rw [cut_append]
  exact Stretch.cutStep_of_code _ hcode hcode

end HangulScript
