import HangulScript.Proofs.Pass.Leads
import HangulScript.Proofs.Region.Tokens

/-!
# Steps of the scan

A step with a table either puts in a rule's replacement, where rules are tried, or does what the empty table does. No hole
ever counts more open braces than were read, so a text with few of them never breaks the scan off.
-/

namespace HangulScript

open Text

namespace Keywords

variable {table : List Rule} {regions : OpenRegions} {place : Cursor}

/-- Rules are tried at the place: it is code, no region opens there, and it is no brace that a hole counts. -/
def TriesRules (regions : OpenRegions) (place : Cursor) : Prop :=
  regions.innermost.holdsCode = true ∧ Region.opened? place.rest = none ∧
    ¬ (regions.holeDepth?.isSome = true ∧ (place.rest.head? = some '{' ∨ place.rest.head? = some '}'))

theorem holeDepth?_of_innermost {depth : Nat} (h : regions.innermost = .hole depth) :
    regions.holeDepth? = some depth := by
  rcases regions with ⟨_ | ⟨region, inner⟩⟩
  · cases h
  · cases h
    rfl

theorem step_of_triesRules (h : TriesRules regions place) : step table regions place = codeStep table regions place := by
  obtain ⟨hcode, _, hbrace⟩ := h
  cases hregion : regions.innermost with
  | code => simp only [step, hregion]
  | hole depth =>
      have hdepth := holeDepth?_of_innermost hregion
      simp only [step, hregion]
      unfold holeStep
      split <;> simp_all
  | _ => simp [hregion, Region.holdsCode] at hcode

theorem step_of_firstMatch {rule : Rule} (h : TriesRules regions place)
    (hrule : Rule.firstMatch? table place = some rule) :
    step table regions place = (⟨[], rule.spelling, rule.replacement⟩, regions) := by
  rw [step_of_triesRules h]
  simp only [codeStep, h.2.1, hrule]

theorem codeStep_eq_nil (h : Region.opened? place.rest = none → Rule.firstMatch? table place = none) :
    codeStep table regions place = codeStep [] regions place := by
  have hnil : Rule.firstMatch? [] place = none := rfl
  unfold codeStep
  cases hopen : Region.opened? place.rest with
  | none => simp only [h hopen, hnil]
  | some opened => rfl

theorem step_eq_nil (h : TriesRules regions place → Rule.firstMatch? table place = none) :
    step table regions place = step [] regions place := by
  cases hregion : regions.innermost with
  | code =>
      have hnone : regions.holeDepth? = none := by
        rcases regions with ⟨_ | ⟨region, inner⟩⟩
        · rfl
        · cases hregion
          rfl
      simp only [step, hregion]
      exact codeStep_eq_nil fun hopen => h ⟨by simp [hregion, Region.holdsCode], hopen, by simp [hnone]⟩
  | hole depth =>
      simp only [step, hregion]
      unfold holeStep
      split
      · rfl
      · rfl
      · rename_i hopening hclosing
        refine codeStep_eq_nil fun hopen => h ⟨by simp [hregion, Region.holdsCode], hopen, ?_⟩
        rintro ⟨-, hhead | hhead⟩
        · exact hopening _ (List.head?_eq_some_iff.1 hhead).choose_spec
        · exact hclosing _ (List.head?_eq_some_iff.1 hhead).choose_spec
  | _ => simp only [step, hregion]

theorem step_cases (table : List Rule) (regions : OpenRegions) (place : Cursor) :
    (∃ rule, TriesRules regions place ∧ Rule.firstMatch? table place = some rule ∧
      step table regions place = (⟨[], rule.spelling, rule.replacement⟩, regions)) ∨
    ((TriesRules regions place → Rule.firstMatch? table place = none) ∧
      step table regions place = step [] regions place) := by
  by_cases h : TriesRules regions place ∧ (Rule.firstMatch? table place).isSome = true
  · obtain ⟨rule, hrule⟩ := Option.isSome_iff_exists.1 h.2
    exact Or.inl ⟨rule, h.1, hrule, step_of_firstMatch h.1 hrule⟩
  · have hnone : TriesRules regions place → Rule.firstMatch? table place = none := by
      intro htries
      simpa using fun hsome => h ⟨htries, hsome⟩
    exact Or.inr ⟨hnone, step_eq_nil hnone⟩

/-- The empty table copies a single character, or two that belong together. -/
theorem step_nil_cases (regions : OpenRegions) {place : Cursor} (hrest : place.rest ≠ []) :
    (∃ c rest, place.rest = c :: rest ∧ regions.pairing? c rest = none ∧
      step [] regions place = (.copy [c], regions.after c)) ∨
    (∃ c d rest next, place.rest = c :: d :: rest ∧ regions.afterPair? c d = some next ∧
      step [] regions place = (.copy [c, d], next)) := by
  rcases place with ⟨before, _ | ⟨c, rest⟩⟩
  · exact absurd rfl hrest
  · cases hpair : regions.pairing? c rest with
    | none => exact Or.inl ⟨c, rest, rfl, hpair, by rw [step_nil_cons, hpair]⟩
    | some next =>
        cases rest with
        | nil => cases hpair
        | cons d rest => exact Or.inr ⟨c, d, rest, next, rfl, hpair, by rw [step_nil_cons, hpair]; rfl⟩

theorem step_nil_copies (regions : OpenRegions) {place : Cursor} (hrest : place.rest ≠ []) :
    ∃ piece, piece ≠ [] ∧ (step [] regions place).1 = .copy piece := by
  rcases step_nil_cases regions hrest with ⟨c, _, _, _, h⟩ | ⟨c, d, _, _, _, _, h⟩
  · exact ⟨[c], List.cons_ne_nil _ _, by rw [h]⟩
  · exact ⟨[c, d], List.cons_ne_nil _ _, by rw [h]⟩

end Keywords

/-! ## The counters of holes -/

namespace OpenRegions

variable {regions : OpenRegions} {n : Nat}

/-- No hole has more than `n` open braces. -/
def Within (regions : OpenRegions) (n : Nat) : Prop :=
  ∀ depth, Region.hole depth ∈ regions.inner → depth ≤ n

theorem Within.mono {m : Nat} (hm : n ≤ m) (h : regions.Within n) : regions.Within m := fun depth hdepth =>
  Nat.le_trans (h depth hdepth) hm

theorem Within.push {region : Region} (h : regions.Within n) (hregion : ∀ depth, region = .hole depth → depth ≤ n) :
    (regions.push region).Within n := by
  intro depth hdepth
  rcases List.mem_cons.1 hdepth with rfl | hdepth
  · exact hregion depth rfl
  · exact h depth hdepth

theorem Within.pop (h : regions.Within n) : regions.pop.Within n := fun depth hdepth =>
  h depth (List.mem_of_mem_tail hdepth)

theorem Within.opening (h : regions.Within n) (c : Char) : (regions.opening c).Within n := by
  unfold OpenRegions.opening
  split_ifs
  · exact h.push nofun
  · exact h.push nofun
  · exact h.push nofun
  · exact h

theorem Within.countOpening (h : regions.Within n) : regions.countOpening.Within (n + 1) := by
  unfold OpenRegions.countOpening
  split
  · rename_i depth outer hinner
    intro d hd
    rcases List.mem_cons.1 hd with heq | hd
    · cases heq
      exact Nat.succ_le_succ (h depth (by simp [hinner]))
    · exact Nat.le_succ_of_le (h d (by simp [hinner, hd]))
  · exact h.mono (Nat.le_succ n)

theorem Within.countClosing (h : regions.Within n) : regions.countClosing.Within n := by
  unfold OpenRegions.countClosing
  split
  · rename_i depth outer hinner
    intro d hd
    rcases List.mem_cons.1 hd with heq | hd
    · cases heq
      exact Nat.le_trans (Nat.sub_le _ _) (h depth (by simp [hinner]))
    · exact h d (by simp [hinner, hd])
  · exact h

theorem Within.closing (h : regions.Within n) : regions.closing.Within n := by
  unfold OpenRegions.closing
  split_ifs
  · exact h.countClosing.pop
  · exact h.countClosing

/-- A single character adds at most the brace that it is. -/
theorem Within.after (h : regions.Within n) (c : Char) : (regions.after c).Within (n + [c].count '{') := by
  have hmono : n ≤ n + [c].count '{' := Nat.le_add_right ..
  unfold OpenRegions.after
  split
  · exact (h.opening c).mono hmono
  · split_ifs with hopen hclose
    · subst hopen
      exact h.countOpening
    · exact h.closing.mono hmono
    · exact (h.opening c).mono hmono
  · split_ifs
    · exact h.pop.mono hmono
    · exact h.mono hmono
  · split_ifs
    · exact h.pop.mono hmono
    · exact h.mono hmono
  · split_ifs
    · exact h.pop.mono hmono
    · exact h.mono hmono
  · split_ifs
    · exact h.pop.mono hmono
    · exact h.mono hmono
  · exact h.mono hmono

/-- So does a pair: the brace after a dollar sign is the first of its hole. -/
theorem Within.afterPair {next : OpenRegions} {c d : Char} (h : regions.Within n)
    (hpair : regions.afterPair? c d = some next) : next.Within (n + [c, d].count '{') := by
  have hmono : n ≤ n + [c, d].count '{' := Nat.le_add_right ..
  have hcode : regions.innermost.holdsCode = true → next.Within (n + [c, d].count '{') := by
    intro hcode
    rw [Keywords.afterPair?_of_holdsCode hcode] at hpair
    split_ifs at hpair <;> cases hpair
    · exact (h.mono hmono).push nofun
    · exact (h.mono hmono).push nofun
  cases hregion : regions.innermost with
  | code | hole _ => exact hcode (by simp [hregion, Region.holdsCode])
  | singleQuoted | doubleQuoted =>
      simp only [OpenRegions.afterPair?, hregion] at hpair
      split_ifs at hpair
      cases hpair
      exact h.mono hmono
  | template =>
      simp only [OpenRegions.afterPair?, hregion] at hpair
      split_ifs at hpair with hescape hhole <;> cases hpair
      · exact h.mono hmono
      · obtain ⟨rfl, rfl⟩ := hhole
        refine (h.mono hmono).push ?_
        rintro depth ⟨⟩
        exact Nat.le_add_left ..
  | lineComment => simp [OpenRegions.afterPair?, hregion] at hpair
  | blockComment =>
      simp only [OpenRegions.afterPair?, hregion] at hpair
      split_ifs at hpair
      cases hpair
      exact h.pop.mono hmono

theorem Within.fits (h : regions.Within n) (hn : n ≤ Region.maxHoleDepth) : regions.innermost.fits = true := by
  cases hregion : regions.innermost with
  | hole depth =>
      have hmem : Region.hole depth ∈ regions.inner := by
        rcases regions with ⟨_ | ⟨region, inner⟩⟩
        · cases hregion
        · cases hregion
          exact List.mem_cons_self
      exact decide_eq_true (Nat.le_trans (h depth hmem) hn)
  | _ => rfl

end OpenRegions

namespace Keywords

variable {table : List Rule} {source : List Char}

@[simp] theorem keywordPass_step (table : List Rule) : (keywordPass table).step = step table := rfl

theorem step_within {regions : OpenRegions} {place : Cursor} {n : Nat} (h : regions.Within n)
    (hrest : place.rest ≠ []) :
    (step table regions place).2.Within (n + (step table regions place).1.consumed.count '{') := by
  rcases step_cases table regions place with ⟨rule, -, -, hstep⟩ | ⟨-, hstep⟩
  · rw [hstep]
    exact h.mono (Nat.le_add_right ..)
  · rw [hstep]
    rcases step_nil_cases regions hrest with ⟨c, rest, -, -, heq⟩ | ⟨c, d, rest, next, -, hpair, heq⟩
    · rw [heq]
      simpa using h.after c
    · rw [heq]
      simpa using h.afterPair hpair

/-- Wherever the scan comes, no hole counts more open braces than the text before it has. -/
theorem reaches_within {done : List (Visit OpenRegions)} {regions : OpenRegions} {place : Cursor}
    (h : (keywordPass table).Reaches source done regions place) :
    regions.Within ((readBy done).count '{') := by
  induction h with
  | start => intro depth hdepth; cases hdepth
  | step _ hrest ih =>
      rw [readBy_append, List.count_append]
      simpa using step_within ih hrest

theorem traceKeywords_ok (table : List Rule) (hbraces : source.count '{' < Region.maxHoleDepth) :
    traceKeywords table source = .ok ((keywordPass table).run source) := by
  have hfits : ∀ {done : List (Visit OpenRegions)} {regions : OpenRegions} {place : Cursor},
      (keywordPass table).Reaches source done regions place → regions.innermost.fits = true := by
    intro done regions place h
    have hcount : (readBy done).count '{' ≤ source.count '{' := by
      rw [h.text_eq, List.count_append]
      exact Nat.le_add_right ..
    exact (reaches_within h).fits (by omega)
  refine traceKeywords_eq_ok_iff.2 ⟨rfl, ?_⟩
  obtain ⟨_, _, hend⟩ := (keywordPass table).run_reaches source
  simp only [Trace.fits, Bool.and_eq_true, List.all_eq_true]
  refine ⟨fun v hv => ?_, hfits hend⟩
  obtain ⟨earlier, hreach, _⟩ := Pass.of_mem_run hv
  exact hfits hreach

end Keywords

end HangulScript
