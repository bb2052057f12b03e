import HangulScript.Proofs.Region.Tokens

/-!
# Regions that can be open

What every step of the scan of the regions keeps true of the regions that are open.
-/

namespace HangulScript

namespace OpenRegions

/-- Code stands at the bottom only, and no hole is open that all its braces have closed. -/
def Sound (regions : OpenRegions) : Prop :=
  ∀ region ∈ regions.inner, region ≠ .code ∧ region ≠ .hole 0

variable {regions next : OpenRegions} {region : Region} {c d : Char}

theorem Sound.push (h : regions.Sound) (hregion : region ≠ .code ∧ region ≠ .hole 0) : (regions.push region).Sound := by
  intro r hr
  rcases List.mem_cons.1 hr with rfl | hr
  · exact hregion
  · exact h r hr

theorem Sound.pop (h : regions.Sound) : regions.pop.Sound := fun r hr => h r (List.mem_of_mem_tail hr)

theorem Sound.opening (h : regions.Sound) (c : Char) : (regions.opening c).Sound := by
  unfold OpenRegions.opening
  split_ifs
  · exact h.push (by simp)
  · exact h.push (by simp)
  · exact h.push (by simp)
  · exact h

theorem Sound.countOpening (h : regions.Sound) : regions.countOpening.Sound := by
  unfold OpenRegions.countOpening
  split
  · rename_i depth outer hinner
    intro r hr
    rcases List.mem_cons.1 hr with rfl | hr
    · simp
    · exact h r (by simp [hinner, hr])
  · exact h

theorem Sound.closing (h : regions.Sound) : regions.closing.Sound := by
  unfold OpenRegions.closing OpenRegions.countClosing
  split
  · rename_i depth outer hinner
    have houter : ∀ r ∈ outer, r ≠ .code ∧ r ≠ .hole 0 := fun r hr => h r (by simp [hinner, hr])
    split_ifs with hzero
    · exact houter
    · intro r hr
      rcases List.mem_cons.1 hr with rfl | hr
      · exact ⟨by simp, fun heq => hzero (by rw [heq]; rfl)⟩
      · exact houter r hr
  · split_ifs
    · exact h.pop
    · exact h

theorem Sound.after (h : regions.Sound) (c : Char) : (regions.after c).Sound := by
  unfold OpenRegions.after
  cases regions.innermost with
  | code => exact h.opening c
  | hole depth =>
      dsimp only
      split_ifs
      · exact h.countOpening
      · exact h.closing
      · exact h.opening c
  | blockComment => exact h
  | singleQuoted | doubleQuoted | template | lineComment =>
      dsimp only
      split_ifs
      · exact h.pop
      · exact h

theorem Sound.afterPair (h : regions.Sound) (hpair : regions.afterPair? c d = some next) : next.Sound := by
  unfold OpenRegions.afterPair? at hpair
  cases hregion : regions.innermost with
  | code | hole depth =>
      simp only [hregion] at hpair
      split_ifs at hpair <;> cases hpair
      · exact h.push (by simp)
      · exact h.push (by simp)
  | singleQuoted | doubleQuoted =>
      simp only [hregion] at hpair
      split_ifs at hpair
      cases hpair
      exact h
  | template =>
      simp only [hregion] at hpair
      split_ifs at hpair <;> cases hpair
      · exact h
      · exact h.push (by simp)
  | lineComment => simp [hregion] at hpair
  | blockComment =>
      simp only [hregion] at hpair
      split_ifs at hpair
      cases hpair
      exact h.pop

end OpenRegions

end HangulScript
