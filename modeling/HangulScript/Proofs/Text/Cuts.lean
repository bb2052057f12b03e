import HangulScript.Text.Cursor

/-!
# Cuts of a text

Where a text is cut in two ways, the byte lengths tell which cut comes first and what lies between them.
-/

namespace HangulScript

open Text

theorem exists_append_of_byteLength_le {a b c d : List Char} (h : a ++ b = c ++ d) (hle : byteLength c ≤ byteLength a) :
    ∃ m, a = c ++ m := by
  rcases List.append_eq_append_iff.1 h with ⟨m, rfl, -⟩ | ⟨m, rfl, -⟩
  · have hm := length_le_byteLength m
    rw [byteLength_append] at hle
    obtain rfl : m = [] := List.eq_nil_of_length_eq_zero (by omega)
    exact ⟨[], by simp⟩
  · exact ⟨m, rfl⟩

theorem append_inj_of_byteLength {a b c d : List Char} (h : a ++ b = c ++ d) (hlength : byteLength a = byteLength c) :
    a = c := by
  obtain ⟨m, rfl⟩ := exists_append_of_byteLength_le h (Nat.le_of_eq hlength.symm)
  have hm := length_le_byteLength m
  rw [byteLength_append] at hlength
  obtain rfl : m = [] := List.eq_nil_of_length_eq_zero (by omega)
  exact List.append_nil c

/-- A character whose offset lies in the piece `q` belongs to it. -/
theorem split_of_byteLength {a b p q r : List Char} {c : Char} (htext : a ++ c :: b = p ++ (q ++ r))
    (hle : byteLength p ≤ byteLength a) (hlt : byteLength a < byteLength p + byteLength q) :
    ∃ q₁ q₂, a = p ++ q₁ ∧ q = q₁ ++ c :: q₂ := by
  obtain ⟨q₁, rfl⟩ := exists_append_of_byteLength_le htext hle
  rw [List.append_assoc] at htext
  rw [byteLength_append] at hlt
  rcases List.append_eq_append_iff.1 (List.append_cancel_left htext) with ⟨m, hq, hc⟩ | ⟨m, rfl, -⟩
  · cases m with
    | nil => rw [hq, byteLength_append, byteLength_nil] at hlt; omega
    | cons d m =>
        obtain ⟨rfl, -⟩ := List.cons.inj hc
        exact ⟨q₁, m, rfl, hq⟩
  · rw [byteLength_append] at hlt
    omega

end HangulScript
