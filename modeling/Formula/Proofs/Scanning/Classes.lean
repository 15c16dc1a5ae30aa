/-
The classes of characters exclude each other, so it does not matter in which order
the scanner asks for them.
-/
import Formula.Proofs.Scanning.Munch
import Mathlib

namespace Formula

namespace Text

/-- No code point is in ranges of both lists. -/
def apart (ranges others : List Range) : Bool :=
  ranges.all fun range => others.all fun other => range.2 < other.1 || other.2 < range.1

theorem inRanges_eq_false_of_apart {ranges others : List Range}
    (hapart : apart ranges others = true) {c : Char} (h : inRanges ranges c = true) :
    inRanges others c = false := by
  obtain ⟨range, hrange, hholds⟩ := List.any_eq_true.1 h
  refine List.any_eq_false.2 fun other hother hboth => ?_
  have hdisjoint := List.all_eq_true.1 (List.all_eq_true.1 hapart range hrange) other hother
  simp only [Range.holds, Bool.and_eq_true, decide_eq_true_eq] at hholds hboth
  simp only [Bool.or_eq_true, decide_eq_true_eq] at hdisjoint
  omega

theorem isDigit_iff {c : Char} : c.isDigit = true ↔ 48 ≤ c.toNat ∧ c.toNat ≤ 57 := by
  simp only [Char.isDigit, Bool.and_eq_true, decide_eq_true_eq, UInt32.le_iff_toNat_le, ge_iff_le]
  exact Iff.rfl

theorem isAlpha_iff {c : Char} :
    c.isAlpha = true ↔ 65 ≤ c.toNat ∧ c.toNat ≤ 90 ∨ 97 ≤ c.toNat ∧ c.toNat ≤ 122 := by
  simp only [Char.isAlpha, Char.isUpper, Char.isLower, Bool.or_eq_true, Bool.and_eq_true,
    decide_eq_true_eq, UInt32.le_iff_toNat_le, ge_iff_le]
  exact Iff.rfl

theorem isBlank_eq (c : Char) : isBlank c = inRanges (whiteSpaceRanges ++ controlRanges) c := by
  rw [inRanges, List.any_append]
  rfl

theorem isLetter_of_isBlank {c : Char} (h : isBlank c = true) : isLetter c = false := by
  rw [isBlank_eq] at h
  unfold isLetter
  split
  · have hapart : apart (whiteSpaceRanges ++ controlRanges) [(65, 90), (97, 122)] = true := by
      decide
    have hfalse := inRanges_eq_false_of_apart hapart h
    rw [Bool.eq_false_iff] at hfalse ⊢
    intro halpha
    rcases isAlpha_iff.1 halpha with hupper | hlower
    · exact hfalse (by simp [inRanges, Range.holds, hupper])
    · exact hfalse (by simp [inRanges, Range.holds, hlower])
  · exact inRanges_eq_false_of_apart (by decide +kernel) h

theorem isBlank_of_isDigit {c : Char} (h : c.isDigit = true) : isBlank c = false := by
  rw [isBlank_eq]
  have hrange : inRanges [(48, 57)] c = true := by
    simp [inRanges, Range.holds, isDigit_iff.1 h]
  exact inRanges_eq_false_of_apart (by decide) hrange

theorem isLetter_of_isDigit {c : Char} (h : c.isDigit = true) : isLetter c = false := by
  obtain ⟨hlow, hhigh⟩ := isDigit_iff.1 h
  rw [isLetter, if_pos (by omega), Bool.eq_false_iff]
  intro halpha
  rcases isAlpha_iff.1 halpha with hupper | hlower <;> omega

end Text

/-- A mark is of no other class. -/
theorem Token.eq_of_mark? {c : Char} {token : Token} (h : Token.mark? c = some token) :
    Text.isBlank c = false ∧ Text.isLetter c = false ∧ Text.isWord c = false ∧
      c.isDigit = false ∧ c ≠ '.' := by
  unfold Token.mark? at h
  split at h <;> first | decide | cases h

namespace NumberFormat

variable {format : NumberFormat} {c : Char}

theorem classify_of_isBlank (h : Text.isBlank c = true) : format.classify c = .blank := by
  simp [classify, h, Text.isLetter_of_isBlank h]

theorem classify_of_mark? {token : Token} (h : Token.mark? c = some token) :
    format.classify c = .mark token := by
  obtain ⟨hblank, hletter, _, hdigit, _⟩ := Token.eq_of_mark? h
  simp [classify, hblank, hletter, hdigit, h]

theorem classify_of_isLetter (h : Text.isLetter c = true) : format.classify c = .letter := by
  simp [classify, h]

theorem classify_of_isDigit (h : c.isDigit = true) : format.classify c = .digit := by
  simp [classify, h, Text.isBlank_of_isDigit h, Text.isLetter_of_isDigit h]

/-- What a separator is not. -/
theorem eq_of_separates (h : format.separates c = true) :
    c = format.decimalSeparator ∧ Token.mark? c = none ∧ c.isDigit = false ∧
      Text.isLetter c = false ∧ Text.isBlank c = false := by
  simp only [separates, Bool.and_eq_true, decide_eq_true_eq, Bool.or_eq_true] at h
  obtain ⟨hseparator, rfl | hclass⟩ := h
  · exact ⟨hseparator, by decide⟩
  · refine ⟨hseparator, ?_⟩
    simpa [and_assoc] using hclass

theorem classify_of_separates (h : format.separates c = true) :
    format.classify c = .separator := by
  obtain ⟨hseparator, hmark, hdigit, hletter, hblank⟩ := eq_of_separates h
  simp [classify, hmark, hdigit, hletter, hblank, ← hseparator]

theorem classify_other (hblank : Text.isBlank c = false) (hmark : Token.mark? c = none)
    (hletter : Text.isLetter c = false) (hdigit : c.isDigit = false)
    (hseparates : format.separates c = false) : format.classify c = .other := by
  have hne : c ≠ format.decimalSeparator := by
    intro heq
    simp [separates, ← heq, hmark, hdigit, hletter, hblank] at hseparates
  simp [classify, hblank, hmark, hletter, hdigit, hne]

theorem eq_of_classify_separator {c : Char} (h : format.classify c = .separator) :
    c = format.decimalSeparator := by
  rw [classify] at h
  split at h
  · cases h
  split at h
  · cases h
  split at h
  · cases h
  split at h
  · cases h
  split at h
  · assumption
  · cases h

theorem isBlank_of_classify {c : Char} (h : format.classify c = .blank) :
    Text.isBlank c = true := by
  rw [classify] at h
  split at h
  · cases h
  split at h
  · assumption
  split at h
  · cases h
  split at h
  · cases h
  split at h <;> cases h

end NumberFormat

end Formula
