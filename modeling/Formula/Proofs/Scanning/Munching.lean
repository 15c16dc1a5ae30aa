/-
Maximal munch by the class of the first character.
-/
import Formula.Proofs.Scanning.Classes

namespace Formula

variable {format : NumberFormat}

section Runs

variable {stays : Char → Bool} {run rest : List Char}

theorem takeWhile_run (hrun : ∀ c ∈ run, stays c = true)
    (hrest : ∀ c ∈ rest.head?, stays c = false) : (run ++ rest).takeWhile stays = run := by
  rw [List.takeWhile_append_of_pos hrun]
  cases rest with
  | nil => simp
  | cons c rest => simp [hrest c rfl]

theorem dropWhile_run (hrun : ∀ c ∈ run, stays c = true)
    (hrest : ∀ c ∈ rest.head?, stays c = false) : (run ++ rest).dropWhile stays = rest := by
  rw [List.dropWhile_append_of_pos hrun]
  cases rest with
  | nil => simp
  | cons c rest => simp [hrest c rfl]

theorem not_of_mem_head?_dropWhile {c : Char} (h : c ∈ (rest.dropWhile stays).head?) :
    stays c = false := by
  rw [← List.find?_not_eq_head?_dropWhile] at h
  simpa using List.find?_some h

end Runs

namespace NumberFormat

theorem munch_nil (position : Nat) : format.munch position [] = some [] := by
  rw [munch]

theorem munch_blank {c : Char} (h : Text.isBlank c = true) (position : Nat) (rest : List Char) :
    format.munch position (c :: rest) = format.munch (position + 1) rest := by
  rw [munch, if_pos h]

theorem munch_mark {c : Char} {token : Token} (h : Token.mark? c = some token) (position : Nat)
    (rest : List Char) :
    format.munch position (c :: rest) =
      (format.munch (position + 1) rest).map (⟨token, position⟩ :: ·) := by
  rw [munch, if_neg (by simp [(Token.eq_of_mark? h).1])]
  simp only [h]

theorem munch_letter {c : Char} (h : Text.isLetter c = true) (position : Nat)
    (rest : List Char) :
    format.munch position (c :: rest) =
      (format.munch (position + 1 + (rest.takeWhile Text.isWord).length)
        (rest.dropWhile Text.isWord)).map
          (⟨.identifier (String.ofList (c :: rest.takeWhile Text.isWord)), position⟩ :: ·) := by
  have hblank : ¬ Text.isBlank c = true := fun hblank => by
    rw [Text.isLetter_of_isBlank hblank] at h
    cases h
  cases hmark : Token.mark? c with
  | some token =>
      rw [(Token.eq_of_mark? hmark).2.1] at h
      cases h
  | none =>
      rw [munch, if_neg hblank]
      simp only [hmark, h, if_true]

/-- Characters that a number begins with. -/
def startsNumber (format : NumberFormat) (c : Char) : Bool := c.isDigit || format.separates c

theorem eq_of_startsNumber {c : Char} (h : format.startsNumber c = true) :
    Text.isBlank c = false ∧ Token.mark? c = none ∧ Text.isLetter c = false := by
  rcases Bool.or_eq_true_iff.1 h with hdigit | hseparates
  · refine ⟨Text.isBlank_of_isDigit hdigit, ?_, Text.isLetter_of_isDigit hdigit⟩
    cases hmark : Token.mark? c with
    | none => rfl
    | some token =>
        rw [(Token.eq_of_mark? hmark).2.2.2.1] at hdigit
        cases hdigit
  · obtain ⟨_, hmark, _, hletter, hblank⟩ := eq_of_separates hseparates
    exact ⟨hblank, hmark, hletter⟩

theorem munch_number {c : Char} (h : format.startsNumber c = true) (position : Nat)
    (rest : List Char) :
    format.munch position (c :: rest) =
      (literal? (c :: rest.takeWhile format.continues)).bind fun value =>
        (format.munch (position + 1 + (rest.takeWhile format.continues).length)
          (rest.dropWhile format.continues)).map (⟨.number value, position⟩ :: ·) := by
  obtain ⟨hblank, hmark, hletter⟩ := eq_of_startsNumber h
  rw [munch, if_neg (by simp [hblank])]
  simp only [hmark, hletter]
  change (if format.startsNumber c = true then _ else _) = _
  exact if_pos h

theorem munch_other {c : Char} (hblank : Text.isBlank c = false) (hmark : Token.mark? c = none)
    (hletter : Text.isLetter c = false) (hnumber : format.startsNumber c = false) (position : Nat)
    (rest : List Char) : format.munch position (c :: rest) = none := by
  rw [munch, if_neg (by simp [hblank])]
  simp only [hmark, hletter]
  change (if format.startsNumber c = true then _ else _) = _
  exact if_neg (by simp [hnumber])

theorem continues_of_isBlank {c : Char} (h : Text.isBlank c = true) :
    format.continues c = false := by
  rw [Bool.eq_false_iff]
  intro hcontinues
  simp only [continues, Bool.or_eq_true, Bool.and_eq_true, decide_eq_true_eq] at hcontinues
  rcases hcontinues with (hdigit | hseparates) | ⟨rfl, -⟩
  · rw [Text.isBlank_of_isDigit hdigit] at h
    cases h
  · rw [(eq_of_separates hseparates).2.2.2.2] at h
    cases h
  · revert h
    decide

/-- Every character is of one class. -/
theorem classes (format : NumberFormat) (c : Char) :
    Text.isBlank c = true ∨ (∃ token, Token.mark? c = some token) ∨ Text.isLetter c = true ∨
      c.isDigit = true ∨ format.separates c = true ∨
      (Text.isBlank c = false ∧ Token.mark? c = none ∧ Text.isLetter c = false ∧
        c.isDigit = false ∧ format.separates c = false) := by
  cases hmark : Token.mark? c with
  | some token => exact .inr (.inl ⟨token, rfl⟩)
  | none =>
      cases Text.isBlank c <;> cases Text.isLetter c <;> cases c.isDigit <;>
        cases format.separates c <;> simp

end NumberFormat

end Formula
