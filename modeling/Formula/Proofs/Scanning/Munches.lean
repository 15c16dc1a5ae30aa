/-
Maximal munch as a relation between a text and its tokens, with the values of numbers stated by
their decimals.
-/
import Formula.Proofs.Scanning.Literal

namespace Formula.NumberFormat

variable {format : NumberFormat}

/-- Texts that are scanned to the end, and their tokens.  Runs of names and of numbers are
followed by what they cannot go on with; a number has the value of its decimal. -/
inductive Munches (format : NumberFormat) : Nat → List Char → List Placed → Prop
  | nil {position : Nat} : Munches format position [] []
  | blank {position : Nat} {c : Char} {rest : List Char} {tokens : List Placed}
      (hblank : Text.isBlank c = true) (h : Munches format (position + 1) rest tokens) :
      Munches format position (c :: rest) tokens
  | mark {position : Nat} {c : Char} {token : Token} {rest : List Char} {tokens : List Placed}
      (hmark : Token.mark? c = some token) (h : Munches format (position + 1) rest tokens) :
      Munches format position (c :: rest) (⟨token, position⟩ :: tokens)
  | name {position : Nat} {c : Char} {run rest : List Char} {tokens : List Placed}
      (hletter : Text.isLetter c = true) (hrun : ∀ d ∈ run, Text.isWord d = true)
      (hends : ∀ d ∈ rest.head?, Text.isWord d = false)
      (h : Munches format (position + 1 + run.length) rest tokens) :
      Munches format position (c :: (run ++ rest))
        (⟨.identifier (String.ofList (c :: run)), position⟩ :: tokens)
  | number {position : Nat} {c : Char} {run rest : List Char} {value : Float}
      {tokens : List Placed} (hstarts : format.startsNumber c = true)
      (hrun : ∀ d ∈ run, format.continues d = true)
      (hends : ∀ d ∈ rest.head?, format.continues d = false)
      (hvalue : HasValue (c :: run) value)
      (h : Munches format (position + 1 + run.length) rest tokens) :
      Munches format position (c :: (run ++ rest)) (⟨.number value, position⟩ :: tokens)

theorem munches_of_munch {position : Nat} {text : List Char} {tokens : List Placed}
    (h : format.munch position text = some tokens) : format.Munches position text tokens := by
  fun_induction munch format position text generalizing tokens with
  | case1 position =>
      obtain rfl := Option.some.inj h
      exact .nil
  | case2 position c rest hblank ih => exact .blank hblank (ih h)
  | case3 position c rest hblank token hmark ih =>
      obtain ⟨more, hmore, rfl⟩ := Option.map_eq_some_iff.1 h
      exact .mark hmark (ih hmore)
  | case4 position c rest hblank hmark hletter run =>
      rename_i ih
      obtain ⟨more, hmore, rfl⟩ := Option.map_eq_some_iff.1 h
      rw [← rest.takeWhile_append_dropWhile (p := Text.isWord)]
      exact .name hletter (fun d hd => List.mem_takeWhile_imp hd)
        (fun d hd => not_of_mem_head?_dropWhile hd) (ih hmore)
  | case5 position c rest hblank hmark hletter hstarts run =>
      rename_i ih
      obtain ⟨value, hvalue, hmap⟩ := Option.bind_eq_some_iff.1 h
      obtain ⟨more, hmore, rfl⟩ := Option.map_eq_some_iff.1 hmap
      rw [← rest.takeWhile_append_dropWhile (p := format.continues)]
      exact .number hstarts (fun d hd => List.mem_takeWhile_imp hd)
        (fun d hd => not_of_mem_head?_dropWhile hd) (literal?_eq_some_iff.1 hvalue) (ih hmore)
  | case6 => cases h

theorem munch_eq_some_iff {position : Nat} {text : List Char} {tokens : List Placed} :
    format.munch position text = some tokens ↔ format.Munches position text tokens := by
  constructor
  · exact munches_of_munch
  · intro h
    induction h with
    | nil => exact munch_nil _
    | blank hblank h ih => rw [munch_blank hblank, ih]
    | mark hmark h ih => rw [munch_mark hmark, ih, Option.map_some]
    | name hletter hrun hends h ih =>
        rw [munch_letter hletter, takeWhile_run hrun hends, dropWhile_run hrun hends, ih,
          Option.map_some]
    | number hstarts hrun hends hvalue h ih =>
        rw [munch_number hstarts, takeWhile_run hrun hends, dropWhile_run hrun hends,
          literal?_eq_some_iff.2 hvalue, Option.bind_some, ih, Option.map_some]

namespace Munches

variable {position : Nat} {text : List Char} {tokens : List Placed}

/-- Tokens stand in the text. -/
theorem position_of_mem (h : format.Munches position text tokens) :
    ∀ placed ∈ tokens, position ≤ placed.position ∧ placed.position < position + text.length := by
  induction h with
  | nil => exact fun placed hplaced => by cases hplaced
  | blank hblank h ih =>
      intro placed hplaced
      have hbehind := ih placed hplaced
      rw [List.length_cons]
      omega
  | mark hmark h ih =>
      refine List.forall_mem_cons.2 ⟨by simp, fun placed hplaced => ?_⟩
      have hbehind := ih placed hplaced
      rw [List.length_cons]
      omega
  | name hletter hrun hends h ih =>
      refine List.forall_mem_cons.2 ⟨by simp, fun placed hplaced => ?_⟩
      have hbehind := ih placed hplaced
      rw [List.length_cons, List.length_append]
      omega
  | number hstarts hrun hends hvalue h ih =>
      refine List.forall_mem_cons.2 ⟨by simp, fun placed hplaced => ?_⟩
      have hbehind := ih placed hplaced
      rw [List.length_cons, List.length_append]
      omega

end Munches

end Formula.NumberFormat
