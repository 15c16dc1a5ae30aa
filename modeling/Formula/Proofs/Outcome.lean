/-
Steps that may fail, one after the other.
-/
import Mathlib.Data.List.Forall2

namespace Formula

variable {ε α β : Type}

theorem bind_eq_ok_iff {first : Except ε α} {next : α → Except ε β} {result : β} :
    (first >>= next) = .ok result ↔ ∃ value, first = .ok value ∧ next value = .ok result := by
  cases first with
  | error fault => simp [bind, Except.bind]
  | ok value => simp [bind, Except.bind]

theorem bind_eq_error_iff {first : Except ε α} {next : α → Except ε β} {fault : ε} :
    (first >>= next) = .error fault ↔
      first = .error fault ∨ ∃ value, first = .ok value ∧ next value = .error fault := by
  cases first with
  | error other => simp [bind, Except.bind]
  | ok value => simp [bind, Except.bind]

theorem toOption_map (change : α → β) (outcome : Except ε α) :
    (outcome.map change).toOption = outcome.toOption.map change := by
  cases outcome <;> rfl

theorem toOption_eq_some_iff {outcome : Except ε α} {value : α} :
    outcome.toOption = some value ↔ outcome = .ok value := by
  cases outcome <;> simp [Except.toOption]

theorem mapM_eq_ok_iff {step : α → Except ε β} {inputs : List α} {results : List β} :
    inputs.mapM step = .ok results ↔
      List.Forall₂ (fun input result => step input = .ok result) inputs results := by
  induction inputs generalizing results with
  | nil => cases results <;> simp [pure, Except.pure]
  | cons input inputs ih =>
      rw [List.mapM_cons, bind_eq_ok_iff]
      constructor
      · rintro ⟨result, hresult, hrest⟩
        obtain ⟨rest, hmore, hall⟩ := bind_eq_ok_iff.1 hrest
        cases hall
        exact .cons hresult (ih.1 hmore)
      · intro h
        cases h with
        | cons hresult hrest => exact ⟨_, hresult, bind_eq_ok_iff.2 ⟨_, ih.2 hrest, rfl⟩⟩

theorem mapM_eq_ok_of_forall₂ {step : α → Except ε β} {related : α → β → Prop}
    {inputs : List α} {results : List β} (hall : List.Forall₂ related inputs results)
    (hstep : ∀ input ∈ inputs, ∀ result ∈ results, related input result →
      step input = .ok result) : inputs.mapM step = .ok results := by
  rw [mapM_eq_ok_iff]
  induction hall with
  | nil => exact .nil
  | cons hrelated hrest ih =>
      refine .cons (hstep _ List.mem_cons_self _ List.mem_cons_self hrelated) (ih ?_)
      intro input hinput result hresult
      exact hstep input (List.mem_cons_of_mem _ hinput) result (List.mem_cons_of_mem _ hresult)

theorem exists_of_forall₂ {related : α → β → Prop} {inputs : List α} {results : List β}
    (hall : List.Forall₂ related inputs results) {input : α} (hinput : input ∈ inputs) :
    ∃ result ∈ results, related input result := by
  induction hall with
  | nil => cases hinput
  | cons hrelated hrest ih =>
      rcases List.mem_cons.1 hinput with rfl | hinput
      · exact ⟨_, List.mem_cons_self, hrelated⟩
      · obtain ⟨result, hresult, hrelated⟩ := ih hinput
        exact ⟨result, List.mem_cons_of_mem _ hresult, hrelated⟩

theorem exists_of_mapM_eq_ok {step : α → Except ε β} {inputs : List α} {results : List β}
    (h : inputs.mapM step = .ok results) {result : β} (hresult : result ∈ results) :
    ∃ input ∈ inputs, step input = .ok result :=
  exists_of_forall₂ (mapM_eq_ok_iff.1 h).flip hresult

end Formula
