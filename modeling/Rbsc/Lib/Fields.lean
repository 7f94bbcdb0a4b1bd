import Mathlib

/-!
# Fields of a text

A text is cut into fields at its separators; what stands behind the last separator is no field.
Reading field by field is a loop that goes on to the next separator.

* `fields`: the fields of a text, in order;
* `fields_append_sep`, `exists_of_fields_cons`: a text with a first field, put together and taken
  apart.
-/

namespace Fields

variable {α : Type*} (isSep : α → Bool)

/-- The fields of a text. -/
def fields : List α → List (List α)
  | [] => []
  | a :: text =>
    if isSep a then [] :: fields text
    else
      match fields text with
      | [] => []
      | f :: fs => (a :: f) :: fs

variable {isSep} {f text rest : List α} {s : α}

theorem fields_append_sep (hf : ∀ a ∈ f, isSep a = false) (hs : isSep s = true) :
    fields isSep (f ++ s :: rest) = f :: fields isSep rest := by
  induction f with
  | nil => simp [fields, hs]
  | cons a f ih =>
    have ha : isSep a = false := hf a (List.mem_cons_self ..)
    rw [List.cons_append, fields, ih fun b hb => hf b (List.mem_cons_of_mem _ hb)]
    simp [ha]

theorem forall_of_fields_nil (h : fields isSep text = []) : ∀ a ∈ text, isSep a = false := by
  induction text with
  | nil => simp
  | cons a text ih =>
    rw [fields] at h
    cases ha : isSep a with
    | true => simp [ha] at h
    | false =>
      cases hf : fields isSep text with
      | nil =>
        intro b hb
        rcases List.mem_cons.1 hb with rfl | hb
        · exact ha
        · exact ih hf b hb
      | cons g gs => simp [ha, hf] at h

/-- A text with a field: the field, a separator, and the other fields. -/
theorem exists_of_fields_cons {fs : List (List α)} (h : fields isSep text = f :: fs) :
    ∃ s rest, text = f ++ s :: rest ∧ (∀ a ∈ f, isSep a = false) ∧ isSep s = true ∧
      fields isSep rest = fs := by
  induction text generalizing f fs with
  | nil => cases h
  | cons a text ih =>
    rw [fields] at h
    cases ha : isSep a with
    | true =>
      rw [ha, if_pos rfl] at h
      cases h
      exact ⟨a, text, rfl, by simp, ha, rfl⟩
    | false =>
      rw [ha, if_neg (by simp)] at h
      cases hf : fields isSep text with
      | nil =>
        rw [hf] at h
        cases h
      | cons g gs =>
        rw [hf] at h
        cases h
        obtain ⟨s, rest, rfl, hg, hs, hrest⟩ := ih hf
        refine ⟨s, rest, rfl, fun b hb => ?_, hs, hrest⟩
        rcases List.mem_cons.1 hb with rfl | hb
        · exact ha
        · exact hg b hb

end Fields
