import Mathlib.Data.List.Basic

/-! # Sequences of parts closed by a separator

Parts that do not contain the separator can be read back from their
concatenation: `terminated` closes every part with the separator, and core's
`List.intercalate` puts it between neighbours only.
-/

namespace BitFS.Separated

variable {α : Type*} (sep : α)

/-- Every part followed by the separator. -/
def terminated (parts : List (List α)) : List α := parts.flatMap (· ++ [sep])

@[simp] theorem terminated_nil : terminated sep [] = [] := rfl

@[simp] theorem terminated_cons (p : List α) (ps : List (List α)) :
    terminated sep (p :: ps) = p ++ sep :: terminated sep ps := by
  simp [terminated]

theorem terminated_append (ps qs : List (List α)) :
    terminated sep (ps ++ qs) = terminated sep ps ++ terminated sep qs := by
  simp [terminated]

theorem terminated_eq_intercalate {parts : List (List α)} (h : parts ≠ []) :
    terminated sep parts = [sep].intercalate parts ++ [sep] := by
  induction parts with
  | nil => exact absurd rfl h
  | cons p ps ih =>
      cases ps with
      | nil => simp
      | cons q qs =>
          rw [List.intercalate_cons_cons, terminated_cons, ih (by simp)]
          simp

variable {sep}

/-- The first separator ends the first part. -/
theorem append_sep_inj {p q u v : List α} (hp : sep ∉ p) (hq : sep ∉ q)
    (h : p ++ sep :: u = q ++ sep :: v) : p = q ∧ u = v := by
  induction p generalizing q with
  | nil =>
      cases q with
      | nil => simpa using h
      | cons c q =>
          simp only [List.nil_append, List.cons_append, List.cons.injEq] at h
          exact absurd (h.1 ▸ List.mem_cons_self) hq
  | cons c p ih =>
      cases q with
      | nil =>
          simp only [List.nil_append, List.cons_append, List.cons.injEq] at h
          exact absurd (h.1 ▸ List.mem_cons_self) hp
      | cons d q =>
          simp only [List.cons_append, List.cons.injEq] at h
          obtain ⟨hpq, huv⟩ := ih (fun hm => hp (List.mem_cons_of_mem _ hm))
            (fun hm => hq (List.mem_cons_of_mem _ hm)) h.2
          exact ⟨by rw [h.1, hpq], huv⟩

/-- Parts are determined by their terminated concatenation. -/
theorem terminated_inj {ps qs : List (List α)} (hps : ∀ p ∈ ps, sep ∉ p)
    (hqs : ∀ q ∈ qs, sep ∉ q) (h : terminated sep ps = terminated sep qs) : ps = qs := by
  induction ps generalizing qs with
  | nil =>
      cases qs with
      | nil => rfl
      | cons q qs => simp at h
  | cons p ps ih =>
      cases qs with
      | nil => simp at h
      | cons q qs =>
          rw [terminated_cons, terminated_cons] at h
          obtain ⟨hpq, hrest⟩ := append_sep_inj (hps p List.mem_cons_self)
            (hqs q List.mem_cons_self) h
          rw [hpq, ih (fun r hr => hps r (List.mem_cons_of_mem _ hr))
            (fun r hr => hqs r (List.mem_cons_of_mem _ hr)) hrest]

end BitFS.Separated
