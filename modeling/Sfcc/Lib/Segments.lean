import Mathlib.Data.List.Basic

-- Reading from what arrives in segments.
namespace Segments

variable {α : Type} {count : ℕ} {ss : List (List α)}

-- One read, which ends with the segment.
def read (count : ℕ) : List (List α) → List α × List (List α)
  | []      => ([], [])
  | s :: ss => if s.length ≤ count then (s, ss) else (s.take count, s.drop count :: ss)

theorem read_append (count : ℕ) (ss : List (List α)) :
    (read count ss).1 ++ (read count ss).2.flatten = ss.flatten := by
  cases ss with
  | nil       => simp [read]
  | cons s ss =>
    rw [read]
    split <;> simp [← List.append_assoc]

theorem read_length_le (count : ℕ) (ss : List (List α)) : (read count ss).1.length ≤ count := by
  cases ss with
  | nil       => simp [read]
  | cons s ss =>
    rw [read]
    split
    · assumption
    · simp only [List.length_take]
      omega

theorem read_length_lt (h : (read count ss).1 ≠ []) :
    (read count ss).2.flatten.length < ss.flatten.length := by
  have hl := congrArg List.length (read_append count ss)
  have hp := List.length_pos_iff.mpr h
  rw [List.length_append] at hl
  omega

theorem read_rest (h : ∀ s ∈ ss, s ≠ []) : ∀ s ∈ (read count ss).2, s ≠ [] := by
  cases ss with
  | nil       => simp [read]
  | cons s ss =>
    have ⟨_, hss⟩ := List.forall_mem_cons.mp h
    rw [read]
    split
    · exact hss
    · simp only [List.forall_mem_cons]
      refine ⟨?_, hss⟩
      simp only [ne_eq, List.drop_eq_nil_iff]
      assumption

theorem read_ne_nil (hc : 0 < count) (h : ∀ s ∈ ss, s ≠ []) (hne : ss.flatten ≠ []) :
    (read count ss).1 ≠ [] := by
  cases ss with
  | nil       => simp at hne
  | cons s ss =>
    have ⟨hs, _⟩ := List.forall_mem_cons.mp h
    rw [read]
    split
    · exact hs
    · simp [hs]
      omega

-- Reads until there is as much as asked for, or for ever.
def readAll (count : ℕ) (ss : List (List α)) : Option (List α × List (List α)) :=
  if count = 0 then some ([], ss)
  else if (read count ss).1 = [] then none
  else
    (readAll (count - (read count ss).1.length) (read count ss).2).map fun p =>
      ((read count ss).1 ++ p.1, p.2)
termination_by count
decreasing_by
  have hp := List.length_pos_iff.mpr ‹¬ (read count ss).1 = []›
  omega

-- What is read does not depend on the segments.
theorem readAll_eq (h : ∀ s ∈ ss, s ≠ []) (hl : count ≤ ss.flatten.length) :
    ∃ ss', readAll count ss = some (ss.flatten.take count, ss') := by
  induction count, ss using readAll.induct with
  | case1 ss                => exact ⟨ss, by simp [readAll]⟩
  | case2 count ss hc hr    =>
    have hne : ss.flatten ≠ [] := by
      apply List.length_pos_iff.mp
      omega
    exact absurd hr (read_ne_nil (Nat.pos_of_ne_zero hc) h hne)
  | case3 count ss hc hr hi =>
    have ha := read_append count ss
    have hle := read_length_le count ss
    have hla := congrArg List.length ha
    rw [List.length_append] at hla
    have ⟨ss', hs⟩ := hi (read_rest h) (by omega)
    refine ⟨ss', ?_⟩
    rw [readAll, if_neg hc, if_neg hr, hs, ← ha, List.take_append, List.take_of_length_le hle]
    rfl

end Segments
