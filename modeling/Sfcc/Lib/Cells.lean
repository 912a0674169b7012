import Mathlib.Data.List.Basic
import Mathlib.Data.List.TakeWhile

-- Cells of memory. One that was never written holds nothing.
namespace Cells

variable {α : Type} {m : List (Option α)} {l l' : List α} {n i : ℕ} {z : α}

-- Writes to neighbouring cells, if all of them are there.
def store (m : List (Option α)) (i : ℕ) (l : List α) : Option (List (Option α)) :=
  if i + l.length ≤ m.length then some (m.take i ++ l.map some ++ m.drop (i + l.length)) else none

-- As many cells, of which the first ones are kept.
def resize (m : List (Option α)) (n : ℕ) : List (Option α) :=
  m.take n ++ List.replicate (n - m.length) none

@[simp]
theorem resize_length (m : List (Option α)) (n : ℕ) : (resize m n).length = n := by
  simp only [resize, List.length_append, List.length_take, List.length_replicate]
  omega

-- The first cells hold a list.
def Holds (m : List (Option α)) (l : List α) : Prop :=
  m.take l.length = l.map some

theorem Holds.nil (m : List (Option α)) : Holds m [] :=
  rfl

theorem Holds.length_le (h : Holds m l) : l.length ≤ m.length := by
  have hl := congrArg List.length h
  rw [List.length_take, List.length_map] at hl
  omega

theorem Holds.eq_append (h : Holds m l) : m = l.map some ++ m.drop l.length := by
  have ht := List.take_append_drop l.length m
  rw [h] at ht
  exact ht.symm

theorem holds_append (l : List α) (m : List (Option α)) : Holds (l.map some ++ m) l := by
  rw [Holds, List.take_left' (List.length_map _)]

theorem Holds.left (h : Holds m (l ++ l')) : Holds m l := by
  rw [h.eq_append, List.map_append, List.append_assoc]
  exact holds_append ..

theorem Holds.resize (h : Holds m l) (hn : l.length ≤ n) : Holds (resize m n) l := by
  rw [Holds, Cells.resize, List.take_append_of_le_length, List.take_take, Nat.min_eq_left hn, h]
  rw [List.length_take]
  exact le_min hn h.length_le

-- Behind what the cells hold.
theorem Holds.store (h : Holds m l) (hl : (l ++ l').length ≤ m.length) :
    ∃ m', Cells.store m l.length l' = some m' ∧ m'.length = m.length ∧ Holds m' (l ++ l') := by
  rw [List.length_append] at hl
  refine ⟨_, if_pos hl, ?_, ?_⟩
  · simp only [List.length_append, List.length_take, List.length_map, List.length_drop]
    omega
  · rw [h, ← List.map_append]
    exact holds_append ..

-- In the middle of it.
theorem Holds.set {a b : List α} {c : α} (h : Holds m (a ++ c :: b)) (c' : α) :
    ∃ m', Cells.store m a.length [c'] = some m' ∧ m'.length = m.length ∧ Holds m' (a ++ c' :: b) := by
  have hl := h.length_le
  rw [List.length_append, List.length_cons] at hl
  refine ⟨_, if_pos ?_, ?_, ?_⟩
  · rw [List.length_singleton]
    omega
  · simp only [List.length_append, List.length_take, List.length_map, List.length_drop, List.length_singleton]
    omega
  · have hd : (a ++ c :: b).map some = (a.map some ++ [some c]) ++ b.map some := by simp
    have he := h.eq_append
    rw [hd, List.append_assoc] at he
    have htake : m.take a.length = a.map some := h.left
    have hdrop : m.drop (a.length + [c'].length) = b.map some ++ m.drop (a ++ c :: b).length := by
      conv_lhs => rw [he]
      rw [List.drop_left' (by simp)]
    have hm : (a ++ c' :: b).map some = a.map some ++ [c'].map some ++ b.map some := by simp
    rw [htake, hdrop, ← List.append_assoc, ← hm]
    exact holds_append ..

variable [DecidableEq α]

-- What stands before the first `z`.
def upTo (z : α) : List (Option α) → Option (List α)
  | some c :: m => if c = z then some [] else (upTo z m).map (c :: ·)
  | _           => none

theorem upTo_map (z : α) (l : List α) (h : z ∈ l) : upTo z (l.map some) = some (l.takeWhile (· ≠ z)) := by
  induction l with
  | nil         => cases h
  | cons c l hi =>
    rw [List.map_cons, upTo]
    by_cases hc : c = z
    · rw [if_pos hc, List.takeWhile_cons_of_neg (by simpa using hc)]
    · have hz : z ∈ l := (List.mem_cons.mp h).resolve_left (Ne.symm hc)
      rw [if_neg hc, hi hz, List.takeWhile_cons_of_pos (by simpa using hc)]
      rfl

theorem upTo_append (h : z ∉ l) (m : List (Option α)) : upTo z (l.map some ++ some z :: m) = some l := by
  induction l with
  | nil         => exact if_pos rfl
  | cons c l hi =>
    have ⟨hc, hl⟩ := List.ne_and_not_mem_of_not_mem_cons h
    rw [List.map_cons, List.cons_append, upTo, if_neg (Ne.symm hc), hi hl]
    rfl

theorem Holds.upTo (hm : Holds m (l ++ [z])) (h : z ∉ l) : Cells.upTo z m = some l := by
  have he := hm.eq_append
  rw [List.map_append, List.append_assoc] at he
  rw [he]
  exact upTo_append h _

end Cells
