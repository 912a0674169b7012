import Mathlib.Data.List.Perm.Basic
import Mathlib.Logic.Function.Basic

-- What an allocator has handed out and did not get back.
namespace Allocation

-- An address that is in use is none that an allocator returns.
inductive Misuse
  | taken
  | dangling
  | outside
  deriving DecidableEq, Repr

variable {A : Type} {m others : A → Option ℕ} {p : A} {l l' : List A} {n : ℕ}

-- The addresses that are in use.
def Used (others : A → Option ℕ) (l : List A) (p : A) : Prop :=
  p ∈ l ∨ others p ≠ none

theorem Used.mono (hu : Used others l p) (hl : l ⊆ l') : Used others l' p :=
  hu.imp_left fun hp => hl hp

-- The blocks of a list, each one once, beside those of others.
structure Owns (m others : A → Option ℕ) (l : List A) : Prop where
  nodup : l.Nodup
  mine  : ∀ p ∈ l, m p ≠ none ∧ others p = none
  rest  : ∀ p, p ∉ l → m p = others p

namespace Owns

theorem nil (m : A → Option ℕ) : Owns m m [] where
  nodup    := .nil
  mine _ h := absurd h List.not_mem_nil
  rest _ _ := rfl

theorem eq_others (h : Owns m others []) : m = others :=
  funext fun p => h.rest p List.not_mem_nil

theorem perm (h : Owns m others l) (hp : l.Perm l') : Owns m others l' where
  nodup     := hp.nodup_iff.mp h.nodup
  mine p hm := h.mine p (hp.mem_iff.mpr hm)
  rest p hn := h.rest p fun hm => hn (hp.mem_iff.mp hm)

end Owns

variable [DecidableEq A]

-- The memory has the size of what stands at an address. A null pointer is what a call that fails returns.
def malloc (m : A → Option ℕ) (p : Option A) (n : ℕ) : Except Misuse (A → Option ℕ) :=
  match p with
  | none   => return m
  | some p => if m p = none then return Function.update m p (some n) else throw .taken

def free (m : A → Option ℕ) (p : Option A) : Except Misuse (A → Option ℕ) :=
  match p with
  | none   => return m
  | some p => if m p = none then throw .dangling else return Function.update m p none

-- The block stays where it is, or it moves and the old one is free. If the call fails, it is kept.
def realloc (m : A → Option ℕ) (p q : Option A) (n : ℕ) : Except Misuse (A → Option ℕ) := do
  let m' ← free m p
  if q = none then return m else malloc m' q n

namespace Owns

theorem cons (h : Owns m others l) (hm : m p = none) : Owns (Function.update m p (some n)) others (p :: l) where
  nodup       := List.nodup_cons.mpr ⟨fun hp => (h.mine p hp).left hm, h.nodup⟩
  mine q hq   := by
    rcases List.mem_cons.mp hq with rfl | hl
    · have hn : q ∉ l := fun hp => (h.mine q hp).left hm
      exact ⟨by simp, (h.rest q hn).symm.trans hm⟩
    · have hne : q ≠ p := fun he => (h.mine q hl).left (he ▸ hm)
      rw [Function.update_of_ne hne]
      exact h.mine q hl
  rest q hq   := by
    have ⟨hne, hn⟩ := List.ne_and_not_mem_of_not_mem_cons hq
    rw [Function.update_of_ne hne]
    exact h.rest q hn

theorem malloc (h : Owns m others l) (p : A) (n : ℕ) :
    Allocation.malloc m (some p) n = .error .taken ∧ Used others l p ∨
    ∃ m', Allocation.malloc m (some p) n = .ok m' ∧ Owns m' others (p :: l) := by
  by_cases hm : m p = none
  · exact .inr ⟨_, if_pos hm, h.cons hm⟩
  · refine .inl ⟨if_neg hm, or_iff_not_imp_left.mpr fun hp => ?_⟩
    rwa [← h.rest p hp]

theorem free (h : Owns m others (p :: l)) : ∃ m', Allocation.free m (some p) = .ok m' ∧ Owns m' others l := by
  have ⟨hn, hl⟩ := List.nodup_cons.mp h.nodup
  have ⟨hm, ho⟩ := h.mine p List.mem_cons_self
  refine ⟨_, if_neg hm, hl, ?mine, ?rest⟩
  case mine =>
    intro q hq
    have hne : q ≠ p := fun he => hn (he ▸ hq)
    rw [Function.update_of_ne hne]
    exact h.mine q (List.mem_cons_of_mem _ hq)
  case rest =>
    intro q hq
    by_cases he : q = p
    · rw [he, Function.update_self, ho]
    · rw [Function.update_of_ne he]
      exact h.rest q (List.not_mem_cons_of_ne_of_not_mem he hq)

theorem realloc {o : Option A} (h : Owns m others (o.toList ++ l)) (q : A) (n : ℕ) :
    Allocation.realloc m o (some q) n = .error .taken ∧ Used others l q ∨
    ∃ m', Allocation.realloc m o (some q) n = .ok m' ∧ Owns m' others (q :: l) := by
  have ⟨m₁, h₁, ho⟩ : ∃ m₁, Allocation.free m o = .ok m₁ ∧ Owns m₁ others l := by
    cases o with
    | none   => exact ⟨m, rfl, h⟩
    | some p => exact free h
  have he : Allocation.realloc m o (some q) n = Allocation.malloc m₁ (some q) n := by
    rw [Allocation.realloc, h₁]
    rfl
  rw [he]
  exact ho.malloc q n

end Owns
end Allocation
