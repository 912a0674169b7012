import Mathlib.Data.List.Basic

-- A list with a cursor, which stands on an element, in front of all, behind all, or where an element
-- was taken out.
namespace Cursors

-- The elements have the numbers from 1 on, what is in front of them has 0, and what is behind them the
-- next one. A gap is what an element left, with what is in front of and behind it. A cursor is lost
-- when what it stands for is not part of the list any more.
inductive Cursor
  | place (i : ℕ)
  | gap (i j : ℕ)
  | lost
  deriving DecidableEq

structure State (P : Type*) where
  items  : List P
  cursor : Cursor := .place 0

-- Where a number is when a new element has got the number `k`, and when the element `k` is gone.
def up (k i : ℕ) : ℕ :=
  if i < k then i else i + 1

def down (k i : ℕ) : ℕ :=
  if i < k then i else i - 1

namespace Cursor

def insert (k : ℕ) : Cursor → Cursor
  | place i => place (up k i)
  | gap i j => gap (up k i) (up k j)
  | lost    => lost

-- `onto` is where the cursor goes from the element itself.
def erase (k : ℕ) : Cursor → Cursor → Cursor
  | place i, onto => if i = k then onto else place (down k i)
  | gap i j, _    => if i = k ∨ j = k then lost else gap (down k i) (down k j)
  | lost, _       => lost

-- All the elements are gone, of which there were `n`.
def clear (n : ℕ) : Cursor → Cursor
  | place i => if i = 0 then place 0 else if i = n + 1 then place 1 else lost
  | gap i j => if i = 0 ∧ j = n + 1 then gap 0 1 else lost
  | lost    => lost

end Cursor

namespace State

variable {P : Type*} (s : State P)

def item (i : ℕ) : Option P :=
  if i = 0 then none else s.items[i - 1]?

def here : Option P :=
  match s.cursor with
  | .place i => s.item i
  | _        => none

def goto (i : ℕ) : Option P × State P :=
  (s.item i, { s with cursor := .place i })

-- Calls whose result is `none` are those that need a cursor which is lost.
def next : Option (Option P × State P) :=
  match s.cursor with
  | .place i => some (s.goto (min (i + 1) (s.items.length + 1)))
  | .gap _ j => some (s.goto j)
  | .lost    => none

def previous : Option (Option P × State P) :=
  match s.cursor with
  | .place i => some (s.goto (i - 1))
  | .gap i _ => some (s.goto i)
  | .lost    => none

def current : Option (Option P × State P) :=
  match s.cursor with
  | .lost => none
  | _     => some (s.here, s)

def first : Option P × State P :=
  s.goto (min s.items.length 1)

def last : Option P × State P :=
  s.goto (max s.items.length 1)

def prepend (p : P) : State P where
  items  := p :: s.items
  cursor := s.cursor.insert 1

def append (p : P) : State P where
  items  := s.items ++ [p]
  cursor := s.cursor.insert (s.items.length + 1)

-- The element `k` is taken out.
def erase (k : ℕ) (onto : Cursor) : State P where
  items  := s.items.eraseIdx (k - 1)
  cursor := s.cursor.erase k onto

def removeFirst : Option P × State P :=
  if s.items.length = 0 then (none, s) else (s.item 1, s.erase 1 (.place 0))

def removeLast : Option P × State P :=
  if s.items.length = 0 then (none, s)
  else (s.item s.items.length, s.erase s.items.length (.place s.items.length))

def removeCurrent : Option (Option P × State P) :=
  match s.cursor with
  | .place i =>
    if (s.item i).isSome then some (s.item i, s.erase i (.gap (i - 1) i)) else some (none, s)
  | .gap _ _ => some (none, s)
  | .lost    => none

def clear : State P where
  items  := []
  cursor := s.cursor.clear s.items.length

-- Where a cursor stands behind some elements, in a list that goes on with others.

theorem item_behind (ps qs : List P) (c : Cursor) : State.item ⟨ps ++ qs, c⟩ (ps.length + 1) = qs.head? := by
  rw [item, if_neg (Nat.succ_ne_zero _), Nat.add_sub_cancel, List.getElem?_append_right (Nat.le_refl _), Nat.sub_self,
    List.head?_eq_getElem?]

theorem next_behind (ps qs : List P) (q : P) :
    State.next ⟨ps ++ q :: qs, .place (ps.length + 1)⟩ =
      some (qs.head?, ⟨(ps ++ [q]) ++ qs, .place ((ps ++ [q]).length + 1)⟩) := by
  have hl : min (ps.length + 1 + 1) ((ps ++ q :: qs).length + 1) = (ps ++ [q]).length + 1 := by
    simp only [List.length_append, List.length_cons, List.length_nil]
    omega
  rw [List.append_cons] at hl ⊢
  rw [next]
  dsimp only
  rw [hl, goto, item_behind]

theorem removeCurrent_behind (ps qs : List P) (q : P) :
    State.removeCurrent ⟨ps ++ q :: qs, .place (ps.length + 1)⟩ =
      some (some q, ⟨ps ++ qs, .gap ps.length (ps.length + 1)⟩) := by
  rw [removeCurrent]
  dsimp only
  rw [item_behind, List.head?_cons, if_pos Option.isSome_some, erase, Nat.add_sub_cancel, List.eraseIdx_append_of_length_le (Nat.le_refl _),
    Nat.sub_self, Cursor.erase, if_pos rfl]
  rfl

theorem next_gap (ps qs : List P) (i : ℕ) :
    State.next ⟨ps ++ qs, .gap i (ps.length + 1)⟩ = some (qs.head?, ⟨ps ++ qs, .place (ps.length + 1)⟩) := by
  rw [next]
  dsimp only
  rw [goto, item_behind]

variable [DecidableEq P]

-- The number of the last one of the elements that are equal to `p`.
def lastIndex (p : P) : List P → Option ℕ
  | []      => none
  | q :: qs => (lastIndex p qs).elim (if q = p then some 1 else none) fun i => some (i + 1)

def removeThis (p : P) : Option P × State P :=
  (lastIndex p s.items).elim (none, s) fun k => (some p, s.erase k (.gap (k - 1) k))

end State
end Cursors
