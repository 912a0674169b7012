import Sfcc.Theorems.GenericList

-- Runs of calls of the function table of a list.
namespace Sfcc.GenericList

open Allocation Links Cursors

variable {P : Type} [DecidableEq P] {l l' : GenericList P} {s s' : State P}

-- What the calls do to what a list stands for. The elements are counted by an `unsigned int`.

def step (s : State P) : ListCall P → Option (Option P × State P)
  | .clear              => some (none, s.clear)
  | .append pointer _   => some (none, pointer.elim s s.append)
  | .prepend pointer _  => some (none, pointer.elim s s.prepend)
  | .getFirst           => some s.first
  | .getLast            => some s.last
  | .getNext            => s.next
  | .getPrevious        => s.previous
  | .getCurrent         => s.current
  | .removeFirst        => some (counted s s.removeFirst)
  | .removeLast         => some (counted s s.removeLast)
  | .removeCurrent      => s.removeCurrent
  | .removeThis pointer => some (pointer.elim (none, s) s.removeThis)

def steps : State P → List (ListCall P) → Option (List (Option P) × State P)
  | s, []      => some ([], s)
  | s, c :: cs => do
    let (o, s) ← step s c
    let (os, s) ← steps s cs
    return (o :: os, s)

theorem Shows.call (h : Shows l s) (c : ListCall P) {t : Option P × State P} (ht : step s c = some t) :
    l.call c = .error .taken ∨ ∃ l', l.call c = .ok (t.1, l') ∧ Shows l' t.2 := by
  cases c with
  | clear           =>
    cases ht
    have ⟨l', hl, hs⟩ := h.clear
    exact .inr ⟨l', by rw [GenericList.call, hl]; rfl, hs⟩
  | append o a      =>
    cases ht
    cases o with
    | none   => exact .inr ⟨l, rfl, h⟩
    | some p =>
      rcases h.append p a with hl | ⟨l', hl, hs⟩
      · exact .inl (by simp only [GenericList.call, hl, bind, Except.bind])
      · exact .inr ⟨l', by simp only [GenericList.call, hl, bind, Except.bind, pure, Except.pure], hs⟩
  | prepend o a     =>
    cases ht
    cases o with
    | none   => exact .inr ⟨l, rfl, h⟩
    | some p =>
      rcases h.prepend p a with hl | ⟨l', hl, hs⟩
      · exact .inl (by simp only [GenericList.call, hl, bind, Except.bind])
      · exact .inr ⟨l', by simp only [GenericList.call, hl, bind, Except.bind, pure, Except.pure], hs⟩
  | getFirst        =>
    cases ht
    exact .inr h.first
  | getLast         =>
    cases ht
    exact .inr h.last
  | getNext         => exact .inr (h.next ht)
  | getPrevious     => exact .inr (h.previous ht)
  | getCurrent      => exact .inr (h.current ht)
  | removeFirst     =>
    cases ht
    exact .inr h.removeFirst
  | removeLast      =>
    cases ht
    exact .inr h.removeLast
  | removeCurrent   => exact .inr (h.removeCurrent ht)
  | removeThis o    =>
    cases ht
    exact .inr (h.removeThis o)

theorem Shows.run (h : Shows l s) {cs : List (ListCall P)} {os : List (Option P)} (hs : steps s cs = some (os, s')) :
    l.run cs = .error .taken ∨ ∃ l', l.run cs = .ok (os, l') ∧ Shows l' s' := by
  induction cs generalizing l s os with
  | nil          =>
    cases hs
    exact .inr ⟨l, rfl, h⟩
  | cons c cs hi =>
    rw [steps] at hs
    have ⟨⟨o, s₁⟩, ht, hs⟩ := Option.bind_eq_some_iff.mp hs
    have ⟨⟨os₁, s₂⟩, hs₁, hs⟩ := Option.bind_eq_some_iff.mp hs
    cases hs
    rcases h.call c ht with hl | ⟨l₁, hl, hs₁'⟩
    · exact .inl (by rw [GenericList.run, hl]; rfl)
    · rcases hi hs₁' hs₁ with hl' | ⟨l', hl', hs'⟩
      · exact .inl (by rw [GenericList.run, hl]; simp only [bind, Except.bind, hl'])
      · exact .inr ⟨l', by rw [GenericList.run, hl]; simp only [bind, Except.bind, pure, Except.pure, hl'], hs'⟩

-- What a caller does that goes through a list and takes out elements on its way.

def sweepFrom (f : P → Bool) : ℕ → Option P → GenericList P → Except Misuse (List P × GenericList P)
  | 0, _, _          => throw .outside
  | _ + 1, none, l   => return ([], l)
  | n + 1, some p, l => do
    let (_, l) ← if f p then l.call .removeCurrent else pure (none, l)
    let (o, l) ← l.call .getNext
    let (ps, l) ← sweepFrom f n o l
    return (p :: ps, l)

def sweep (l : GenericList P) (f : P → Bool) : Except Misuse (List P × GenericList P) := do
  let (o, l) ← l.call .getFirst
  sweepFrom f (l.allocated + 1) o l

theorem Shows.sweepFrom (f : P → Bool) {ps qs : List P} {n : ℕ} (h : Shows l ⟨ps ++ qs, .place (ps.length + 1)⟩)
    (hn : qs.length < n) :
    ∃ l', GenericList.sweepFrom f n qs.head? l = .ok (qs, l') ∧
      Shows l' ⟨ps ++ qs.filter (!f ·), .place ((ps ++ qs.filter (!f ·)).length + 1)⟩ := by
  induction qs generalizing ps l n with
  | nil          =>
    cases n with
    | zero   => cases hn
    | succ n => exact ⟨l, rfl, by simpa using h⟩
  | cons q qs hi =>
    cases n with
    | zero   => cases hn
    | succ n =>
      rw [List.head?_cons, GenericList.sweepFrom]
      cases hq : f q with
      | true  =>
        have ⟨l₁, h₁, hs₁⟩ := h.removeCurrent (State.removeCurrent_behind ps qs q)
        have ⟨l₂, h₂, hs₂⟩ := hs₁.next (State.next_gap ps qs ps.length)
        have ⟨l', hl, hs⟩ := hi hs₂ (Nat.lt_of_succ_lt_succ hn)
        refine ⟨l', ?_, ?_⟩
        · simp only [if_true, GenericList.call, bind, Except.bind, pure, Except.pure, h₁, h₂, hl]
        · rwa [List.filter_cons_of_neg (by rw [hq]; decide)]
      | false =>
        have ⟨l₁, h₁, hs₁⟩ := h.next (State.next_behind ps qs q)
        have ⟨l', hl, hs⟩ := hi hs₁ (Nat.lt_of_succ_lt_succ hn)
        refine ⟨l', ?_, ?_⟩
        · simp only [Bool.false_eq_true, if_false, GenericList.call, bind, Except.bind, pure, Except.pure, h₁, hl]
        · rwa [List.filter_cons_of_pos (by rw [hq]; rfl), List.append_cons]

theorem Shows.sweep (h : Shows l s) (f : P → Bool) :
    ∃ l' c, l.sweep f = .ok (s.items, l') ∧ Shows l' ⟨s.items.filter (!f ·), c⟩ := by
  have ⟨l₁, h₁, hs₁⟩ := h.first
  rw [GenericList.sweep, GenericList.call, h₁]
  simp only [bind, Except.bind]
  rw [hs₁.allocated]
  rcases s with ⟨items, c⟩
  cases items with
  | nil       => exact ⟨l₁, .place 0, rfl, hs₁⟩
  | cons p ps =>
    have hc : min (p :: ps).length 1 = 1 := Nat.min_eq_right (Nat.succ_le_succ (Nat.zero_le _))
    rw [State.first, hc] at hs₁ ⊢
    have hs₁ : Shows l₁ ⟨[] ++ p :: ps, .place (([] : List P).length + 1)⟩ := hs₁
    have ⟨l', hl, hs⟩ := Shows.sweepFrom f hs₁ (Nat.lt_succ_self _)
    exact ⟨l', _, hl, hs⟩

-- The lists that the function table makes, and what they stand for.
inductive Made : GenericList P → State P → Prop
  | new : Made initializeList { items := [] }
  | call {l l' : GenericList P} {s s' : State P} {c : ListCall P} {o : Option P} :
    Made l s → step s c = some (o, s') → l.call c = .ok (o, l') → Made l' s'
  | clone {l l' : GenericList P} {s : State P} {as : List ℕ} :
    Made l s → s.items.length ≤ as.length → l.copyList as = .ok l' → Made l' { items := s.items }

theorem Made.shows (h : Made l s) : Shows l s := by
  induction h with
  | new             => exact shows_initializeList
  | call _ hs hl h  =>
    rcases h.call _ hs with he | ⟨l', hl', hs'⟩
    · cases hl.symm.trans he
    · cases hl.symm.trans hl'
      exact hs'
  | clone _ hn hl h =>
    rcases h.copyList hn with he | ⟨l', hl', hs'⟩
    · cases hl.symm.trans he
    · cases hl.symm.trans hl'
      exact hs'

theorem Made.run {cs : List (ListCall P)} {os : List (Option P)} (h : Made l s) (hs : steps s cs = some (os, s'))
    (hl : l.run cs = .ok (os, l')) : Made l' s' := by
  induction cs generalizing l s os with
  | nil          =>
    cases hs
    cases hl
    exact h
  | cons c cs hi =>
    rw [steps] at hs
    have ⟨⟨o, s₁⟩, ht, hs⟩ := Option.bind_eq_some_iff.mp hs
    have ⟨⟨os₁, s₂⟩, hs₁, hs⟩ := Option.bind_eq_some_iff.mp hs
    cases hs
    rcases h.shows.call c ht with he | ⟨l₁, h₁, _⟩
    · rw [GenericList.run, he] at hl
      cases hl
    · rw [GenericList.run, h₁] at hl
      simp only [bind, Except.bind] at hl
      split at hl
      case h_1     => cases hl
      case h_2 hl₁ =>
        cases hl
        exact hi (h.call ht h₁) hs₁ hl₁

-- Unless an address comes back from `malloc` that is in use, the calls do to a list what they do to what
-- it stands for.
theorem run_steps {cs : List (ListCall P)} {os : List (Option P)} (h : Made l s) (hs : steps s cs = some (os, s')) :
    l.run cs = .error .taken ∨ ∃ l', l.run cs = .ok (os, l') ∧ Made l' s' ∧ l'.listSize = size_t (int s'.items.length) ∧
      (l'.isEmpty = true ↔ s'.items.length % 2 ^ 32 = 0) ∧ ∀ o, l'.isInList o = .ok (o ∈ s'.items.map some) := by
  refine (h.shows.run hs).imp id fun ⟨l', hl, hs'⟩ => ?_
  exact ⟨l', hl, h.run hs hl, hs'.listSize, hs'.isEmpty, hs'.isInList⟩

theorem run_steps_removed :
    let cs : List (ListCall ℕ) :=
      [.append (some 5) 16, .append (some 6) 32, .getFirst, .removeCurrent, .prepend (some 7) 16, .getNext, .removeThis (some 7)]
    let os := [none, none, some 5, some 5, none, some 6, some 7]
    initializeList.run cs = .error .taken ∨
      ∃ l, initializeList.run cs = .ok (os, l) ∧ Made l ⟨[6], .place 1⟩ ∧ l.listSize = size_t (int 1) ∧
        (l.isEmpty = true ↔ 1 % 2 ^ 32 = 0) ∧ ∀ o, l.isInList o = .ok (o ∈ [some 6]) :=
  run_steps .new rfl

-- Going through a list meets each element once, in order, and leaves those that are not taken out.
theorem sweep_filters (h : Made l s) (f : P → Bool) :
    ∃ l', l.sweep f = .ok (s.items, l') ∧ l'.allocated = (s.items.filter (!f ·)).length ∧
      l'.numOfElements = .ofNat (s.items.filter (!f ·)).length ∧
      ∀ g, ∃ l'', l'.sweep g = .ok (s.items.filter (!f ·), l'') := by
  have ⟨l', c, hl, hs⟩ := h.shows.sweep f
  refine ⟨l', hl, hs.allocated, hs.count, fun g => ?_⟩
  have ⟨l'', _, hl', _⟩ := hs.sweep g
  exact ⟨l'', hl'⟩

-- A list of four elements, beside one that was taken out.
def shuffledCalls : List (ListCall ℕ) :=
  [.append (some 5) 16, .append (some 8) 32, .prepend (some 6) 48, .getLast, .removeCurrent, .append (some 3) 64,
    .prepend (some 9) 32]

theorem sweep_filters_shuffled : ∃ l, initializeList.run shuffledCalls = .ok ([none, none, none, some 8, some 8, none, none], l) ∧
    ∃ l', l.sweep (· < 6) = .ok ([9, 6, 5, 3], l') ∧ l'.allocated = 2 ∧ l'.numOfElements = .ofNat 2 ∧
      ∀ g, ∃ l'', l'.sweep g = .ok ([9, 6], l'') := by
  have ⟨l, hl⟩ : ∃ l, (initializeList : GenericList ℕ).run shuffledCalls =
      .ok ([none, none, none, some 8, some 8, none, none], l) := ⟨_, rfl⟩
  have h : Made l ⟨[9, 6, 5, 3], .gap 3 5⟩ := Made.new.run rfl hl
  exact ⟨l, hl, sweep_filters h _⟩

-- A copy is a list of the same elements in the same order, with its cursor in front of them.
theorem copyList_made {as : List ℕ} (h : Made l s) (ha : s.items.length ≤ as.length) :
    l.copyList as = .error .taken ∨ ∃ l', l.copyList as = .ok l' ∧ Made l' { items := s.items } ∧
      ∃ l'', l'.sweep (fun _ => false) = .ok (s.items, l'') := by
  refine (h.shows.copyList ha).imp id fun ⟨l', hl, hs⟩ => ⟨l', hl, h.clone ha hl, ?_⟩
  have ⟨l'', _, hl', _⟩ := hs.sweep fun _ => false
  exact ⟨l'', hl'⟩

theorem copyList_made_shuffled : ∃ l, initializeList.run shuffledCalls = .ok ([none, none, none, some 8, some 8, none, none], l) ∧
    (l.copyList [80, 96, 112, 128] = .error .taken ∨ ∃ l', l.copyList [80, 96, 112, 128] = .ok l' ∧
      Made l' { items := [9, 6, 5, 3] } ∧ ∃ l'', l'.sweep (fun _ => false) = .ok ([9, 6, 5, 3], l'')) := by
  have ⟨l, hl⟩ : ∃ l, (initializeList : GenericList ℕ).run shuffledCalls =
      .ok ([none, none, none, some 8, some 8, none, none], l) := ⟨_, rfl⟩
  have h : Made l ⟨[9, 6, 5, 3], .gap 3 5⟩ := Made.new.run rfl hl
  exact ⟨l, hl, copyList_made h (Nat.le_refl _)⟩

-- The cursor is not taken away from an element when a list is cleared, so that what was there is read
-- again. The same is true for what was next to an element that was taken out.
theorem removeAll_dangling (h : Made l s) (hc : s.cursor ≠ .lost) :
    ∃ l', l.removeAll = .ok l' ∧ (l'.currentInList = .error .dangling ↔ s.here.isSome) ∧
      (l'.nextInList = .error .dangling ↔ s.here.isSome ∨ ∃ i j, s.cursor = .gap i j ∧ (s.item j).isSome) ∧
      (l'.previousInList = .error .dangling ↔ s.here.isSome ∨ ∃ i j, s.cursor = .gap i j ∧ (s.item i).isSome) := by
  obtain ⟨xs, hr, hs, ho⟩ := h.shows
  obtain ⟨l', hl, hr', hm⟩ := hr.removeAll
  refine ⟨l', hl, ?_⟩
  rw [currentInList_dangling, nextInList_dangling, previousInList_dangling, hm.current]
  cases hp : s.cursor with
  | place i =>
    rw [hp] at ho
    have hh : s.here = itemAt xs i := by
      rw [State.here, hp]
      exact (itemAt_eq hs i).symm
    have he := hr.cleared hr' ho
    by_cases hi : (itemAt xs i).isSome
    · have hn := he.mpr hi
      have hl : l'.next l.current = none ∧ l'.previous l.current = none := by
        rw [GenericList.next, GenericList.previous, hn]
        exact ⟨rfl, rfl⟩
      rw [hh, hl.left, hl.right]
      exact ⟨he, iff_of_true (by simp) (.inl hi), iff_of_true (by simp) (.inl hi)⟩
    · obtain ⟨⟨q, hq, hn⟩, q', hq', hn'⟩ := hr.exists_cleared hr' ho hi
      rw [hh]
      refine ⟨he, iff_of_false (fun hd => hn (hd q hq)) ?_, iff_of_false (fun hd => hn' (hd q' hq')) ?_⟩
      · rintro (hi' | ⟨_, _, hg, _⟩)
        · exact hi hi'
        · cases hg
      · rintro (hi' | ⟨_, _, hg, _⟩)
        · exact hi hi'
        · cases hg
  | gap i j =>
    rw [hp] at ho
    obtain ⟨hcur, r, r', hpr, hnx, hi, hj⟩ := ho
    have hh : s.here = none := by rw [State.here, hp]
    have hd : l'.memory .deleted ≠ none := by
      intro hd
      have := hr'.deleted
      rw [GenericList.pointer, hd] at this
      cases this
    have hn := hm.links.right.trans hnx
    have hp' := hm.links.left.trans hpr
    rw [hh, hcur, hn, hp']
    have he := hr.cleared hr' hj
    have he' := hr.cleared hr' hi
    rw [itemAt_eq hs] at he he'
    refine ⟨iff_of_false hd Bool.false_ne_true, ⟨fun hd => .inr ⟨i, j, rfl, he.mp (hd r' rfl)⟩, ?_⟩,
      ⟨fun hd => .inr ⟨i, j, rfl, he'.mp (hd r rfl)⟩, ?_⟩⟩
    · rintro (hs | ⟨_, _, hg, hs⟩) q hq
      · cases hs
      · cases hg
        cases hq
        exact he.mpr hs
    · rintro (hs | ⟨_, _, hg, hs⟩) q hq
      · cases hs
      · cases hg
        cases hq
        exact he'.mpr hs
  | lost    => exact absurd hp hc

theorem removeAll_dangling_first :
    ∃ l : GenericList ℕ, initializeList.run [.append (some 5) 16, .getFirst] = .ok ([none, some 5], l) ∧
      ∃ l', l.removeAll = .ok l' ∧ l'.currentInList = .error .dangling ∧ l'.nextInList = .error .dangling ∧
        l'.previousInList = .error .dangling := by
  have ⟨l, hl⟩ : ∃ l, (initializeList : GenericList ℕ).run [.append (some 5) 16, .getFirst] = .ok ([none, some 5], l) :=
    ⟨_, rfl⟩
  have h : Made l ⟨[5], .place 1⟩ := Made.new.run rfl hl
  have ⟨l', hr, hc, hn, hp⟩ := removeAll_dangling h (by decide)
  exact ⟨l, hl, l', hr, hc.mpr rfl, hn.mpr (.inl rfl), hp.mpr (.inl rfl)⟩

end Sfcc.GenericList
