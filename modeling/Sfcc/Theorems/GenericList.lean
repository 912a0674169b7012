import Sfcc.Lib.Cursors
import Sfcc.Lib.Links
import Sfcc.GenericList

namespace Sfcc.GenericList

open Allocation Links Cursors

variable {P : Type} {l l' : GenericList P} {xs : List (ℕ × P)} {c : Cursor} {r r' : Ref} {e : GenericListElement P}
variable {a i k : ℕ} {p : P}

def next (l : GenericList P) (r : Ref) : Option Ref :=
  (l.memory r).map (·.next)

def previous (l : GenericList P) (r : Ref) : Option Ref :=
  (l.memory r).map (·.previous)

def pointer (l : GenericList P) (r : Ref) : Option (Option P) :=
  (l.memory r).map (·.pointer)

-- The elements with the two that are in front of them and behind them.
def refs (xs : List (ℕ × P)) : List Ref :=
  .pre :: (xs.map fun x => .element x.1) ++ [.post]

-- The elements are those of a list, with their addresses.
structure Represents (l : GenericList P) (xs : List (ℕ × P)) : Prop where
  linked  : Linked l.next l.previous (refs xs)
  pre     : l.pointer .pre = some none ∧ l.previous .pre = some .pre
  post    : l.pointer .post = some none ∧ l.next .post = some .post
  deleted : l.pointer .deleted = some none
  element : ∀ a o, l.pointer (.element a) = some o ↔ ∃ p, o = some p ∧ (a, p) ∈ xs
  size    : l.allocated = xs.length
  count   : l.numOfElements = .ofNat xs.length

-- Where the cursor stands.
def On (l : GenericList P) (xs : List (ℕ × P)) : Cursor → Prop
  | .place i => (refs xs)[i]? = some l.current
  | .gap i j => l.current = .deleted ∧
    ∃ r r', l.previous .deleted = some r ∧ l.next .deleted = some r' ∧ (refs xs)[i]? = some r ∧ (refs xs)[j]? = some r'
  | .lost    => True

theorem refs_length (xs : List (ℕ × P)) : (refs xs).length = xs.length + 2 := by
  simp [refs]

theorem refs_zero (xs : List (ℕ × P)) : (refs xs)[0]? = some .pre :=
  rfl

theorem refs_last (xs : List (ℕ × P)) : (refs xs)[xs.length + 1]? = some .post := by
  simp [refs]

theorem refs_element (hi : i < xs.length) : (refs xs)[i + 1]? = some (.element (xs[i]).1) := by
  have hm : i < (xs.map fun x => Ref.element x.1).length := by rwa [List.length_map]
  rw [refs, List.cons_append, List.getElem?_cons_succ, List.getElem?_append_left hm, List.getElem?_map,
    List.getElem?_eq_getElem hi]
  rfl

theorem refs_insertIdx (hk : k ≤ xs.length) (x : ℕ × P) :
    refs (xs.insertIdx k x) = (refs xs).insertIdx (k + 1) (.element x.1) := by
  rw [refs, refs, List.cons_append, List.cons_append, List.insertIdx_succ_cons]
  congr 1
  induction k generalizing xs with
  | zero      => rfl
  | succ k hi =>
    cases xs with
    | nil       => cases hk
    | cons y xs =>
      simp only [List.insertIdx_succ_cons, List.map_cons, List.cons_append]
      rw [hi (Nat.le_of_succ_le_succ hk)]

theorem refs_eraseIdx (hk : k < xs.length) : refs (xs.eraseIdx k) = (refs xs).eraseIdx (k + 1) := by
  rw [refs, refs, List.cons_append, List.cons_append, List.eraseIdx_cons_succ]
  congr 1
  induction k generalizing xs with
  | zero      =>
    cases xs with
    | nil       => cases hk
    | cons y xs => rfl
  | succ k hi =>
    cases xs with
    | nil       => cases hk
    | cons y xs =>
      simp only [List.eraseIdx_cons_succ, List.map_cons, List.cons_append]
      rw [hi (Nat.lt_of_succ_lt_succ hk)]

-- What stands at a place of the list.

def itemAt (xs : List (ℕ × P)) (i : ℕ) : Option P :=
  if i = 0 then none else (xs[i - 1]?).map (·.2)

theorem itemAt_succ (hi : i < xs.length) : itemAt xs (i + 1) = some (xs[i]).2 := by
  rw [itemAt, if_neg (Nat.succ_ne_zero i), Nat.add_sub_cancel, List.getElem?_eq_getElem hi]
  rfl

theorem exists_ref (hi : i < xs.length + 2) : ∃ r, (refs xs)[i]? = some r :=
  ⟨_, List.getElem?_eq_getElem (by rwa [refs_length])⟩

theorem refs_lt (hi : (refs xs)[i]? = some r) : i < xs.length + 2 := by
  rw [← refs_length]
  exact (List.getElem?_eq_some_iff.mp hi).choose

theorem Represents.pointer (h : Represents l xs) (hi : (refs xs)[i]? = some r) : l.pointer r = some (itemAt xs i) := by
  have hl := refs_lt hi
  cases i with
  | zero   =>
    cases hi
    exact h.pre.left
  | succ i =>
    rcases Nat.lt_or_ge i xs.length with hx | hx
    · rw [refs_element hx] at hi
      cases hi
      exact (h.element _ _).mpr ⟨xs[i].2, itemAt_succ hx, List.getElem_mem hx⟩
    · have hi' : i = xs.length := by omega
      rw [hi', refs_last] at hi
      cases hi
      rw [itemAt, if_neg (Nat.succ_ne_zero i), Nat.add_sub_cancel, List.getElem?_eq_none hx]
      exact h.post.left

theorem Represents.previous (h : Represents l xs) (hi : (refs xs)[i]? = some r) :
    ∃ r', l.previous r = some r' ∧ (refs xs)[i - 1]? = some r' := by
  cases i with
  | zero   =>
    cases hi
    exact ⟨.pre, h.pre.right, rfl⟩
  | succ i =>
    have ⟨r', hr⟩ := exists_ref (Nat.lt_of_succ_lt (refs_lt hi))
    exact ⟨r', (h.linked.adjacent hr hi).right, hr⟩

theorem Represents.next (h : Represents l xs) (hi : (refs xs)[i]? = some r) :
    ∃ r', l.next r = some r' ∧ (refs xs)[min (i + 1) (xs.length + 1)]? = some r' := by
  have hl := refs_lt hi
  rcases Nat.lt_or_ge i (xs.length + 1) with hx | hx
  · have ⟨r', hr⟩ : ∃ r', (refs xs)[i + 1]? = some r' := exists_ref (by omega)
    rw [Nat.min_eq_left (by omega)]
    exact ⟨r', (h.linked.adjacent hi hr).left, hr⟩
  · have hi' : i = xs.length + 1 := by omega
    rw [hi', refs_last] at hi
    cases hi
    rw [Nat.min_eq_right (by omega)]
    exact ⟨.post, h.post.right, refs_last xs⟩

-- What is read at a place of the list.
theorem Represents.load (h : Represents l xs) (hi : (refs xs)[i]? = some r) :
    ∃ e, l.memory r = some e ∧ l.load r = .ok e ∧ e.pointer = itemAt xs i ∧ (refs xs)[i - 1]? = some e.previous ∧
      (refs xs)[min (i + 1) (xs.length + 1)]? = some e.next := by
  have ⟨e, he, hp⟩ := Option.map_eq_some_iff.mp (h.pointer hi)
  have ⟨r₁, hr₁, hb⟩ := h.previous hi
  have ⟨r₂, hr₂, hn⟩ := h.next hi
  rw [GenericList.previous, he] at hr₁
  rw [GenericList.next, he] at hr₂
  cases hr₁
  cases hr₂
  exact ⟨e, he, by rw [GenericList.load, he]; rfl, hp, hb, hn⟩

-- What the functions write.

theorem memory_store (l : GenericList P) (r : Ref) (e : GenericListElement P) (r' : Ref) :
    (l.store r e).memory r' = if r' = r then some e else l.memory r' :=
  Function.update_apply ..

theorem setNext_eq (hm : l.memory r = some e) (r' : Ref) : l.setNext r r' = .ok (l.store r { e with next := r' }) := by
  rw [setNext, GenericList.load, hm]
  rfl

theorem setPrevious_eq (hm : l.memory r = some e) (r' : Ref) :
    l.setPrevious r r' = .ok (l.store r { e with previous := r' }) := by
  rw [setPrevious, GenericList.load, hm]
  rfl

theorem free_element (hm : l.memory (.element a) = some e) :
    l.free (.element a) =
      .ok { l with memory := Function.update l.memory (.element a) none, allocated := l.allocated - 1 } := by
  rw [free, GenericList.load, hm]
  rfl

-- What stands in a memory where nothing is written but links.
structure Relinked (l l' : GenericList P) : Prop where
  current : l'.current = l.current
  deleted : l'.memory .deleted = l.memory .deleted

theorem not_mem_refs_deleted (xs : List (ℕ × P)) : Ref.deleted ∉ refs xs := by
  simp [refs]

theorem mem_refs_element (hp : (a, p) ∈ xs) : Ref.element a ∈ refs xs :=
  List.mem_append_left _ (List.mem_cons_of_mem _ (List.mem_map_of_mem hp))

theorem mem_refs (hi : (refs xs)[i]? = some r) : r ∈ refs xs :=
  List.mem_of_getElem? hi

theorem Represents.memory_ne (h : Represents l xs) (hi : (refs xs)[i]? = some r) (hm : l.memory r' = none) : r ≠ r' := by
  intro he
  have ⟨e, hr, _⟩ := h.load hi
  rw [he, hm] at hr
  cases hr

theorem Represents.ref_ne (h : Represents l xs) (hi : (refs xs)[i]? = some r) (hk : (refs xs)[k]? = some r') (hn : i ≠ k) :
    r ≠ r' := by
  rintro rfl
  exact hn ((List.getElem?_inj (refs_length xs ▸ refs_lt hi) h.linked.nodup).mp (hi.trans hk.symm))

theorem add_eq {e' : GenericListElement P} (hm : l.memory (.element a) = none) (he : l.memory r = some e)
    (he' : l.memory r' = some e') (hrr : r ≠ r') (hr : r ≠ .element a) (hr' : r' ≠ .element a) :
    ∃ l', l.add r r' p a = .ok l' ∧ l'.current = l.current ∧ l'.allocated = l.allocated + 1 ∧
      l'.numOfElements = l.numOfElements + 1 ∧ ∀ q, l'.memory q = if q = r then some { e with next := .element a }
        else if q = r' then some { e' with previous := .element a }
        else if q = .element a then some ⟨some p, r, r'⟩
        else l.memory q := by
  let l₁ : GenericList P := { l.store (.element a) ⟨some p, r, r'⟩ with allocated := l.allocated + 1 }
  let l₂ := l₁.store r' { e' with previous := .element a }
  let l₃ := l₂.store r { e with next := .element a }
  have hm₁ (q : Ref) : l₁.memory q = if q = .element a then some ⟨some p, r, r'⟩ else l.memory q :=
    memory_store l (.element a) _ q
  have h₁ : l₁.memory r' = some e' := by
    rw [hm₁, if_neg hr', he']
  have h₂ : l₂.memory r = some e := by
    rw [memory_store, if_neg hrr, hm₁, if_neg hr, he]
  refine ⟨{ l₃ with numOfElements := l.numOfElements + 1 }, ?_, rfl, rfl, rfl, fun q => ?_⟩
  · have hn : l.new a ⟨some p, r, r'⟩ = .ok l₁ := by
      rw [new, hm]
      rfl
    have hp : l₁.setPrevious r' (.element a) = .ok l₂ := setPrevious_eq h₁ _
    have hn' : l₂.setNext r (.element a) = .ok l₃ := setNext_eq h₂ _
    simp only [GenericList.add, hn, hp, hn', bind, Except.bind, pure, Except.pure]
    rfl
  · show l₃.memory q = _
    rw [memory_store, memory_store, hm₁]

-- A new element between the places `i` and `i + 1`.
theorem Represents.add (h : Represents l xs) (hi : (refs xs)[i]? = some r) (hj : (refs xs)[i + 1]? = some r')
    (p : P) (a : ℕ) :
    l.add r r' p a = .error .taken ∧ l.memory (.element a) ≠ none ∨
    ∃ l', l.add r r' p a = .ok l' ∧ Represents l' (xs.insertIdx i (a, p)) ∧ Relinked l l' := by
  by_cases hm : l.memory (.element a) = none
  case neg =>
    refine .inl ⟨?_, hm⟩
    rw [GenericList.add, new, if_neg (by simpa using hm)]
    rfl
  case pos =>
    have ⟨e, he, _, hep, _⟩ := h.load hi
    have ⟨e', he', _, hep', _⟩ := h.load hj
    have hra := h.memory_ne hi hm
    have hra' := h.memory_ne hj hm
    have hrr := h.ref_ne hi hj (Nat.ne_of_lt (Nat.lt_succ_self i))
    have hx : i ≤ xs.length := by
      have := refs_lt hj
      omega
    have ⟨l', hl, hc, hs, hn', hm'⟩ := add_eq (p := p) hm he he' hrr hra hra'
    have hd : Ref.deleted ≠ r ∧ Ref.deleted ≠ r' :=
      ⟨fun h => not_mem_refs_deleted xs (h ▸ mem_refs hi), fun h => not_mem_refs_deleted xs (h ▸ mem_refs hj)⟩
    have hp (q : Ref) : l'.pointer q = if q = .element a then some (some p) else l.pointer q := by
      rw [GenericList.pointer, hm', GenericList.pointer]
      grind
    have hn (q : Ref) : l'.next q = if q = r then some (.element a) else if q = .element a then some r' else l.next q := by
      rw [GenericList.next, hm', GenericList.next]
      grind
    have hb (q : Ref) :
        l'.previous q = if q = r' then some (.element a) else if q = .element a then some r else l.previous q := by
      rw [GenericList.previous, hm', GenericList.previous]
      grind
    have hpre : Ref.pre ≠ r' := h.ref_ne (refs_zero xs) hj (Nat.succ_ne_zero i).symm
    have hpost : Ref.post ≠ r := h.ref_ne (refs_last xs) hi (by omega)
    have hea : Ref.element a ∉ refs xs := fun hr =>
      have ⟨k, hk⟩ := List.getElem?_of_mem hr
      h.memory_ne hk hm rfl
    refine .inr ⟨l', hl, ⟨?linked, ?pre, ?post, ?deleted, fun b o => ?element, ?size, ?count⟩, hc, ?same⟩
    case linked  =>
      rw [refs_insertIdx hx]
      exact h.linked.insertIdx hi hj hea (fun q hq hqe => by rw [hn, if_neg hq, if_neg hqe]) (by rw [hn, if_pos rfl])
        (by rw [hn, if_neg hra.symm, if_pos rfl]) (fun q hq hqe => by rw [hb, if_neg hq, if_neg hqe])
        (by rw [hb, if_pos rfl]) (by rw [hb, if_neg hra'.symm, if_pos rfl])
    case pre     =>
      rw [hp, if_neg nofun, hb, if_neg hpre, if_neg nofun]
      exact h.pre
    case post    =>
      rw [hp, if_neg nofun, hn, if_neg hpost, if_neg nofun]
      exact h.post
    case deleted =>
      rw [hp, if_neg nofun]
      exact h.deleted
    case element =>
      rw [hp]
      by_cases hba : b = a
      · have hna (q : P) : (a, q) ∉ xs := fun hq => hea (mem_refs_element hq)
        simp only [hba, if_true, Option.some_inj, List.mem_insertIdx hx, Prod.mk.injEq, true_and, hna, or_false]
        exact ⟨fun ho => ⟨p, ho.symm, rfl⟩, fun ⟨q, ho, hq⟩ => hq ▸ ho.symm⟩
      · rw [if_neg fun he => hba (Ref.element.inj he), h.element]
        simp only [List.mem_insertIdx hx, Prod.mk.injEq, hba, false_and, false_or]
    case size    => rw [hs, h.size, List.length_insertIdx_of_le_length hx]
    case count   => rw [hn', h.count, List.length_insertIdx_of_le_length hx, UInt32.ofNat_add, UInt32.ofNat_one]
    case same    => rw [hm', if_neg hd.left, if_neg hd.right, if_neg nofun]

theorem unlink_eq {e₁ e₂ : GenericListElement P} (h₁ : l.memory r = some e₁) (h₂ : l.memory r' = some e₂)
    (he : l.memory (.element a) = some e) (hrr : r ≠ r') (hr : r ≠ .element a) (hr' : r' ≠ .element a) :
    ∃ l', l.unlink r r' (.element a) = .ok l' ∧ l'.current = l.current ∧ l'.allocated = l.allocated - 1 ∧
      l'.numOfElements = l.numOfElements - 1 ∧ ∀ q, l'.memory q = if q = .element a then none
        else if q = r' then some { e₂ with previous := r }
        else if q = r then some { e₁ with next := r' }
        else l.memory q := by
  let l₁ := l.store r { e₁ with next := r' }
  let l₂ := l₁.store r' { e₂ with previous := r }
  let l₃ : GenericList P :=
    { l₂ with memory := Function.update l₂.memory (.element a) none, allocated := l₂.allocated - 1 }
  have hm₁ : l₁.memory r' = some e₂ := by
    rw [memory_store, if_neg hrr.symm, h₂]
  have hm₂ : l₂.memory (.element a) = some e := by
    rw [memory_store, if_neg hr'.symm, memory_store, if_neg hr.symm, he]
  refine ⟨{ l₃ with numOfElements := l.numOfElements - 1 }, ?_, rfl, rfl, rfl, fun q => ?_⟩
  · have hn : l.setNext r r' = .ok l₁ := setNext_eq h₁ _
    have hp : l₁.setPrevious r' r = .ok l₂ := setPrevious_eq hm₁ _
    have hf : l₂.free (.element a) = .ok l₃ := free_element hm₂
    simp only [GenericList.unlink, hn, hp, hf, bind, Except.bind, pure, Except.pure]
    rfl
  · show Function.update l₂.memory (.element a) none q = _
    rw [Function.update_apply, memory_store, memory_store]

theorem refs_getElem? {x : ℕ × P} (hi : xs[i]? = some x) : (refs xs)[i + 1]? = some (.element x.1) := by
  have ⟨hl, hx⟩ := List.getElem?_eq_some_iff.mp hi
  rw [refs_element hl, hx]

theorem Represents.not_mem_eraseIdx (h : Represents l xs) (ha : (refs xs)[i + 1]? = some (.element a)) (q : P) :
    (a, q) ∉ xs.eraseIdx i := by
  intro hq
  have ⟨j, hj, hx⟩ := List.mem_eraseIdx_iff_getElem?.mp hq
  exact h.ref_ne (refs_getElem? hx) ha (fun he => hj (Nat.succ.inj he)) rfl

-- The element behind the place `i` is taken out.
theorem Represents.unlink (h : Represents l xs) (hi : (refs xs)[i]? = some r)
    (ha : (refs xs)[i + 1]? = some (.element a)) (hj : (refs xs)[i + 2]? = some r') :
    ∃ l', l.unlink r r' (.element a) = .ok l' ∧ Represents l' (xs.eraseIdx i) ∧ Relinked l l' := by
  have ⟨e₁, h₁, _⟩ := h.load hi
  have ⟨e₂, h₂, _⟩ := h.load hj
  have ⟨e, he, _⟩ := h.load ha
  have hrr := h.ref_ne hi hj (by omega)
  have hr := h.ref_ne hi ha (by omega)
  have hr' := h.ref_ne hj ha (by omega)
  have hx : i < xs.length := by
    have := refs_lt hj
    omega
  have ⟨l', hl, hc, hs, hn', hm⟩ := unlink_eq h₁ h₂ he hrr hr hr'
  have hd : Ref.deleted ≠ r ∧ Ref.deleted ≠ r' :=
    ⟨fun h => not_mem_refs_deleted xs (h ▸ mem_refs hi), fun h => not_mem_refs_deleted xs (h ▸ mem_refs hj)⟩
  have hp (q : Ref) : l'.pointer q = if q = .element a then none else l.pointer q := by
    rw [GenericList.pointer, hm, GenericList.pointer]
    grind
  have hn (q : Ref) : q ≠ .element a → l'.next q = if q = r then some r' else l.next q := by
    rw [GenericList.next, hm, GenericList.next]
    grind
  have hb (q : Ref) : q ≠ .element a → l'.previous q = if q = r' then some r else l.previous q := by
    rw [GenericList.previous, hm, GenericList.previous]
    grind
  have hpre : Ref.pre ≠ r' := h.ref_ne (refs_zero xs) hj (by omega)
  have hpost : Ref.post ≠ r := h.ref_ne (refs_last xs) hi (by omega)
  refine ⟨l', hl, ⟨?linked, ?pre, ?post, ?deleted, fun b o => ?element, ?size, ?count⟩, hc, ?same⟩
  case linked  =>
    rw [refs_eraseIdx hx]
    exact h.linked.eraseIdx hi ha hj (fun q hq hqe => by rw [hn q hqe, if_neg hq]) (by rw [hn r hr, if_pos rfl])
      (fun q hq hqe => by rw [hb q hqe, if_neg hq]) (by rw [hb r' hr', if_pos rfl])
  case pre     =>
    rw [hp, if_neg nofun, hb .pre nofun, if_neg hpre]
    exact h.pre
  case post    =>
    rw [hp, if_neg nofun, hn .post nofun, if_neg hpost]
    exact h.post
  case deleted =>
    rw [hp, if_neg nofun]
    exact h.deleted
  case element =>
    rw [hp]
    by_cases hba : b = a
    · rw [hba, if_pos rfl]
      refine ⟨nofun, fun ⟨q, _, hq⟩ => ?_⟩
      exact absurd hq (h.not_mem_eraseIdx ha q)
    · rw [if_neg fun he => hba (Ref.element.inj he), h.element]
      refine exists_congr fun q => and_congr_right fun _ => ⟨fun hq => ?_, List.mem_of_mem_eraseIdx⟩
      have ⟨j, hj⟩ := List.getElem?_of_mem hq
      refine List.mem_eraseIdx_iff_getElem?.mpr ⟨j, fun hji => hba ?_, hj⟩
      rw [hji] at hj
      rw [refs_getElem? hj] at ha
      exact Ref.element.inj (Option.some.inj ha)
  case size    => rw [hs, h.size, List.length_eraseIdx_of_lt hx]
  case count   => rw [hn', h.count, List.length_eraseIdx_of_lt hx, UInt32.ofNat_sub (by omega), UInt32.ofNat_one]
  case same    => rw [hm, if_neg nofun, if_neg hd.right, if_neg hd.left]

-- Where the cursor stands in the end.

theorem refs_up (hk : k ≤ xs.length) (x : ℕ × P) (hi : (refs xs)[i]? = some r) :
    (refs (xs.insertIdx k x))[up (k + 1) i]? = some r := by
  rw [refs_insertIdx hk, up]
  split
  case isTrue h  => rwa [List.getElem?_insertIdx_of_lt h]
  case isFalse h => rwa [List.getElem?_insertIdx_of_gt (by omega), Nat.add_sub_cancel]

theorem refs_down (hk : k < xs.length) (hi : (refs xs)[i]? = some r) (hn : i ≠ k + 1) :
    (refs (xs.eraseIdx k))[down (k + 1) i]? = some r := by
  rw [refs_eraseIdx hk, down]
  split
  case isTrue h  => rwa [List.getElem?_eraseIdx_of_lt h]
  case isFalse h =>
    have hi' : i - 1 + 1 = i := by omega
    rwa [List.getElem?_eraseIdx_of_ge (by omega), hi']

theorem Relinked.links (hr : Relinked l l') :
    l'.previous .deleted = l.previous .deleted ∧ l'.next .deleted = l.next .deleted := by
  rw [GenericList.previous, GenericList.next, hr.deleted]
  exact ⟨rfl, rfl⟩

theorem On.insert (h : On l xs c) (hr : Relinked l l') (hk : k ≤ xs.length) (x : ℕ × P) :
    On l' (xs.insertIdx k x) (c.insert (k + 1)) := by
  cases c with
  | place i =>
    rw [Cursor.insert, On, hr.current]
    exact refs_up hk x h
  | gap i j =>
    obtain ⟨hc, r, r', hp, hn, hi, hj⟩ := h
    exact ⟨hr.current.trans hc, r, r', hr.links.left.trans hp, hr.links.right.trans hn, refs_up hk x hi, refs_up hk x hj⟩
  | lost    => trivial

theorem On.erase {onto : Cursor} (h : On l xs c) (hr : Relinked l l') (hk : k < xs.length)
    (ho : c = .place (k + 1) → On l' (xs.eraseIdx k) onto) : On l' (xs.eraseIdx k) (c.erase (k + 1) onto) := by
  cases c with
  | place i =>
    rw [Cursor.erase]
    split
    case isTrue hi  => exact ho (hi ▸ rfl)
    case isFalse hi =>
      rw [On, hr.current]
      exact refs_down hk h hi
  | gap i j =>
    obtain ⟨hc, r, r', hp, hn, hi, hj⟩ := h
    rw [Cursor.erase]
    split
    case isTrue     => trivial
    case isFalse hk' =>
      obtain ⟨hki, hkj⟩ := not_or.mp hk'
      exact ⟨hr.current.trans hc, r, r', hr.links.left.trans hp, hr.links.right.trans hn, refs_down hk hi hki,
        refs_down hk hj hkj⟩
  | lost    => trivial

-- A list with a cursor, and what it stands for.
def Shows (l : GenericList P) (s : State P) : Prop :=
  ∃ xs, Represents l xs ∧ xs.map (·.2) = s.items ∧ On l xs s.cursor

theorem shows_initializeList : Shows (initializeList : GenericList P) { items := [] } := by
  refine ⟨[], ⟨⟨?_, by simp [refs]⟩, ⟨rfl, rfl⟩, ⟨rfl, rfl⟩, rfl, fun a o => ⟨nofun, nofun⟩, rfl, rfl⟩, rfl, rfl⟩
  exact List.isChain_pair.mpr ⟨rfl, rfl⟩

variable {s s' : State P} {o : Option P}

theorem itemAt_eq (hs : xs.map (·.2) = s.items) (i : ℕ) : itemAt xs i = s.item i := by
  rw [itemAt, State.item, ← hs, List.getElem?_map]

theorem length_eq (hs : xs.map (·.2) = s.items) : xs.length = s.items.length := by
  rw [← hs, List.length_map]

-- The cursor goes to a place of the list.
theorem Represents.goto (h : Represents l xs) (hs : xs.map (·.2) = s.items) (hi : (refs xs)[i]? = some r) :
    ∃ l', l.goto r = .ok ((s.goto i).1, l') ∧ Shows l' (s.goto i).2 := by
  have ⟨e, _, he, hp, _⟩ := h.load hi
  refine ⟨{ l with current := r }, ?_, xs, ⟨h.linked, h.pre, h.post, h.deleted, h.element, h.size, h.count⟩, hs, hi⟩
  rw [GenericList.goto, he, State.goto, ← itemAt_eq hs, ← hp]
  rfl

theorem Shows.next (h : Shows l s) {t : Option P × State P} (ht : s.next = some t) :
    ∃ l', l.nextInList = .ok (t.1, l') ∧ Shows l' t.2 := by
  obtain ⟨xs, hr, hs, hc⟩ := h
  rw [State.next] at ht
  split at ht
  case h_1 i hi   =>
    rw [hi] at hc
    obtain ⟨e, _, he, _, _, hn⟩ := hr.load hc
    rw [length_eq hs] at hn
    cases ht
    rw [nextInList, he]
    exact hr.goto hs hn
  case h_2 j i hi =>
    rw [hi] at hc
    obtain ⟨hc, r, r', _, hn, _, hj⟩ := hc
    obtain ⟨e, he, hr'⟩ := Option.map_eq_some_iff.mp hn
    cases ht
    rw [nextInList, GenericList.load, hc, he]
    exact hr.goto hs (hr' ▸ hj)
  case h_3        => cases ht

theorem Shows.previous (h : Shows l s) {t : Option P × State P} (ht : s.previous = some t) :
    ∃ l', l.previousInList = .ok (t.1, l') ∧ Shows l' t.2 := by
  have ⟨xs, hr, hs, hc⟩ := h
  rw [State.previous] at ht
  split at ht
  case h_1 i hi   =>
    rw [hi] at hc
    have ⟨e, _, he, _, hp, _⟩ := hr.load hc
    cases ht
    rw [previousInList, he]
    exact hr.goto hs hp
  case h_2 i j hi =>
    rw [hi] at hc
    have ⟨hc, r, r', hp, _, hi, _⟩ := hc
    have ⟨e, he, hr'⟩ := Option.map_eq_some_iff.mp hp
    cases ht
    rw [previousInList, GenericList.load, hc, he]
    exact hr.goto hs (hr' ▸ hi)
  case h_3        => cases ht

-- What stands under the cursor.
theorem Shows.load_current (h : Shows l s) (hl : s.cursor ≠ .lost) :
    ∃ e, l.load l.current = .ok e ∧ e.pointer = s.here := by
  have ⟨xs, hr, hs, hc⟩ := h
  rw [State.here]
  split
  case h_1 i hi =>
    rw [hi] at hc
    have ⟨e, _, he, hp, _⟩ := hr.load hc
    exact ⟨e, he, hp.trans (itemAt_eq hs i)⟩
  case h_2 hn   =>
    cases hi : s.cursor with
    | place i => exact absurd hi (hn i)
    | gap i j =>
      rw [hi] at hc
      have ⟨e, he, hp⟩ := Option.map_eq_some_iff.mp hr.deleted
      exact ⟨e, by rw [GenericList.load, hc.left, he]; rfl, hp⟩
    | lost    => exact absurd hi hl

theorem Shows.current (h : Shows l s) {t : Option P × State P} (ht : s.current = some t) :
    ∃ l', l.currentInList = .ok (t.1, l') ∧ Shows l' t.2 := by
  have hl : s.cursor ≠ .lost := by
    intro hl
    rw [State.current, hl] at ht
    cases ht
  have ⟨e, he, hp⟩ := h.load_current hl
  have ht : t = (s.here, s) := by
    rw [State.current] at ht
    split at ht
    · cases ht
    · exact (Option.some.inj ht).symm
  refine ⟨l, ?_, ht ▸ h⟩
  rw [currentInList, he, ht, ← hp]
  rfl

-- The place of the first and of the last element, and of what is in front of or behind an empty list.

theorem Shows.first (h : Shows l s) :
    ∃ l', ({ l with current := .pre } : GenericList P).firstInList = .ok (s.first.1, l') ∧ Shows l' s.first.2 := by
  have ⟨xs, hr, hs, _⟩ := h
  have hr' : Represents { l with current := .pre } xs := ⟨hr.linked, hr.pre, hr.post, hr.deleted, hr.element, hr.size, hr.count⟩
  have ⟨e₀, _, h₀, _, _, hn₀⟩ := hr'.load (refs_zero xs)
  have ⟨e₁, _, h₁, _, _, hn₁⟩ := hr'.load hn₀
  have ⟨e₂, _, h₂, _, hp₂, _⟩ := hr'.load hn₁
  have hi : min (min (0 + 1) (xs.length + 1) + 1) (xs.length + 1) - 1 = min s.items.length 1 := by
    rw [length_eq hs]
    omega
  rw [firstInList, h₀]
  simp only [bind, Except.bind, h₁, h₂]
  exact hr'.goto hs (hi ▸ hp₂)

theorem Shows.last (h : Shows l s) : ∃ l', l.lastInList = .ok (s.last.1, l') ∧ Shows l' s.last.2 := by
  have ⟨xs, hr, hs, _⟩ := h
  have ⟨e₀, _, h₀, _, hp₀, _⟩ := hr.load (refs_last xs)
  have ⟨e₁, _, h₁, _, hp₁, _⟩ := hr.load hp₀
  have ⟨e₂, _, h₂, _, _, hn₂⟩ := hr.load hp₁
  have hi : min (xs.length + 1 - 1 - 1 + 1) (xs.length + 1) = max s.items.length 1 := by
    rw [length_eq hs]
    omega
  rw [lastInList, h₀]
  simp only [bind, Except.bind, h₁, h₂]
  exact hr.goto hs (hi ▸ hn₂)

-- New elements.

theorem Shows.prepend (h : Shows l s) (p : P) (a : ℕ) :
    l.addToBeginning (some p) a = .error .taken ∨ ∃ l', l.addToBeginning (some p) a = .ok l' ∧ Shows l' (s.prepend p) := by
  have ⟨xs, hr, hs, hc⟩ := h
  have ⟨e, _, he, _, _, hn⟩ := hr.load (refs_zero xs)
  have hi : min (0 + 1) (xs.length + 1) = 0 + 1 := by omega
  rw [hi] at hn
  have hl : l.addToBeginning (some p) a = l.add .pre e.next p a := by
    rw [addToBeginning, he]
    rfl
  rw [hl]
  refine (hr.add (refs_zero xs) hn p a).imp And.left fun ⟨l', hl, hr', hm⟩ => ⟨l', hl, _, hr', ?_, ?_⟩
  · rw [List.insertIdx_zero, List.map_cons, hs, State.prepend]
  · exact hc.insert hm (Nat.zero_le _) _

theorem Shows.append (h : Shows l s) (p : P) (a : ℕ) :
    l.addToEnd (some p) a = .error .taken ∨ ∃ l', l.addToEnd (some p) a = .ok l' ∧ Shows l' (s.append p) := by
  have ⟨xs, hr, hs, hc⟩ := h
  have ⟨e, _, he, _, hp, _⟩ := hr.load (refs_last xs)
  have hl : l.addToEnd (some p) a = l.add e.previous .post p a := by
    rw [addToEnd, he]
    rfl
  rw [hl]
  refine (hr.add hp (refs_last xs) p a).imp And.left fun ⟨l', hl, hr', hm⟩ => ⟨l', hl, _, hr', ?_, ?_⟩
  · rw [Nat.add_sub_cancel, List.insertIdx_length_self, List.map_append, hs, State.append]
    rfl
  · have := hc.insert hm (Nat.le_refl _) (a, p)
    rwa [length_eq hs] at this ⊢

-- Elements that are taken out.

-- The cursor is taken from an element, where it was on it, before this is taken out.
theorem Represents.on_erase {l₁ : GenericList P} {onto : Cursor} (h : Represents l xs) (hc : On l xs c)
    (ha : (refs xs)[k + 1]? = some r) (hk : k < xs.length) (hn : l.current ≠ r → l₁ = l) (hr : Relinked l₁ l')
    (ho : l.current = r → On l' (xs.eraseIdx k) onto) : On l' (xs.eraseIdx k) (c.erase (k + 1) onto) := by
  by_cases hl : l.current = r
  · cases c with
    | place i =>
      rw [Cursor.erase]
      split
      case isTrue     => exact ho hl
      case isFalse hi => exact absurd hl (h.ref_ne hc ha hi)
    | gap i j => exact absurd (hc.left ▸ hl ▸ mem_refs ha) (not_mem_refs_deleted xs)
    | lost    => trivial
  · have hl₁ := hn hl
    subst hl₁
    refine hc.erase hr hk fun he => ?_
    rw [he] at hc
    exact absurd (Option.some.inj (hc.symm.trans ha)) hl

theorem Represents.current (h : Represents l xs) (r : Ref) : Represents { l with current := r } xs :=
  ⟨h.linked, h.pre, h.post, h.deleted, h.element, h.size, h.count⟩

theorem Represents.leave (h : Represents l xs) (e : GenericListElement P) :
    ∃ l₁, l.leave e = .ok l₁ ∧ Represents l₁ xs ∧ l₁.current = .deleted ∧ l₁.previous .deleted = some e.previous ∧
      l₁.next .deleted = some e.next := by
  have ⟨d, hd, hp⟩ := Option.map_eq_some_iff.mp h.deleted
  let l₁ := l.store .deleted { d with previous := e.previous }
  let l₂ := l₁.store .deleted { d with previous := e.previous, next := e.next }
  have hm₁ : l₁.memory .deleted = some { d with previous := e.previous } := by
    rw [memory_store, if_pos rfl]
  have hm (q : Ref) : l₂.memory q = if q = .deleted then some { d with previous := e.previous, next := e.next } else l.memory q := by
    rw [memory_store, memory_store]
    grind
  have hl : l.leave e = .ok { l₂ with current := .deleted } := by
    have hb : l.setPrevious .deleted e.previous = .ok l₁ := setPrevious_eq hd _
    have hn : l₁.setNext .deleted e.next = .ok l₂ := setNext_eq hm₁ _
    simp only [GenericList.leave, hb, hn, bind, Except.bind, pure, Except.pure]
  have hpointer (q : Ref) : l₂.pointer q = l.pointer q := by
    rw [GenericList.pointer, hm, GenericList.pointer]
    grind
  have hnext (q : Ref) (hq : q ≠ .deleted) : l₂.next q = l.next q := by
    rw [GenericList.next, hm, if_neg hq, GenericList.next]
  have hprevious (q : Ref) (hq : q ≠ .deleted) : l₂.previous q = l.previous q := by
    rw [GenericList.previous, hm, if_neg hq, GenericList.previous]
  have hne : ∀ q ∈ refs xs, q ≠ .deleted := fun q hq he => not_mem_refs_deleted xs (he ▸ hq)
  have hr : Represents l₂ xs := {
    linked        := h.linked.congr (fun q hq => hnext q (hne q hq)) fun q hq => hprevious q (hne q hq)
    pre           := by
      rw [hpointer, hprevious .pre nofun]
      exact h.pre
    post          := by
      rw [hpointer, hnext .post nofun]
      exact h.post
    deleted       := (hpointer .deleted).trans h.deleted
    element a o   := by
      rw [hpointer]
      exact h.element a o
    size          := h.size
    count         := h.count }
  refine ⟨_, hl, hr.current .deleted, rfl, ?_, ?_⟩
  · show l₂.previous .deleted = _
    rw [GenericList.previous, hm, if_pos rfl]
    rfl
  · show l₂.next .deleted = _
    rw [GenericList.next, hm, if_pos rfl]
    rfl

theorem map_eraseIdx (hs : xs.map (·.2) = s.items) (k : ℕ) : (xs.eraseIdx k).map (·.2) = s.items.eraseIdx k := by
  rw [← List.eraseIdx_map, hs]

theorem Shows.allocated (h : Shows l s) : l.allocated = s.items.length := by
  have ⟨xs, hr, hs, _⟩ := h
  rw [hr.size, length_eq hs]

theorem Shows.count (h : Shows l s) : l.numOfElements = .ofNat s.items.length := by
  have ⟨xs, hr, hs, _⟩ := h
  rw [hr.count, length_eq hs]

theorem Shows.count_zero (h : Shows l s) : l.numOfElements = 0 ↔ s.items.length % 2 ^ 32 = 0 := by
  rw [h.count, ← UInt32.toNat_inj, UInt32.toNat_ofNat', UInt32.toNat_zero]

-- What is said of the number of the elements.
theorem Shows.listSize (h : Shows l s) : l.listSize = size_t (int s.items.length) := by
  have hi : int (s.items.length % 2 ^ 32 : ℕ) = int s.items.length := by
    rw [int, int]
    omega
  rw [GenericList.listSize, numOfObjects, h.count, UInt32.toNat_ofNat', hi]

theorem Shows.isEmpty (h : Shows l s) : l.isEmpty = true ↔ s.items.length % 2 ^ 32 = 0 := by
  rw [GenericList.isEmpty, decide_eq_true_eq, h.count_zero]

-- Nothing is taken out of a list which counts no elements.
def counted (s : State P) (t : Option P × State P) : Option P × State P :=
  if s.items.length % 2 ^ 32 = 0 then (none, s) else t

theorem Shows.removeFirst (h : Shows l s) :
    ∃ l', l.removeFromBeginning = .ok ((counted s s.removeFirst).1, l') ∧ Shows l' (counted s s.removeFirst).2 := by
  have ⟨xs, hr, hs, hc⟩ := h
  rw [removeFromBeginning, counted]
  by_cases hn : s.items.length % 2 ^ 32 = 0
  · rw [if_pos (h.count_zero.mpr hn), if_pos hn]
    exact ⟨l, rfl, h⟩
  · have h0 : s.items.length ≠ 0 := fun he => hn ((congrArg (· % 2 ^ 32) he).trans (Nat.zero_mod _))
    rw [if_neg (mt h.count_zero.mp hn), if_neg hn, State.removeFirst, if_neg h0]
    have hx : 0 < xs.length := by
      rw [length_eq hs]
      omega
    have ⟨e, _, he, _, _, hi⟩ := hr.load (refs_zero xs)
    rw [show min (0 + 1) (xs.length + 1) = 0 + 1 by omega] at hi
    generalize hl₁ : (if e.next = l.current then ({ l with current := .pre } : GenericList P) else l) = l₁
    have hr₁ : Represents l₁ xs := by
      rw [← hl₁]
      split
      · exact hr.current .pre
      · exact hr
    have hel := refs_element hx
    have hea : e.next = .element (xs[0]).1 := Option.some.inj (hi.symm.trans hel)
    have ⟨e', _, he', hp, _, hj⟩ := hr₁.load hi
    rw [show min (0 + 1 + 1) (xs.length + 1) = 0 + 2 by omega] at hj
    have ⟨l', hl', hr', hm⟩ := hr₁.unlink (refs_zero xs) hel hj
    refine ⟨l', ?_, _, hr', map_eraseIdx hs 0, ?_⟩
    · simp only [he, bind, Except.bind, pure, Except.pure, hl₁, he', hea ▸ hl', hp, itemAt_eq hs]
    · refine hr.on_erase hc hi hx (fun hne => ?_) hm fun he => ?_
      · rw [← hl₁, if_neg hne.symm]
      · rw [On, hm.current, ← hl₁, if_pos he.symm]
        rfl

theorem Shows.removeLast (h : Shows l s) :
    ∃ l', l.removeFromEnd = .ok ((counted s s.removeLast).1, l') ∧ Shows l' (counted s s.removeLast).2 := by
  have ⟨xs, hr, hs, hc⟩ := h
  rw [removeFromEnd, counted]
  by_cases hn : s.items.length % 2 ^ 32 = 0
  · rw [if_pos (h.count_zero.mpr hn), if_pos hn]
    exact ⟨l, rfl, h⟩
  · have h0 : s.items.length ≠ 0 := fun he => hn ((congrArg (· % 2 ^ 32) he).trans (Nat.zero_mod _))
    rw [if_neg (mt h.count_zero.mp hn), if_neg hn, State.removeLast, if_neg h0]
    have ⟨n, hx⟩ : ∃ n, xs.length = n + 1 := ⟨xs.length - 1, by rw [length_eq hs]; omega⟩
    have hxn : n < xs.length := by omega
    have ⟨e, _, he, _, hi, _⟩ := hr.load (refs_last xs)
    rw [hx, Nat.add_sub_cancel] at hi
    generalize hl₁ : (if e.previous = l.current then ({ l with current := .post } : GenericList P) else l) = l₁
    have hr₁ : Represents l₁ xs := by
      rw [← hl₁]
      split
      · exact hr.current .post
      · exact hr
    have hel := refs_element hxn
    have hea : e.previous = .element (xs[n]).1 := Option.some.inj (hi.symm.trans hel)
    have ⟨e', _, he', hp, hj, _⟩ := hr₁.load hi
    have hlast := refs_last xs
    rw [hx] at hlast
    have ⟨l', hl', hr', hm⟩ := hr₁.unlink hj hel hlast
    have hk : s.items.length = n + 1 := by rw [← length_eq hs, hx]
    rw [hk]
    refine ⟨l', ?_, _, hr', map_eraseIdx hs n, ?_⟩
    · simp only [he, bind, Except.bind, pure, Except.pure, hl₁, he', hea ▸ hl', hp, itemAt_eq hs]
    · refine hr.on_erase hc hi hxn (fun hne => ?_) hm fun he => ?_
      · rw [← hl₁, if_neg hne.symm]
      · have hd := refs_down hxn hlast (by omega)
        rw [On, hm.current, ← hl₁, if_pos he.symm]
        rw [down, if_neg (by omega)] at hd
        exact hd

-- An element that the cursor may be on is taken out.
theorem Represents.takeOut (hr : Represents l xs) (hs : xs.map (·.2) = s.items) (hc : On l xs s.cursor)
    (hi : (refs xs)[k + 1]? = some r) (hk : k < xs.length) :
    ∃ e l₁ l', l.load r = .ok e ∧ (if r = l.current then l.leave e else .ok l) = .ok l₁ ∧
      l₁.unlink e.previous e.next r = .ok l' ∧ e.pointer = s.item (k + 1) ∧ Shows l' (s.erase (k + 1) (.gap k (k + 1))) := by
  have ⟨e, _, he, hp, hb, hn⟩ := hr.load hi
  have hel := refs_element hk
  have hea : r = .element (xs[k]).1 := Option.some.inj (hi.symm.trans hel)
  rw [Nat.min_eq_left (by omega)] at hn
  have ⟨l₂, hl₂, hr₂, hc₂, hp₂, hn₂⟩ := hr.leave e
  generalize hl₁ : (if r = l.current then l₂ else l) = l₁
  have hr₁ : Represents l₁ xs := by
    rw [← hl₁]
    split
    · exact hr₂
    · exact hr
  have ⟨l', hl', hr', hm⟩ := hr₁.unlink hb hel hn
  refine ⟨e, l₁, l', he, ?_, hea ▸ hl', hp.trans (itemAt_eq hs _), _, hr', map_eraseIdx hs k, ?_⟩
  · rw [← hl₁, hl₂]
    split <;> rfl
  · refine hr.on_erase hc hi hk (fun hne => ?_) hm fun he => ?_
    · rw [← hl₁, if_neg hne.symm]
    · have hl₁ : l₁ = l₂ := by rw [← hl₁, if_pos he.symm]
      subst hl₁
      have hb' := refs_down hk hb (by omega)
      have hn' := refs_down hk hn (by omega)
      rw [down, if_pos (by omega)] at hb'
      rw [down, if_neg (by omega)] at hn'
      exact ⟨hm.current.trans hc₂, _, _, hm.links.left.trans hp₂, hm.links.right.trans hn₂, hb', hn'⟩

theorem item_some (hi : (s.item i).isSome) : ∃ k, i = k + 1 ∧ k < s.items.length := by
  rw [State.item] at hi
  split at hi
  case isTrue     => cases hi
  case isFalse hn => exact ⟨i - 1, by omega, (List.getElem?_eq_some_iff.mp (Option.some_get hi).symm).choose⟩

theorem Shows.removeCurrent (h : Shows l s) {t : Option P × State P} (ht : s.removeCurrent = some t) :
    ∃ l', l.removeCurrent = .ok (t.1, l') ∧ Shows l' t.2 := by
  have hl : s.cursor ≠ .lost := by
    intro hl
    rw [State.removeCurrent, hl] at ht
    cases ht
  obtain ⟨e, he, hp⟩ := h.load_current hl
  rw [GenericList.removeCurrent, he]
  rw [State.here] at hp
  rw [State.removeCurrent] at ht
  cases hcur : s.cursor with
  | place i =>
    rw [hcur] at ht hp
    dsimp only at ht hp
    by_cases hi : (s.item i).isSome
    · obtain ⟨xs, hr, hs, hc⟩ := h
      obtain ⟨k, hik, hk⟩ := item_some hi
      rw [if_pos hi] at ht
      cases ht
      subst hik
      rw [← length_eq hs] at hk
      have hcp := hc
      rw [hcur] at hcp
      obtain ⟨e', l₁, l', he', hl₁, hl', hp', hs'⟩ := hr.takeOut hs hc hcp hk
      rw [if_pos rfl] at hl₁
      have hee : e' = e := Except.ok.inj (he'.symm.trans he)
      subst hee
      have hn : (s.item (k + 1)).isNone = false := Option.isNone_eq_false_iff.mpr hi
      refine ⟨l', ?_, hs'⟩
      simp only [bind, Except.bind, pure, Except.pure, hl₁, hl', hp, hn, Bool.false_eq_true, if_false]
    · rw [if_neg hi] at ht
      cases ht
      refine ⟨l, ?_, h⟩
      have hn : e.pointer.isNone = true := by
        rw [hp]
        simpa using hi
      simp only [bind, Except.bind, pure, Except.pure, hn]
      rfl
  | gap i j =>
    rw [hcur] at ht hp
    cases ht
    refine ⟨l, ?_, h⟩
    dsimp only at hp
    simp only [bind, Except.bind, pure, Except.pure, hp]
    rfl
  | lost    => exact absurd hcur hl

-- All the elements are taken out.

theorem Represents.ref_take (h : Represents l xs) (hi : (refs xs)[i]? = some r) (hk : k < i) :
    r ∉ (xs.take k).map fun x => Ref.element x.1 := by
  intro hm
  have ⟨x, hx, he⟩ := List.mem_map.mp hm
  have ⟨j, hj, hxj⟩ := List.mem_iff_getElem.mp hx
  rw [List.length_take] at hj
  rw [List.getElem_take] at hxj
  have hjx : j < xs.length := by omega
  exact h.ref_ne hi (refs_element hjx) (by omega) (hxj ▸ he.symm)

-- The loop of `removeAll`, where the first `k` elements are not allocated any more.
theorem Represents.freeAll (h : Represents l xs) (hk : k ≤ xs.length) (hi : (refs xs)[k + 1]? = some r)
    (hc : l'.current = l.current) (hs : l'.allocated = xs.length - k)
    (hm : ∀ q, l'.memory q = if q ∈ (xs.take k).map fun x => Ref.element x.1 then none else l.memory q)
    {n : ℕ} (ht : xs.length < k + n) :
    ∃ l₁, GenericList.freeAll n r l' = .ok l₁ ∧ l₁.current = l.current ∧ l₁.allocated = 0 ∧
      ∀ q, l₁.memory q = if q ∈ xs.map fun x => Ref.element x.1 then none else l.memory q := by
  induction n generalizing k r l' with
  | zero      => omega
  | succ n ih =>
    rw [GenericList.freeAll]
    rcases Nat.eq_or_lt_of_le hk with hx | hx
    · subst hx
      rw [refs_last] at hi
      cases hi
      rw [List.take_length] at hm
      exact ⟨l', if_pos rfl, hc, hs.trans (Nat.sub_self _), hm⟩
    · have hne : r ≠ .post := h.ref_ne hi (refs_last xs) (by omega)
      have ⟨e, he, _, _, _, hn⟩ := h.load hi
      rw [Nat.min_eq_left (by omega)] at hn
      have ⟨e', he', _, _, hp, _⟩ := h.load hn
      have hr : e'.previous = r := Option.some.inj (hp.symm.trans hi)
      have hel := refs_element hx
      have hea : r = .element (xs[k]).1 := Option.some.inj (hi.symm.trans hel)
      subst hea
      have h₁ : l'.memory (.element (xs[k]).1) = some e := by rw [hm, if_neg (h.ref_take hi (Nat.lt_succ_self k)), he]
      have h₂ : l'.memory e.next = some e' := by rw [hm, if_neg (h.ref_take hn (by omega)), he']
      let l₁ : GenericList P :=
        { l' with memory := Function.update l'.memory (.element (xs[k]).1) none, allocated := l'.allocated - 1 }
      have hf : l'.free (.element (xs[k]).1) = .ok l₁ := free_element h₁
      have hm₁ (q : Ref) : l₁.memory q = if q ∈ (xs.take (k + 1)).map fun x => Ref.element x.1 then none else l.memory q := by
        show Function.update l'.memory _ none q = _
        rw [Function.update_apply, hm, ← List.take_append_getElem hx, List.map_append]
        simp only [List.mem_append, List.map_cons, List.map_nil, List.mem_singleton]
        grind
      have hc₁ : l₁.current = l.current := hc
      have hs₁ : l₁.allocated = xs.length - (k + 1) := by
        show l'.allocated - 1 = _
        omega
      have ⟨l₂, hl, hc₂, hs₂, hm₂⟩ := ih hx hn hc₁ hs₁ hm₁ (by omega)
      refine ⟨l₂, ?_, hc₂, hs₂, hm₂⟩
      rw [if_neg hne, GenericList.load, h₁]
      simp only [Option.elim_some, bind, Except.bind, pure, Except.pure, GenericList.load, h₂, hr, hf, hl]

-- What all elements leave behind is an empty list, where the cursor stays.
theorem Represents.removeAll (h : Represents l xs) :
    ∃ l', l.removeAll = .ok l' ∧ Represents l' [] ∧ Relinked l l' := by
  have ⟨e, he, hl, hp, hb, hn⟩ := h.load (refs_zero xs)
  have ⟨e', he', _, hp', _, hn'⟩ := h.load (refs_last xs)
  rw [Nat.min_eq_left (by omega)] at hn
  have hm₀ (q : Ref) : l.memory q = if q ∈ (xs.take 0).map fun x => Ref.element x.1 then none else l.memory q := by
    rw [List.take_zero, List.map_nil, if_neg List.not_mem_nil]
  have hn₀ : xs.length < 0 + (l.allocated + 1) := by
    rw [h.size]
    omega
  have ⟨l₁, hf, hc, ha, hm⟩ := h.freeAll (Nat.zero_le _) hn rfl h.size hm₀ hn₀
  have hne (r : Ref) (hr : ∀ a, r ≠ .element a) : l₁.memory r = l.memory r := by
    rw [hm, if_neg]
    intro hx
    have ⟨x, _, he⟩ := List.mem_map.mp hx
    exact hr x.1 he.symm
  have he₁ : l₁.memory .pre = some e := (hne .pre nofun).trans he
  have he₁' : l₁.memory .post = some e' := (hne .post nofun).trans he'
  let l₂ := l₁.store .pre { e with next := .post }
  let l₃ := l₂.store .post { e' with previous := .pre }
  have hs : l₁.setNext .pre .post = .ok l₂ := setNext_eq he₁ _
  have hs' : l₂.setPrevious .post .pre = .ok l₃ := setPrevious_eq (by rw [memory_store, if_neg nofun, he₁']) _
  have hm₃ (q : Ref) : l₃.memory q = if q = .post then some { e' with previous := .pre }
      else if q = .pre then some { e with next := .post } else l₁.memory q := by
    rw [memory_store, memory_store]
  have hel (a : ℕ) : l₁.memory (.element a) = none := by
    rw [hm]
    split
    case isTrue     => rfl
    case isFalse hx =>
      rw [← Option.not_isSome_iff_eq_none, Option.isSome_iff_exists]
      rintro ⟨d, hd⟩
      have ⟨p, _, hp⟩ := (h.element a d.pointer).mp (by rw [GenericList.pointer, hd]; rfl)
      exact hx (List.mem_map_of_mem (f := fun x => Ref.element x.1) hp)
  have hnext (q : Ref) : l₃.next q = if q = .pre then some .post else l₁.next q := by
    rw [GenericList.next, hm₃, GenericList.next]
    grind
  have hprevious (q : Ref) : l₃.previous q = if q = .post then some .pre else l₁.previous q := by
    rw [GenericList.previous, hm₃, GenericList.previous]
    grind
  have hpointer (q : Ref) : l₃.pointer q = l₁.pointer q := by
    rw [GenericList.pointer, hm₃, GenericList.pointer]
    grind
  have hsame (q : Ref) (hq : ∀ a, q ≠ .element a) : l₁.pointer q = l.pointer q ∧ l₁.next q = l.next q ∧
      l₁.previous q = l.previous q := by
    rw [GenericList.pointer, GenericList.next, GenericList.previous, hne q hq]
    exact ⟨rfl, rfl, rfl⟩
  refine ⟨{ l₃ with numOfElements := 0 }, ?_, ⟨⟨List.isChain_pair.mpr ⟨?next, ?previous⟩, by simp [refs]⟩, ⟨?_, ?_⟩,
    ⟨?_, ?_⟩, ?_, fun a o => ⟨?element, nofun⟩, ha, rfl⟩, hc, ?_⟩
  · rw [GenericList.removeAll, hl]
    simp only [bind, Except.bind, pure, Except.pure, hf, hs, hs']
  case next     => exact (hnext _).trans (if_pos rfl)
  case previous => exact (hprevious _).trans (if_pos rfl)
  case element  =>
    intro ho
    have ho : l₁.pointer (.element a) = some o := (hpointer _).symm.trans ho
    rw [GenericList.pointer, hel] at ho
    cases ho
  · exact (hpointer _).trans ((hsame .pre nofun).left.trans h.pre.left)
  · exact (hprevious .pre).trans ((if_neg nofun).trans ((hsame .pre nofun).right.right.trans h.pre.right))
  · exact (hpointer _).trans ((hsame .post nofun).left.trans h.post.left)
  · exact (hnext .post).trans ((if_neg nofun).trans ((hsame .post nofun).right.left.trans h.post.right))
  · exact (hpointer _).trans ((hsame .deleted nofun).left.trans h.deleted)
  · show l₃.memory .deleted = _
    rw [hm₃, if_neg nofun, if_neg nofun, hne .deleted nofun]

theorem On.clear (h : On l xs c) (hr : Relinked l l') : On l' [] (c.clear xs.length) := by
  cases c with
  | place i =>
    rw [Cursor.clear]
    split
    case isTrue hi  =>
      subst hi
      rw [On, hr.current]
      exact h
    case isFalse hi =>
      split
      case isTrue hn  =>
        rw [On, hn, refs_last] at h
        rw [On, hr.current, ← h]
        rfl
      case isFalse    => trivial
  | gap i j =>
    rw [Cursor.clear]
    split
    case isTrue hij =>
      obtain ⟨hc, r, r', hp, hn, hi, hj⟩ := h
      rw [hij.left] at hi
      rw [hij.right, refs_last] at hj
      exact ⟨hr.current.trans hc, r, r', hr.links.left.trans hp, hr.links.right.trans hn, hi, hj⟩
    case isFalse    => trivial
  | lost    => trivial

theorem Shows.clear (h : Shows l s) : ∃ l', l.removeAll = .ok l' ∧ Shows l' s.clear := by
  have ⟨xs, hr, hs, hc⟩ := h
  have ⟨l', hl, hr', hm⟩ := hr.removeAll
  have hc' := hc.clear hm
  rw [length_eq hs] at hc'
  exact ⟨l', hl, [], hr', rfl, hc'⟩

theorem copyFrom_post (l copy : GenericList P) (as : List ℕ) : l.copyFrom as .post copy = .ok copy := by
  cases as <;> rfl

-- The copy has the same elements in the same order.
theorem Represents.copyFrom (h : Represents l xs) {copy : GenericList P} {ps : List P} (hi : (refs xs)[i + 1]? = some r)
    (hc : Shows copy ⟨ps, .place 0⟩) {as : List ℕ} (ha : xs.length ≤ i + as.length) :
    l.copyFrom as r copy = .error .taken ∨
      ∃ l', l.copyFrom as r copy = .ok l' ∧ Shows l' ⟨ps ++ (xs.drop i).map (·.2), .place 0⟩ := by
  induction as generalizing i r copy ps with
  | nil          =>
    have hl := refs_lt hi
    have hi' : i = xs.length := by
      rw [List.length_nil] at ha
      omega
    rw [hi', refs_last] at hi
    cases hi
    rw [copyFrom_post, hi', List.drop_length, List.map_nil, List.append_nil]
    exact .inr ⟨copy, rfl, hc⟩
  | cons a as ih =>
    rcases Nat.lt_or_ge i xs.length with hx | hx
    · have ⟨e, _, he, hp, _, hn⟩ := h.load hi
      have hne : r ≠ .post := h.ref_ne hi (refs_last xs) (by omega)
      rw [Nat.min_eq_left (by omega)] at hn
      rw [itemAt_succ hx] at hp
      rw [GenericList.copyFrom, if_neg hne, he]
      simp only [bind, Except.bind, hp]
      rcases hc.append (xs[i]).2 a with hl | ⟨l', hl, hs⟩
      · exact .inl (by rw [hl])
      · rw [List.length_cons] at ha
        rw [hl, List.drop_eq_getElem_cons hx, List.map_cons, List.append_cons]
        exact ih hn hs (by omega)
    · have hl := refs_lt hi
      have hi' : i = xs.length := by omega
      rw [hi', refs_last] at hi
      cases hi
      rw [copyFrom_post, hi', List.drop_length, List.map_nil, List.append_nil]
      exact .inr ⟨copy, rfl, hc⟩

theorem Shows.copyList (h : Shows l s) {as : List ℕ} (ha : s.items.length ≤ as.length) :
    l.copyList as = .error .taken ∨ ∃ l', l.copyList as = .ok l' ∧ Shows l' { items := s.items } := by
  have ⟨xs, hr, hs, _⟩ := h
  have ⟨e, _, he, _, _, hn⟩ := hr.load (refs_zero xs)
  rw [Nat.min_eq_left (by omega)] at hn
  rw [← length_eq hs, ← Nat.zero_add as.length] at ha
  have hc := hr.copyFrom hn shows_initializeList ha
  rw [List.drop_zero, hs, List.nil_append] at hc
  rw [GenericList.copyList, he]
  exact hc

-- What a call reads that goes to the element that is linked with the current one.

theorem goto_dangling : l.goto r = .error .dangling ↔ l.memory r = none := by
  rw [GenericList.goto, GenericList.load]
  cases l.memory r <;> simp [bind, Except.bind, pure, Except.pure, throw, throwThe, MonadExceptOf.throw]

theorem currentInList_dangling : l.currentInList = .error .dangling ↔ l.memory l.current = none := by
  rw [currentInList, GenericList.load]
  cases l.memory l.current <;> simp [bind, Except.bind, pure, Except.pure, throw, throwThe, MonadExceptOf.throw]

theorem nextInList_dangling : l.nextInList = .error .dangling ↔ ∀ r, l.next l.current = some r → l.memory r = none := by
  rw [nextInList, GenericList.load, GenericList.next]
  cases h : l.memory l.current with
  | none   => exact ⟨nofun, fun _ => rfl⟩
  | some e => exact goto_dangling.trans ⟨fun hn r hr => Option.some.inj hr ▸ hn, fun hn => hn _ rfl⟩

theorem previousInList_dangling :
    l.previousInList = .error .dangling ↔ ∀ r, l.previous l.current = some r → l.memory r = none := by
  rw [previousInList, GenericList.load, GenericList.previous]
  cases h : l.memory l.current with
  | none   => exact ⟨nofun, fun _ => rfl⟩
  | some e => exact goto_dangling.trans ⟨fun hn r hr => Option.some.inj hr ▸ hn, fun hn => hn _ rfl⟩

-- What is at a place when the list was cleared.
theorem Represents.cleared (h : Represents l xs) (h' : Represents l' []) (hi : (refs xs)[i]? = some r) :
    l'.memory r = none ↔ (itemAt xs i).isSome := by
  have hp := h.pointer hi
  cases r with
  | pre           =>
    have ⟨e, he, _⟩ := h'.load (refs_zero [])
    rw [he, ← Option.some.inj (h.pre.left.symm.trans hp)]
    exact ⟨nofun, nofun⟩
  | post          =>
    have ⟨e, he, _⟩ := h'.load (refs_last [])
    rw [he, ← Option.some.inj (h.post.left.symm.trans hp)]
    exact ⟨nofun, nofun⟩
  | deleted       => exact absurd (mem_refs hi) (not_mem_refs_deleted xs)
  | element a     =>
    have ⟨p, ho, _⟩ := (h.element a _).mp hp
    refine iff_of_true ?_ (ho ▸ rfl)
    rw [← Option.not_isSome_iff_eq_none, Option.isSome_iff_exists]
    rintro ⟨e, he⟩
    have ⟨_, _, hp⟩ := (h'.element a e.pointer).mp (by rw [GenericList.pointer, he]; rfl)
    cases hp
  | indeterminate =>
    have := mem_refs hi
    simp [refs] at this

theorem Represents.exists_cleared (h : Represents l xs) (h' : Represents l' []) (hi : (refs xs)[i]? = some r)
    (hn : ¬(itemAt xs i).isSome) :
    (∃ q, l'.next r = some q ∧ l'.memory q ≠ none) ∧ ∃ q, l'.previous r = some q ∧ l'.memory q ≠ none := by
  have hr : ∃ k : ℕ, (refs ([] : List (ℕ × P)))[k]? = some r := by
    have hm := mt (h.cleared h' hi).mp hn
    cases r with
    | pre           => exact ⟨0, rfl⟩
    | post          => exact ⟨1, rfl⟩
    | deleted       => exact absurd (mem_refs hi) (not_mem_refs_deleted xs)
    | element a     =>
      have ⟨p, ho, _⟩ := (h.element a _).mp (h.pointer hi)
      exact absurd (ho ▸ rfl) hn
    | indeterminate =>
      have := mem_refs hi
      simp [refs] at this
  have ⟨k, hk⟩ := hr
  have ⟨q, hq, hn⟩ := h'.next hk
  have ⟨q', hq', hp⟩ := h'.previous hk
  have ⟨_, he, _⟩ := h'.load hn
  have ⟨_, he', _⟩ := h'.load hp
  exact ⟨⟨q, hq, he ▸ nofun⟩, q', hq', he' ▸ nofun⟩

section

variable [DecidableEq P]

theorem lastIndex_concat (p q : P) (ps : List P) :
    State.lastIndex p (ps ++ [q]) = if q = p then some (ps.length + 1) else State.lastIndex p ps := by
  induction ps with
  | nil          => rfl
  | cons x ps hi =>
    rw [List.cons_append, State.lastIndex, hi, State.lastIndex]
    split <;> rfl

theorem lastIndex_some {ps : List P} (h : State.lastIndex p ps = some k) : ∃ i, k = i + 1 ∧ i < ps.length := by
  induction ps using List.reverseRecOn with
  | nil                  => cases h
  | append_singleton ps q hi =>
    rw [lastIndex_concat] at h
    rw [List.length_append, List.length_singleton]
    split at h
    case isTrue  =>
      cases h
      exact ⟨ps.length, rfl, Nat.lt_succ_self _⟩
    case isFalse =>
      have ⟨i, hk, hl⟩ := hi h
      exact ⟨i, hk, Nat.lt_succ_of_lt hl⟩

-- The loop of `removeFromList` from the place `i` on. A null pointer is found nowhere.
theorem Represents.findBackward (h : Represents l xs) (o : Option P) (hi : (refs xs)[i]? = some r) (hx : i ≤ xs.length)
    {n : ℕ} (ht : i < n) :
    ∃ r', l.findBackward o n r = .ok r' ∧
      (refs xs)[(o.bind fun p => State.lastIndex p ((xs.take i).map (·.2))).getD 0]? = some r' := by
  induction i generalizing r n with
  | zero      =>
    cases hi
    cases n with
    | zero   => cases ht
    | succ n => exact ⟨.pre, rfl, by cases o <;> rfl⟩
  | succ i ih =>
    cases n with
    | zero   => cases ht
    | succ n =>
      have ⟨e, _, he, hp, hb, _⟩ := h.load hi
      have hne : r ≠ .pre := h.ref_ne hi (refs_zero xs) (Nat.succ_ne_zero i)
      have hl : i < xs.length := hx
      have hs : (xs.take (i + 1)).map (·.2) = (xs.take i).map (·.2) ++ [(xs[i]).2] := by
        rw [← List.take_append_getElem hl, List.map_append]
        rfl
      rw [itemAt_succ hl] at hp
      rw [GenericList.findBackward, if_neg hne, he, hs]
      simp only [bind, Except.bind, hp]
      by_cases hq : some (xs[i]).2 = o
      · subst hq
        rw [if_pos rfl, Option.bind_some, lastIndex_concat, if_pos rfl, List.length_map,
          List.length_take_of_le (Nat.le_of_lt hl)]
        exact ⟨r, rfl, hi⟩
      · have hc : (o.bind fun p => State.lastIndex p ((xs.take i).map (·.2) ++ [(xs[i]).2])) =
            o.bind fun p => State.lastIndex p ((xs.take i).map (·.2)) := by
          cases o with
          | none   => rfl
          | some p => rw [Option.bind_some, lastIndex_concat, if_neg fun he => hq (congrArg some he), Option.bind_some]
        rw [if_neg hq, hc]
        exact ih hb (Nat.le_of_lt hl) (Nat.lt_of_succ_lt_succ ht)

theorem Shows.removeThis (h : Shows l s) (o : Option P) :
    ∃ l', l.removeFromList o = .ok ((o.elim (none, s) s.removeThis).1, l') ∧ Shows l' (o.elim (none, s) s.removeThis).2 := by
  have ⟨xs, hr, hs, hc⟩ := h
  have ⟨e, _, he, _, hb, _⟩ := hr.load (refs_last xs)
  rw [Nat.add_sub_cancel] at hb
  have ⟨r, hf, hi⟩ := hr.findBackward o hb (Nat.le_refl _) (Nat.lt_succ_self _)
  rw [List.take_length, hs] at hi
  rw [removeFromList, he]
  simp only [bind, Except.bind, pure, Except.pure, hr.size, hf]
  cases hk : o.bind fun p => State.lastIndex p s.items with
  | none   =>
    rw [hk] at hi
    cases hi
    refine ⟨l, ?_, ?_⟩ <;> cases o with
    | none   => trivial
    | some p =>
      rw [Option.elim_some, State.removeThis, show State.lastIndex p s.items = none from hk]
      trivial
  | some k =>
    rw [hk] at hi
    have ⟨p, hp, hl⟩ := Option.bind_eq_some_iff.mp hk
    have ⟨i, hik, hil⟩ := lastIndex_some hl
    subst hp hik
    rw [← length_eq hs] at hil
    have ⟨e', l₁, l', he', hl₁, hl', _, hs'⟩ := hr.takeOut hs hc hi hil
    have hne : r ≠ .pre := hr.ref_ne hi (refs_zero xs) (Nat.succ_ne_zero i)
    rw [Option.elim_some, State.removeThis, hl, Option.elim_some]
    refine ⟨l', ?_, hs'⟩
    rw [if_neg hne]
    simp only [he']
    by_cases hc : r = l.current
    · rw [if_pos hc] at hl₁
      rw [if_pos hc, hl₁]
      simp only [hl']
    · rw [if_neg hc] at hl₁
      cases hl₁
      rw [if_neg hc, hl']

-- The loop of `isInList` from the place `i + 1` on.
theorem Represents.findForward (h : Represents l xs) (o : Option P) (hi : (refs xs)[i + 1]? = some r) {n : ℕ}
    (ht : xs.length < i + n) :
    ∃ r', l.findForward o n r = .ok r' ∧ (r' ≠ .post ↔ o ∈ (xs.drop i).map fun x => some x.2) := by
  induction n generalizing i r with
  | zero      =>
    have := refs_lt hi
    omega
  | succ n ih =>
    rw [GenericList.findForward]
    rcases Nat.lt_or_ge i xs.length with hx | hx
    · have ⟨e, _, he, hp, _, hn⟩ := h.load hi
      have hne : r ≠ .post := h.ref_ne hi (refs_last xs) (by omega)
      rw [Nat.min_eq_left (by omega)] at hn
      rw [itemAt_succ hx] at hp
      rw [if_neg hne, he, List.drop_eq_getElem_cons hx, List.map_cons, List.mem_cons]
      simp only [bind, Except.bind, hp]
      by_cases hq : some (xs[i]).2 = o
      · exact ⟨r, if_pos hq, ⟨fun _ => .inl hq.symm, fun _ => hne⟩⟩
      · have ⟨r', hf, hr⟩ := ih hn (by omega)
        exact ⟨r', (if_neg hq).trans hf, hr.trans (or_iff_right (Ne.symm hq)).symm⟩
    · have hi' : i = xs.length := by
        have := refs_lt hi
        omega
      rw [hi', refs_last] at hi
      cases hi
      refine ⟨.post, if_pos rfl, ?_⟩
      rw [hi', List.drop_length]
      exact ⟨fun h => absurd rfl h, nofun⟩

theorem Shows.isInList (h : Shows l s) (o : Option P) : l.isInList o = .ok (o ∈ s.items.map some) := by
  have ⟨xs, hr, hs, _⟩ := h
  have ⟨e, _, he, _, _, hn⟩ := hr.load (refs_zero xs)
  rw [Nat.min_eq_left (by omega)] at hn
  have ⟨r, hf, ho⟩ := hr.findForward o hn (n := l.allocated + 1) (by rw [hr.size]; omega)
  have hm : (xs.map fun x => some x.2) = s.items.map some := by
    rw [← hs, List.map_map]
    rfl
  rw [List.drop_zero, hm] at ho
  rw [GenericList.isInList, he]
  simp only [bind, Except.bind, pure, Except.pure, hf, ho]

end

end Sfcc.GenericList
