import Mathlib.Data.List.Perm.Basic
import Mathlib.Order.Basic

-- Elements that are told apart by their keys, and buckets in which each one lies where it is meant to.
namespace Chaining

variable {α κ : Type*}

section Keys

variable {same : κ → κ → Bool} {key : α → κ} {l l' : List α} {a : α} {k k' : κ}

-- No two of the keys are the same.
def Distinct (same : κ → κ → Bool) (key : α → κ) (l : List α) : Prop :=
  l.Pairwise fun a b => same (key a) (key b) = false

variable (he : Equivalence fun k k' => same k k' = true)

include he

theorem same_comm : same k k' = same k' k :=
  Bool.eq_iff_iff.mpr ⟨he.symm, he.symm⟩

theorem same_congr (h : same k k' = true) (c : κ) : same k c = same k' c :=
  Bool.eq_iff_iff.mpr ⟨he.trans (he.symm h), he.trans h⟩

theorem Distinct.perm (hd : Distinct same key l) (hp : l.Perm l') : Distinct same key l' :=
  (hp.pairwise_iff fun h => same_comm he ▸ h).mp hd

theorem find?_eq_some (hd : Distinct same key l) :
    l.find? (fun a => same k (key a)) = some a ↔ a ∈ l ∧ same k (key a) = true := by
  induction l with
  | nil         => simp
  | cons b l hi =>
    have ⟨hb, hl⟩ := List.pairwise_cons.mp hd
    rw [List.find?_cons]
    cases hk : same k (key b) with
    | false =>
      rw [hi hl, List.mem_cons]
      refine and_congr_left fun ha => (or_iff_right fun h => ?_).symm
      rw [h, hk] at ha
      cases ha
    | true  =>
      rw [Option.some_inj, List.mem_cons]
      refine ⟨fun h => h ▸ ⟨.inl rfl, hk⟩, fun ⟨hm, ha⟩ => hm.elim Eq.symm fun hm => ?_⟩
      have := hb a hm
      rw [← same_congr he hk, ha] at this
      cases this

theorem find?_perm (hd : Distinct same key l) (hp : l.Perm l') :
    l.find? (fun a => same k (key a)) = l'.find? fun a => same k (key a) :=
  Option.ext fun a => by rw [find?_eq_some he hd, find?_eq_some he (hd.perm he hp), hp.mem_iff]

end Keys

-- The element that a search stops at, between those in front of it and those behind it.
structure Found (l : List α) (i : ℕ) (l₁ : List α) (a : α) (l₂ : List α) : Prop where
  eq     : l = l₁ ++ a :: l₂
  get    : l[i]? = some a
  modify : ∀ f, l.modify i f = l₁ ++ f a :: l₂
  erase  : l.eraseIdx i = l₁ ++ l₂

theorem exists_found {l : List α} {f : α → Bool} {i : ℕ} (h : l.findIdx? f = some i) :
    ∃ l₁ a l₂, Found l i l₁ a l₂ ∧ f a = true := by
  have ⟨hi, ha, _⟩ := List.findIdx?_eq_some_iff_getElem.mp h
  refine ⟨l.take i, l[i], l.drop (i + 1), ⟨?_, List.getElem?_eq_getElem hi, fun f => ?_, ?_⟩, ha⟩
  · rw [← List.drop_eq_getElem_cons hi, List.take_append_drop]
  · exact List.modify_eq_take_cons_drop hi
  · exact List.eraseIdx_eq_take_drop_succ l i

section Buckets

variable {place : α → ℕ} {bs : List (List α)} {b l : List α} {f : List α → List α} {a : α} {i n : ℕ}

-- Each element lies in the bucket that is meant for it.
def Placed (place : α → ℕ) (bs : List (List α)) : Prop :=
  ∀ i b, bs[i]? = some b → ∀ a ∈ b, place a = i

theorem mem_bucket (hp : Placed place bs) (ha : a ∈ bs.flatten) : a ∈ bs.getD (place a) [] := by
  have ⟨b, hb, ha⟩ := List.mem_flatten.mp ha
  have ⟨i, hi⟩ := List.getElem?_of_mem hb
  rw [hp i b hi a ha, List.getD_eq_getElem?_getD, hi]
  exact ha

theorem mem_flatten (ha : a ∈ bs.getD i []) : a ∈ bs.flatten := by
  rw [List.getD_eq_getElem?_getD] at ha
  cases hb : bs[i]? with
  | none   =>
    rw [hb] at ha
    cases ha
  | some b =>
    rw [hb] at ha
    exact List.mem_flatten.mpr ⟨b, List.mem_of_getElem? hb, ha⟩

-- What a change of one bucket does to all the elements.
theorem exists_rest (hi : i < bs.length) :
    ∃ rest, ∀ f, (bs.modify i f).flatten.Perm (f (bs.getD i []) ++ rest) := by
  induction bs generalizing i with
  | nil          => cases hi
  | cons b bs ih =>
    cases i with
    | zero   => exact ⟨bs.flatten, fun f => .rfl⟩
    | succ i =>
      have ⟨rest, hr⟩ := ih (Nat.lt_of_succ_lt_succ hi)
      refine ⟨b ++ rest, fun f => ?_⟩
      rw [List.modify_succ_cons, List.flatten_cons, List.getD_cons_succ]
      exact ((hr f).append_left b).trans (List.perm_append_comm_assoc ..)

theorem Placed.modify (hp : Placed place bs) (hf : ∀ a ∈ f (bs.getD i []), place a = i) :
    Placed place (bs.modify i f) := by
  intro j b hb a ha
  rw [List.getElem?_modify] at hb
  split at hb
  case isTrue hj =>
    have ⟨c, hc, hb⟩ := Option.map_eq_some_iff.mp hb
    rw [List.getD_eq_getElem?_getD, hj, hc] at hf
    exact hf a (hb ▸ ha)
  case isFalse =>
    have ⟨c, hc, hb⟩ := Option.map_eq_some_iff.mp hb
    exact hp j c hc a (hb ▸ ha)

theorem Placed.bucket (hp : Placed place bs) (ha : a ∈ bs.getD i []) : place a = i := by
  rw [List.getD_eq_getElem?_getD] at ha
  cases hb : bs[i]? with
  | none   =>
    rw [hb] at ha
    cases ha
  | some b =>
    rw [hb] at ha
    exact hp i b hb a ha

theorem placed_replicate : Placed place (.replicate n []) := by
  intro i b hb a ha
  rw [List.eq_of_mem_replicate (List.mem_of_getElem? hb)] at ha
  cases ha

-- The elements, each one in front of its bucket.
def spread (place : α → ℕ) (bs : List (List α)) (l : List α) : List (List α) :=
  l.foldl (fun bs a => bs.modify (place a) (a :: ·)) bs

theorem spread_length : (spread place bs l).length = bs.length := by
  induction l generalizing bs with
  | nil         => rfl
  | cons a l ih => rw [spread, List.foldl_cons, ← spread, ih, List.length_modify]

theorem spread_placed (hp : Placed place bs) : Placed place (spread place bs l) := by
  induction l generalizing bs with
  | nil         => exact hp
  | cons a l ih =>
    refine ih (hp.modify fun c hc => ?_)
    exact (List.mem_cons.mp hc).elim (· ▸ rfl) hp.bucket

theorem spread_perm (hn : ∀ a ∈ l, place a < bs.length) : (spread place bs l).flatten.Perm (l ++ bs.flatten) := by
  induction l generalizing bs with
  | nil         => exact .rfl
  | cons a l ih =>
    have ⟨ha, hl⟩ := List.forall_mem_cons.mp hn
    have ⟨rest, hr⟩ := exists_rest ha
    have hb := hr id
    rw [List.modify_id] at hb
    have hm : (bs.modify (place a) (a :: ·)).flatten.Perm (a :: bs.flatten) :=
      (hr (a :: ·)).trans ((hb.symm).cons a)
    have hl : ∀ b ∈ l, place b < (bs.modify (place a) (a :: ·)).length := by simpa using hl
    have h := ih hl
    exact h.trans ((hm.append_left l).trans (by simp))

end Buckets
end Chaining
