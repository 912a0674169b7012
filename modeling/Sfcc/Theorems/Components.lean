import Sfcc.NameSpace

-- The components of a namespace, as they are read from it.
namespace Sfcc.NameSpace

-- What is read of a namespace, whose length is kept as an `int`.
def names (nameSpace : Option Text) : List Text :=
  nameSpace.elim [] fun ns => (ns.take (int ns.length).toNat).splitOn 47

-- What the loop leaves of a list: no component that is empty at the end.
def kept (l : List Text) : List Text :=
  if l.getLast? = some [] then l.dropLast else l

theorem kept_cons {l : List Text} (h : l ≠ []) (nsc : Text) : kept (nsc :: l) = nsc :: kept l := by
  simp only [kept, List.getLast?_cons_of_ne_nil h, List.dropLast_cons_of_ne_nil h]
  split <;> rfl

theorem kept_forall {P : Text → Prop} (h : P []) (l : List Text) : (∀ nsc ∈ kept l, P nsc) ↔ ∀ nsc ∈ l, P nsc := by
  rw [kept]
  split
  case isTrue hl  =>
    have ⟨m, hm⟩ := List.getLast?_eq_some_iff.mp hl
    subst hm
    rw [List.dropLast_concat, List.forall_mem_append, List.forall_mem_singleton]
    exact (and_iff_left h).symm
  case isFalse hl => rfl

theorem components_eq (ns nsc : Text) : (components nsc ns).1 = kept ((ns.splitOn 47).modifyHead (nsc ++ ·)) ∧
    ((∀ w ∈ (components nsc ns).2, w.InBounds) ↔
      ∀ c ∈ (ns.splitOn 47).modifyHead (nsc ++ ·), c.length < 256) := by
  have hw (nsc : Text) (b : UInt8) : Write.InBounds ⟨nsc.length, [b], 256⟩ ↔ nsc.length < 256 :=
    @Write.inBounds_iff _ 256 _
  induction ns generalizing nsc with
  | nil          =>
    constructor
    · simp [components, kept]
    · simp [components, hw]
  | cons c ns hi =>
    have hne : ns.splitOn 47 ≠ [] := List.splitOnP_ne_nil _ _
    have hsplit : (c :: ns).splitOn 47 =
        if c = 47 then [] :: ns.splitOn 47 else (ns.splitOn 47).modifyHead (c :: ·) := by
      simpa [List.splitOn] using List.splitOnP_cons_eq_if_modifyHead (p := (· == 47)) c ns
    rw [hsplit, components]
    by_cases hc : c = 47
    · have ⟨hl, hb⟩ := hi []
      have hid : (ns.splitOn 47).modifyHead ([] ++ ·) = ns.splitOn 47 := by
        cases ns.splitOn 47 <;> rfl
      rw [hid] at hl hb
      simp only [if_pos hc, List.modifyHead_cons, List.append_nil, List.forall_mem_cons, hw, hb, hl,
        kept_cons hne, true_and]
    · have ⟨hl, hb⟩ := hi (nsc ++ [c])
      have hcons : (ns.splitOn 47).modifyHead (fun x => nsc ++ c :: x) =
          ((ns.splitOn 47).modifyHead (c :: ·)).modifyHead (nsc ++ ·) := by
        simp [Function.comp_def]
      simp only [List.append_assoc, List.singleton_append, hcons] at hl hb
      simp only [if_neg hc, List.forall_mem_cons, hw, hb, hl, true_and, and_iff_right_iff_imp]
      intro h
      cases hs : ns.splitOn 47 with
      | nil      => exact absurd hs hne
      | cons d l =>
        rw [hs] at h
        have hd := h _ (List.mem_cons_self ..)
        have hl : (nsc ++ c :: d).length = nsc.length + (c :: d).length := List.length_append
        simp only at hd
        omega

theorem split_eq (nameSpace : Option Text) : (split nameSpace).1 = kept (names nameSpace) ∧
    ((∀ w ∈ (split nameSpace).2, w.InBounds) ↔ ∀ nsc ∈ names nameSpace, nsc.length < 256) := by
  cases nameSpace with
  | none    => exact ⟨rfl, iff_of_true nofun nofun⟩
  | some ns =>
    have hid (l : List Text) : l.modifyHead ([] ++ ·) = l := by cases l <;> rfl
    have h := components_eq (ns.take (int ns.length).toNat) []
    rw [hid] at h
    rwa [split, names, Option.elim_some, Option.elim_some]

theorem getNameSpaceComponents_eq {nameSpace : Option Text} (h : ∀ nsc ∈ names nameSpace, nsc.length ≤ 255) :
    getNameSpaceComponents nameSpace = .ok (kept (names nameSpace)) := by
  obtain ⟨he, hw⟩ := split_eq nameSpace
  have hall : ((split nameSpace).2.all fun w => w.InBounds) = true := by
    simpa using hw.mpr fun nsc hn => Nat.lt_succ_of_le (h nsc hn)
  rw [getNameSpaceComponents, if_pos hall, he]
  rfl

theorem getNameSpaceComponents_ok {nameSpace : Option Text} {ul : List Text} (h : getNameSpaceComponents nameSpace = .ok ul) :
    ul = kept (names nameSpace) := by
  rw [getNameSpaceComponents] at h
  split at h
  · rw [← (split_eq nameSpace).left]
    exact (Except.ok.inj h).symm
  · cases h

-- A namespace whose length is an `int` is read to its end.
theorem names_of_lt {ns : Text} (h : ns.length < 2 ^ 31) : names (some ns) = ns.splitOn 47 := by
  rw [names, Option.elim_some, int_eq (by omega) (by omega), Int.toNat_natCast, List.take_length]

theorem kept_of_ne_nil {l : List Text} (h : ∀ nsc ∈ l, nsc ≠ []) : kept l = l :=
  if_neg fun hl => h [] (List.mem_of_getLast? hl) rfl

-- The bytes of some components, with one for every slash and one more.
def weight (l : List Text) : ℕ :=
  (l.map fun t => t.length + 1).sum

theorem weight_intercalate {l : List Text} (h : l ≠ []) : weight l = (List.intercalate [47] l).length + 1 := by
  induction l with
  | nil         => exact absurd rfl h
  | cons t l hi =>
    have hw : weight (t :: l) = t.length + 1 + weight l := by
      rw [weight, List.map_cons, List.sum_cons]
      rfl
    cases l with
    | nil      =>
      rw [hw, List.intercalate_singleton]
      rfl
    | cons u l =>
      rw [hw, hi (List.cons_ne_nil u l), List.intercalate_cons_cons, List.length_append, List.length_append,
        List.length_singleton]
      omega

theorem weight_splitOn (t : Text) : weight (t.splitOn 47) = t.length + 1 := by
  rw [weight_intercalate (List.splitOn_ne_nil 47 t), List.intercalate_splitOn]

theorem weight_kept (l : List Text) : weight (kept l) ≤ weight l := by
  rw [kept]
  split
  case isTrue h  =>
    obtain ⟨l', rfl⟩ := List.getLast?_eq_some_iff.mp h
    rw [List.dropLast_concat, weight, weight, List.map_append, List.sum_append]
    exact Nat.le_add_right ..
  case isFalse _ => exact le_rfl

-- The components of what is in front of a byte are not longer.
theorem splitOn_take (t : Text) (k : ℕ) :
    List.Forall₂ (fun c d : Text => c.length ≤ d.length) ((t.take k).splitOn 47)
      ((t.splitOn 47).take ((t.take k).splitOn 47).length) := by
  have hcons (c : UInt8) (t : Text) : (c :: t).splitOn 47 =
      if c = 47 then [] :: t.splitOn 47 else (t.splitOn 47).modifyHead (c :: ·) := by
    simpa [List.splitOn] using List.splitOnP_cons_eq_if_modifyHead (p := (· == 47)) c t
  have hnil : ([] : Text).splitOn 47 = [[]] := rfl
  induction t generalizing k with
  | nil         =>
    rw [List.take_nil]
    exact .cons le_rfl .nil
  | cons c t hi =>
    cases k with
    | zero   =>
      obtain ⟨d, l, hd⟩ := List.exists_cons_of_ne_nil (List.splitOn_ne_nil 47 (c :: t))
      rw [List.take_zero, hnil, hd]
      exact .cons (Nat.zero_le _) .nil
    | succ k =>
      have hk := hi k
      rw [List.take_succ_cons, hcons, hcons]
      split
      · exact .cons le_rfl hk
      · generalize (t.take k).splitOn 47 = l at hk ⊢
        generalize t.splitOn 47 = m at hk ⊢
        cases l with
        | nil      => exact hk
        | cons d l =>
          cases m with
          | nil      => cases hk
          | cons e m =>
            cases hk with
            | cons hde hk => exact .cons (Nat.succ_le_succ hde) hk

-- What is read of a namespace has no longer components, ...
theorem names_length {ns : Text} {n : ℕ} (h : ∀ c ∈ ns.splitOn 47, c.length ≤ n) : ∀ c ∈ names (some ns), c.length ≤ n := by
  have hf : ∀ {l m : List Text}, List.Forall₂ (fun c d : Text => c.length ≤ d.length) l m → (∀ d ∈ m, d.length ≤ n) →
      ∀ c ∈ l, c.length ≤ n := by
    intro l m hf hm
    induction hf with
    | nil            => exact nofun
    | cons hcd _ hi =>
      have ⟨hd, hm⟩ := List.forall_mem_cons.mp hm
      exact List.forall_mem_cons.mpr ⟨le_trans hcd hd, hi hm⟩
  rw [names, Option.elim_some]
  exact hf (splitOn_take ns (int ns.length).toNat) fun d hd => h d (List.mem_of_mem_take hd)

-- ... and is less than the namespace where its length is no `int`.
theorem weight_names {ns : Text} (h : 2 ^ 31 ≤ ns.length) : weight (kept (names (some ns))) ≤ ns.length := by
  have hint : int ns.length < ns.length := by
    rw [int]
    omega
  have hw := weight_kept (names (some ns))
  rw [names, Option.elim_some] at hw ⊢
  rw [weight_splitOn, List.length_take] at hw
  omega

theorem mem_intercalate_cases {c : UInt8} {l : List Text} (h : c ∈ List.intercalate [47] l) : c = 47 ∨ ∃ t ∈ l, c ∈ t := by
  induction l with
  | nil         => cases h
  | cons t l hi =>
    cases l with
    | nil      =>
      rw [List.intercalate_singleton] at h
      exact .inr ⟨t, List.mem_cons_self, h⟩
    | cons u l =>
      rw [List.intercalate_cons_cons, List.mem_append, List.mem_append, List.mem_singleton] at h
      rcases h with (ht | hc) | hl
      · exact .inr ⟨t, List.mem_cons_self, ht⟩
      · exact .inl hc
      · exact (hi hl).imp_right fun ⟨t, hm, ht⟩ => ⟨t, List.mem_cons_of_mem _ hm, ht⟩

-- There are such namespaces.
theorem exists_long : ∃ ns : Text, (∀ name ∈ ns.splitOn 47, name ≠ [] ∧ name.length ≤ 255) ∧ (∀ c ∈ ns, c = 47 ∨ c = 97) ∧
    2 ^ 31 ≤ ns.length := by
  have hrep {n : ℕ} {t : Text} (ht : t ∈ List.replicate n [97]) : t = [97] := List.eq_of_mem_replicate ht
  have hne : List.replicate (2 ^ 30 + 1) [(97 : UInt8)] ≠ [] := by
    rw [Ne, List.replicate_eq_nil_iff]
    omega
  refine ⟨List.intercalate [47] (List.replicate (2 ^ 30 + 1) [97]), ?_, fun c hm => ?_, ?_⟩
  · intro t ht
    rw [List.splitOn_intercalate 47 ?_ hne] at ht
    · rw [hrep ht]
      decide
    · intro t ht
      rw [hrep ht]
      decide
  · refine (mem_intercalate_cases hm).imp_right fun ⟨t, ht, hc⟩ => ?_
    rwa [hrep ht, List.mem_singleton] at hc
  · have hw := weight_intercalate hne
    rw [weight, List.map_replicate, List.sum_replicate_nat] at hw
    rw [List.length_singleton] at hw
    omega

end Sfcc.NameSpace
