import Mathlib.Data.Fintype.EquivFin
import Mathlib.Data.List.Count
import Mathlib.Data.List.ReduceOption
import Sfcc.Memory
import Sfcc.ParserHeap

namespace Sfcc

open Allocation List

namespace Heaps

variable {h h' : Heaps} {t : List (Option (Option Address))} {l a b : List (Option Address)} {live r : List Address}
variable {memory others : Address → Option ℕ} {p o : Option Address} {q : Address} {n : ℕ}

-- The table of the blocks, which holds what a list says.
structure Table (h : Heaps) (l : List (Option Address)) : Prop where
  holds     : Cells.Holds h.table l
  numBlocks : h.numBlocks = l.length
  capacity  : h.capacity = h.table.length
  near      : h.table.length ≤ l.length + 100
  few       : l.length ≤ 2 ^ 31

-- The loops.

theorem load_holds {c : Option Address} (h : Cells.Holds t (a ++ c :: b)) : load t a.length = .ok c := by
  have ht : t[a.length]? = some (some c) := by
    rw [h.eq_append]
    simp
  rw [load, ht]
  rfl

theorem store_some {t' : List (Option (Option Address))} {i : ℕ} (h : Cells.store t i [o] = some t') :
    store t i o = .ok t' := by
  rw [store, h]
  rfl

-- What `parserRealloc` leaves in an entry.
def cleared (p q : Option Address) : Option Address :=
  if q = p then none else q

theorem clear_holds (h : Cells.Holds t (a ++ b)) :
    ∃ t', clear p a.length t = .ok t' ∧ t'.length = t.length ∧ Cells.Holds t' (a.map (cleared p) ++ b) := by
  induction a using List.reverseRecOn generalizing t b with
  | nil               => exact ⟨t, rfl, rfl, h⟩
  | append_singleton a c hi =>
    rw [List.append_assoc] at h
    have he : clear p (a ++ [c]).length t =
        if c = p then store t a.length none >>= clear p a.length else clear p a.length t := by
      rw [List.length_append, List.length_singleton, clear, load_holds h]
      rfl
    have hm : (a ++ [c]).map (cleared p) ++ b = a.map (cleared p) ++ cleared p c :: b := by simp
    rw [he, hm, cleared]
    by_cases hc : c = p
    · have ⟨t₁, h₁, hl, hh⟩ := h.set none
      have ⟨t₂, h₂, hl₂, hh₂⟩ := hi hh
      rw [if_pos hc, if_pos hc, store_some h₁]
      exact ⟨t₂, h₂, hl₂.trans hl, hh₂⟩
    · rw [if_neg hc, if_neg hc]
      exact hi h

theorem cleared_reduceOption (l : List (Option Address)) :
    (l.map (cleared p)).reduceOption = l.reduceOption.filter (some · ≠ p) := by
  induction l with
  | nil         => rfl
  | cons c l hi =>
    cases c with
    | none   =>
      have hc : cleared p none = none := ite_self _
      rw [List.map_cons, hc, List.reduceOption_cons_of_none, List.reduceOption_cons_of_none, hi]
    | some q =>
      rw [List.map_cons, cleared, List.reduceOption_cons_of_some]
      by_cases hq : some q = p
      · rw [if_pos hq, List.reduceOption_cons_of_none, hi, List.filter_cons_of_neg (by simpa using hq)]
      · rw [if_neg hq, List.reduceOption_cons_of_some, hi, List.filter_cons_of_pos (by simpa using hq)]

theorem freeBlocks_holds (h : Cells.Holds t (a ++ b)) (ho : Owns memory others (a.reduceOption ++ r)) :
    ∃ m, freeBlocks t a.length memory = .ok (a.reduceOption.reverse, m) ∧ Owns m others r := by
  induction a using List.reverseRecOn generalizing memory b with
  | nil               => exact ⟨memory, rfl, ho⟩
  | append_singleton a c hi =>
    rw [List.append_assoc] at h
    rw [List.reduceOption_append, List.append_assoc] at ho
    have ⟨m₁, h₁, ho₁⟩ : ∃ m₁, free memory c = .ok m₁ ∧ Owns m₁ others (a.reduceOption ++ r) := by
      cases c with
      | none   => exact ⟨memory, rfl, ho⟩
      | some q => exact (ho.perm List.perm_middle).free
    have ⟨m₂, h₂, ho₂⟩ := hi h ho₁
    refine ⟨m₂, ?_, ho₂⟩
    have hr : (a ++ [c]).reduceOption.reverse = c.toList ++ a.reduceOption.reverse := by
      rw [List.reduceOption_append, List.reverse_append]
      cases c <;> rfl
    rw [hr, List.length_append, List.length_singleton, freeBlocks, load_holds h]
    show (free memory c >>= fun m => freeBlocks t a.length m >>= _) = _
    rw [h₁]
    show (freeBlocks t a.length m₁ >>= _) = _
    rw [h₂]
    rfl

theorem Table.turns (ht : Table h l) : h.turns = l.length := by
  have hn := ht.numBlocks
  have hf := ht.few
  rw [Heaps.turns, hn, int, size_t]
  omega

-- The functions.

theorem Table.parserHeapTerm (ht : Table h l) (ho : Owns h.memory others (l.reduceOption ++ (h.blocks.toList ++ [q]))) :
    h.parserHeapTerm q = .ok (l.reduceOption.reverse ++ h.blocks.toList ++ [q], others) := by
  have ⟨m₁, h₁, ho₁⟩ := freeBlocks_holds (l.append_nil.symm ▸ ht.holds) ho
  have ⟨m₂, h₂, ho₂⟩ : ∃ m₂, free m₁ h.blocks = .ok m₂ ∧ Owns m₂ others [q] := by
    cases hb : h.blocks with
    | none   =>
      rw [hb] at ho₁
      exact ⟨m₁, rfl, ho₁⟩
    | some p =>
      rw [hb] at ho₁
      exact ho₁.free
  have ⟨m₃, h₃, ho₃⟩ := ho₂.free
  rw [Heaps.parserHeapTerm, ht.turns, h₁]
  show (free m₁ h.blocks >>= fun m => free m (some q) >>= _) = _
  rw [h₂]
  show (free m₂ (some q) >>= _) = _
  rw [h₃, ho₃.eq_others]
  rfl

theorem Table.count (hn : h.numBlocks = l.length) (hl : l.length ≤ 2 ^ 31) :
    parserHeapGrow.count h = (int l.length, { h with numBlocks := l.length + 1 }) := by
  have hs : size_t (l.length + 1) = l.length + 1 := size_t_eq (by omega) (by omega)
  have hi : size_t ((l.length : ℤ) + 1 - 1) = l.length := by
    rw [add_sub_cancel_right, size_t_eq (by omega) (by omega)]
  rw [parserHeapGrow.count, hn, hs, hi]

theorem register_eq {a : Answers} {i : ℤ} (hg : h.parserHeapGrow a = .ok (i, h')) (hi : i ≥ 0)
    (allocate : (Address → Option ℕ) → Except Misuse (Address → Option ℕ)) :
    h.register a allocate = (allocate h'.memory >>= fun memory =>
      store h'.table i.toNat a.block >>= fun table => pure (a.block, { h' with memory, table })) := by
  rw [Heaps.register, hg]
  exact if_pos hi

-- A table with one entry more that is not written yet.
theorem Table.parserHeapGrow (ht : Table h l)
    (ho : Owns h.memory others (h.blocks.toList ++ r)) (q q' : Address) :
    h.parserHeapGrow ⟨some q, some q'⟩ = .error .taken ∧ Used others r q ∨
    ∃ h', h.parserHeapGrow ⟨some q, some q'⟩ = .ok (int l.length, h') ∧ h'.blocks.toList ⊆ q :: h.blocks.toList ∧
      Cells.Holds h'.table l ∧ h'.numBlocks = l.length + 1 ∧ h'.capacity = h'.table.length ∧
      l.length < h'.table.length ∧ h'.table.length ≤ l.length + 1 + 100 ∧
      Owns h'.memory others (h'.blocks.toList ++ r) := by
  have hc := ht.capacity
  have hn := ht.numBlocks
  have hle := ht.holds.length_le
  have hnear := ht.near
  have hl := ht.few
  by_cases hg : h.numBlocks ≥ h.capacity
  · have hcap : size_t (h.capacity + PARSER_HEAP_INCREMENT) = h.capacity + 100 :=
      size_t_eq (by rw [PARSER_HEAP_INCREMENT]; omega) (by rw [PARSER_HEAP_INCREMENT]; omega)
    have hsize : (size_t (8 * size_t (h.capacity + PARSER_HEAP_INCREMENT))).toNat / 8 = h.table.length + 100 := by
      rw [hcap, size_t_eq (by omega) (by omega)]
      omega
    rw [Heaps.parserHeapGrow, if_pos hg]
    dsimp only
    rcases ho.realloc q (size_t (8 * size_t (h.capacity + PARSER_HEAP_INCREMENT))).toNat with ⟨he, hu⟩ | ⟨m, he, hm⟩
    · rw [he]
      exact .inl ⟨rfl, hu⟩
    · rw [he]
      refine .inr ⟨_, congrArg Except.ok (Table.count (l := l) hn hl), ?_⟩
      refine ⟨List.cons_subset_cons _ (List.nil_subset _), ht.holds.resize (by rw [hsize]; omega), rfl, ?_, ?_, ?_, hm⟩
      all_goals
        rw [hsize]
        simp only [hcap, Cells.resize_length]
        omega
  · rw [Heaps.parserHeapGrow, if_neg hg, Table.count hn hl]
    exact .inr ⟨_, rfl, List.subset_cons_self .., ht.holds, rfl, hc, by show l.length < h.table.length; omega,
      by show h.table.length ≤ _; omega, ho⟩

theorem Table.register (ht : Table h l) (hl : l.length < 2 ^ 31) (ho : Owns h.memory others (h.blocks.toList ++ r))
    {r' : List Address} (q q' : Address) (allocate : (Address → Option ℕ) → Except Misuse (Address → Option ℕ))
    (ha : ∀ m b, Owns m others (b ++ r) → allocate m = .error .taken ∧ Used others (b ++ r) q ∨
      ∃ m', allocate m = .ok m' ∧ Owns m' others (b ++ r')) :
    h.register ⟨some q', some q⟩ allocate = .error .taken ∧
      (Used others r q' ∨ Used others (q' :: (h.blocks.toList ++ r)) q) ∨
    ∃ h', h.register ⟨some q', some q⟩ allocate = .ok (some q, h') ∧ Table h' (l ++ [some q]) ∧
      Owns h'.memory others (h'.blocks.toList ++ r') := by
  rcases ht.parserHeapGrow ho q' q with ⟨hg, hu⟩ | ⟨h₁, hg, hb, hh, hn, hc, hlt, hnear, ho₁⟩
  · rw [Heaps.register, hg]
    exact .inl ⟨rfl, .inl hu⟩
  · have hroom : (l ++ [some q]).length ≤ h₁.table.length := by
      rw [List.length_append]
      exact hlt
    have ⟨t, hs, hlen, hh'⟩ := hh.store hroom
    rw [int_eq (by omega) (by omega)] at hg
    rw [register_eq hg (Int.natCast_nonneg _), Int.toNat_natCast, store_some hs]
    rcases ha _ _ ho₁ with ⟨he, hu⟩ | ⟨m, he, hm⟩
    · rw [he]
      refine .inl ⟨rfl, .inr (hu.mono ?_)⟩
      rw [← List.cons_append]
      exact List.append_subset.mpr ⟨fun _ hp => List.mem_append_left _ (hb hp), List.subset_append_right ..⟩
    · rw [he]
      refine .inr ⟨{ h₁ with memory := m, table := t }, rfl, ?_, hm⟩
      refine ⟨hh', ?_, ?_, ?_, ?_⟩
      all_goals
        simp only [List.length_append, List.length_singleton, Nat.cast_add, Nat.cast_one, hlen]
        omega

-- The three functions that take no block ask for one as `realloc` does without a block.
theorem realloc_none (m : Address → Option ℕ) (p : Option Address) (n : ℕ) : realloc m none p n = malloc m p n := by
  cases p <;> rfl

def Call.size : Call → ℕ
  | .malloc sz | .realloc _ sz => sz
  | .calloc num sz             => num * sz
  | .strdup s                  => s.length + 1

theorem Table.clear (ht : Table h l) (p : Option Address) :
    ∃ t, Heaps.clear p h.turns h.table = .ok t ∧ Table { h with table := t } (l.map (cleared p)) := by
  have ⟨t, he, hl, hh⟩ := clear_holds (p := p) (l.append_nil.symm ▸ ht.holds)
  rw [List.append_nil] at hh
  rw [ht.turns]
  refine ⟨t, he, hh, ?_, ht.capacity.trans (congrArg _ hl.symm), ?_, ?_⟩
  · rw [List.length_map]
    exact ht.numBlocks
  · rw [List.length_map]
    exact hl.le.trans ht.near
  · rw [List.length_map]
    exact ht.few

theorem Table.call (ht : Table h l) (c : Call) :
    ∃ t l', Table { h with table := t } l' ∧ l'.length = l.length ∧
      l'.reduceOption = l.reduceOption.filter (some · ≠ c.moved) ∧
      ∀ a, h.call a c = { h with table := t }.register a (realloc · c.moved a.block c.size) := by
  have hl : l.reduceOption = l.reduceOption.filter (some · ≠ (none : Option Address)) := by simp
  have ha (a : Answers) (n : ℕ) : h.register a (malloc · a.block n) = h.register a (realloc · none a.block n) := by
    simp only [realloc_none]
  cases c with
  | realloc p sz =>
    have ⟨t, he, hc⟩ := ht.clear p
    refine ⟨t, _, hc, List.length_map _, cleared_reduceOption l, fun a => ?_⟩
    rw [Heaps.call, parserRealloc, he]
    rfl
  | malloc sz     => exact ⟨h.table, l, ht, rfl, hl, fun a => ha a sz⟩
  | calloc num sz => exact ⟨h.table, l, ht, rfl, hl, fun a => ha a (num * sz)⟩
  | strdup s      => exact ⟨h.table, l, ht, rfl, hl, fun a => ha a (s.length + 1)⟩

-- A call takes away a block that the caller has, if any.
def Call.Held (c : Call) (live : List Address) : Prop :=
  ∀ p ∈ c.moved, p ∈ live

instance (c : Call) (live : List Address) : Decidable (c.Held live) :=
  Option.decidableForallMem c.moved

theorem moved_perm (hd : live.Nodup) (ho : ∀ p ∈ o, p ∈ live) :
    live.Perm (o.toList ++ live.filter (some · ≠ o)) := by
  cases o with
  | none   => simp
  | some p =>
    have he : live.filter (some · ≠ some p) = live.erase p := by
      rw [hd.erase_eq_filter]
      refine List.filter_congr fun q _ => ?_
      by_cases hq : q = p <;> simp [hq]
    rw [he]
    exact List.perm_cons_erase (ho p rfl)

end Heaps

namespace Parsing

open Heaps

variable {s s' : Parsing} {a : Answers} {c : Call} {others : Address → Option ℕ} {self q q' : Address}

def owned (self : Address) (s : Parsing) : List Address :=
  s.blocks.toList ++ (s.live ++ [self])

def Inv (others : Address → Option ℕ) (self : Address) (s : Parsing) : Prop :=
  ∃ l, Table s.toHeaps l ∧ l.reduceOption = s.live ∧ Owns s.memory others (s.owned self)

theorem inv_init {h : Heaps} (hi : parserHeapInit others self = .ok h) : Inv others self { h with } := by
  rcases (Owns.nil others).malloc self 24 with ⟨he, -⟩ | ⟨m, he, ho⟩
  · rw [parserHeapInit, he] at hi
    cases hi
  · rw [parserHeapInit, he] at hi
    cases hi
    exact ⟨[], ⟨.nil _, rfl, rfl, Nat.zero_le _, Nat.zero_le _⟩, rfl, ho⟩

theorem Inv.step (i : Inv others self s) (hc : c.Held s.live) (hn : s.numBlocks < 2 ^ 31) (q q' : Address) :
    s.call ⟨some q', some q⟩ c = .error .taken ∧ (Used others (s.owned self) q' ∨ Used others (q' :: s.owned self) q) ∨
    ∃ s', s.call ⟨some q', some q⟩ c = .ok s' ∧ s'.numBlocks = s.numBlocks + 1 ∧ q ∈ s'.live ∧ Inv others self s' := by
  obtain ⟨l, ht, hl, ho⟩ := i
  have hlt : l.length < 2 ^ 31 := by
    rw [ht.numBlocks] at hn
    omega
  have hd : s.live.Nodup := (List.nodup_append.mp (List.nodup_append.mp ho.nodup).right.left).left
  have ⟨t, l', ht', hlen, hl', hr⟩ := ht.call c
  rw [hl] at hl'
  have ha (m b) (hm : Owns m others (b ++ (s.live ++ [self]))) :
      realloc m c.moved (some q) c.size = .error .taken ∧ Used others (b ++ (s.live ++ [self])) q ∨
      ∃ m', realloc m c.moved (some q) c.size = .ok m' ∧
        Owns m' others (b ++ (s.live.filter (some · ≠ c.moved) ++ [q] ++ [self])) := by
    have hp := moved_perm hd hc
    have hfront : (b ++ (s.live ++ [self])).Perm
        (c.moved.toList ++ (b ++ (s.live.filter (some · ≠ c.moved) ++ [self]))) := calc
      _ ~ b ++ (c.moved.toList ++ (s.live.filter (some · ≠ c.moved) ++ [self])) := by
        rw [← List.append_assoc c.moved.toList]
        exact (hp.append_right _).append_left _
      _ ~ _ := by
        rw [← List.append_assoc, ← List.append_assoc c.moved.toList]
        exact perm_append_comm.append_right _
    rcases (hm.perm hfront).realloc q c.size with ⟨he, hu⟩ | ⟨m', he, ho'⟩
    · exact .inl ⟨he, hu.mono fun p hp => hfront.mem_iff.mpr (List.mem_append_right _ hp)⟩
    · refine .inr ⟨m', he, ho'.perm ?_⟩
      rw [List.append_assoc, ← List.append_assoc b, ← List.append_assoc b]
      exact List.perm_middle.symm
  rw [Parsing.call, hr]
  rcases ht'.register (hlen ▸ hlt) ho q q' _ ha with ⟨he, hu⟩ | ⟨h', he, ht₁, ho₁⟩
  · rw [he]
    exact .inl ⟨rfl, hu.imp_left (·.mono (List.subset_append_right ..))⟩
  · rw [he]
    refine .inr ⟨_, rfl, ?_, List.mem_append_right _ List.mem_cons_self, _, ht₁, ?_, ho₁⟩
    · show h'.numBlocks = _
      rw [ht₁.numBlocks, ht.numBlocks, List.length_append, hlen]
      rfl
    · rw [List.reduceOption_append, hl']
      rfl

-- What stands in `blocks[0..numBlocks-1]`.
def entries (s : Parsing) : List (Option (Option Address)) :=
  s.table.take s.numBlocks.toNat

-- Every block that was returned and not reallocated since is in the table once, and nothing else is. The
-- end of the parser frees these blocks, the table and itself, each one once, so that only the blocks of
-- others are left.
structure Exact (others : Address → Option ℕ) (ph : Address) (s : Parsing) : Prop where
  once     : ∀ p ∈ s.live, s.entries.count (some (some p)) = 1
  only     : ∀ p, some (some p) ∈ s.entries → p ∈ s.live
  written  : none ∉ s.entries
  bound    : s.numBlocks ≤ s.capacity
  room     : s.capacity = s.table.length
  distinct : (s.live ++ s.blocks.toList ++ [ph]).Nodup
  frees    : s.parserHeapTerm ph = .ok (s.live.reverse ++ s.blocks.toList ++ [ph], others)

theorem Inv.exact (i : Inv others self s) : Exact others self s := by
  obtain ⟨l, ht, hl, ho⟩ := i
  have he : s.entries = l.map some := by
    rw [entries, ht.numBlocks]
    exact ht.holds
  have hperm : (s.blocks.toList ++ (s.live ++ [self])).Perm (s.live ++ (s.blocks.toList ++ [self])) := by
    rw [← List.append_assoc, ← List.append_assoc]
    exact List.perm_append_comm.append_right _
  have ho' := ho.perm hperm
  have hd : s.live.Nodup := (List.nodup_append.mp ho'.nodup).left
  constructor
  case once =>
    intro p hp
    rw [← hl] at hp hd
    have hcount : l.count (some p) = l.reduceOption.count p := by
      rw [List.reduceOption, List.count_filterMap]
      rfl
    rw [he, List.count_map_of_injective l some (Option.some_injective _), hcount]
    exact List.count_eq_one_of_mem hd hp
  case only =>
    intro p hp
    rw [he, List.mem_map_of_injective (Option.some_injective _)] at hp
    exact hl ▸ List.reduceOption_mem_iff.mpr hp
  case written =>
    rw [he]
    simp
  case bound =>
    rw [ht.numBlocks, ht.capacity]
    exact_mod_cast ht.holds.length_le
  case room => exact ht.capacity
  case distinct =>
    rw [List.append_assoc]
    exact ho'.nodup
  case frees =>
    rw [← hl] at ho' ⊢
    exact ht.parserHeapTerm ho'

-- What the caller and the C library keep to: `p` is a block that the caller has, and no allocation fails.
def Sound (s : Parsing) (act : Answers × Call) : Prop :=
  act.2.Held s.live ∧ act.1.table ≠ none ∧ act.1.block ≠ none

theorem Inv.sound_step {act : Answers × Call} (i : Inv others self s) (hs : s.Sound act) (hn : s.numBlocks < 2 ^ 31) :
    s.call act.1 act.2 = .error .taken ∨ ∃ s', s.call act.1 act.2 = .ok s' ∧ Inv others self s' := by
  obtain ⟨⟨table, block⟩, c⟩ := act
  obtain ⟨hc, ht, hb⟩ := hs
  obtain ⟨q', rfl⟩ := Option.ne_none_iff_exists'.mp ht
  obtain ⟨q, rfl⟩ := Option.ne_none_iff_exists'.mp hb
  rcases i.step hc hn q q' with ⟨he, -⟩ | ⟨s', he, -, -, i'⟩
  · exact .inl he
  · exact .inr ⟨s', he, i'⟩

theorem run_inv {h : Heaps} (hi : parserHeapInit others self = .ok h)
    (r : (system h).Run (fun s act => s.Sound act ∧ s.numBlocks < 2 ^ 31) s) : Inv others self s := by
  refine r.invariant (inv_init hi) fun {s act s'} i ⟨hs, hn⟩ e => ?_
  rcases i.sound_step hs hn with he | ⟨s₁, he, i'⟩
  · change (s.call act.1 act.2).toOption = some s' at e
    rw [he] at e
    cases e
  · change (s.call act.1 act.2).toOption = some s' at e
    rw [he] at e
    exact Option.some.inj e ▸ i'

theorem run_exact {h : Heaps} (hi : parserHeapInit others self = .ok h)
    (r : (system h).Run (fun s act => s.Sound act ∧ s.numBlocks < 2 ^ 31) s) :
    Exact others self s ∧ ∀ act, s.Sound act → s.numBlocks < 2 ^ 31 →
      s.call act.1 act.2 = .error .taken ∨ ∃ s', s.call act.1 act.2 = .ok s' := by
  have i := run_inv hi r
  refine ⟨i.exact, fun act hs hn => (i.sound_step hs hn).imp_right ?_⟩
  rintro ⟨s', he, -⟩
  exact ⟨s', he⟩

theorem run_exact_moved : ∃ h s, parserHeapInit (fun _ => none) 0 = .ok h ∧
    (system h).exec { h with } [(⟨some 1, some 2⟩, .malloc 5), (⟨some 3, some 4⟩, .realloc (some 2) 9)] = some s ∧
    s.live = [4] ∧ Exact (fun _ => none) 0 s := by
  obtain ⟨h, hi⟩ : ∃ h, parserHeapInit (fun _ => none) 0 = .ok h := ⟨_, rfl⟩
  have hi' := hi
  cases hi'
  refine ⟨_, _, rfl, rfl, rfl, (run_exact hi ?_).left⟩
  refine .step (a := (⟨some 3, some 4⟩, .realloc (some 2) 9)) (.step (a := (⟨some 1, some 2⟩, .malloc 5)) .init
    ⟨⟨?_, ?_, ?_⟩, ?_⟩ rfl) ⟨⟨?_, ?_, ?_⟩, ?_⟩ rfl
  all_goals decide

-- There are more blocks than an `int` counts.

theorem exists_step (i : Inv (fun _ => none) self s) (hc : c.Held s.live) (hn : s.numBlocks < 2 ^ 31) :
    ∃ a s', s.Sound (a, c) ∧ s.call a c = .ok s' ∧ s'.numBlocks = s.numBlocks + 1 ∧ s'.live ≠ [] := by
  have ⟨q', hq'⟩ := Infinite.exists_notMem_finset (s.owned self).toFinset
  have ⟨q, hq⟩ := Infinite.exists_notMem_finset (q' :: s.owned self).toFinset
  rw [List.mem_toFinset] at hq hq'
  rcases i.step hc hn q q' with ⟨-, hu | hu⟩ | ⟨s', he, hn', hm, -⟩
  · exact absurd hu (not_or.mpr ⟨hq', not_not.mpr rfl⟩)
  · exact absurd hu (not_or.mpr ⟨hq, not_not.mpr rfl⟩)
  · exact ⟨_, s', ⟨hc, Option.some_ne_none _, Option.some_ne_none _⟩, he, hn', List.ne_nil_of_mem hm⟩

theorem exists_run {h : Heaps} (hi : parserHeapInit (fun _ => none) self = .ok h) {n : ℕ} (hn : n < 2 ^ 31) :
    ∃ s, (system h).Run (fun s act => s.Sound act ∧ s.numBlocks < 2 ^ 31) s ∧ s.numBlocks = n + 1 ∧ s.live ≠ [] := by
  have next {s} (r : (system h).Run (fun s act => s.Sound act ∧ s.numBlocks < 2 ^ 31) s) (hs : s.numBlocks < 2 ^ 31) :
      ∃ s', (system h).Run (fun s act => s.Sound act ∧ s.numBlocks < 2 ^ 31) s' ∧
        s'.numBlocks = s.numBlocks + 1 ∧ s'.live ≠ [] := by
    have ⟨a, s', ha, he, hs', hne⟩ := exists_step (c := .malloc 1) (run_inv hi r) (by intro p hp; cases hp) hs
    have hstep : (system h).step s (a, .malloc 1) = some s' := congrArg Except.toOption he
    exact ⟨s', r.step ⟨ha, hs⟩ hstep, hs', hne⟩
  induction n with
  | zero       =>
    have ⟨l, ht, hl, _⟩ := inv_init hi
    have h0 : h.numBlocks = 0 := by
      rcases (Owns.nil (fun _ => none)).malloc self 24 with ⟨he, -⟩ | ⟨m, he, -⟩
      · rw [parserHeapInit, he] at hi
        cases hi
      · rw [parserHeapInit, he] at hi
        cases hi
        rfl
    have ⟨s', r, hs', hne⟩ := next .init (by show h.numBlocks < _; omega)
    exact ⟨s', r, hs'.trans (congrArg (· + 1) h0), hne⟩
  | succ n ih =>
    have ⟨s, r, hs, _⟩ := ih (by omega)
    have ⟨s', r', hs', hne⟩ := next r (by omega)
    exact ⟨s', r', by rw [hs', hs, Nat.cast_add, Nat.cast_one], hne⟩

-- After that many blocks the index is negative, and the next block is none of those that are freed.
theorem term_forgets {h : Heaps} {freed : List Address} {m : Address → Option ℕ} (ht : h.turns = 0)
    (he : h.parserHeapTerm self = .ok (freed, m)) : freed = h.blocks.toList ++ [self] := by
  rw [parserHeapTerm, ht] at he
  change (free h.memory h.blocks >>= fun m => free m (some self) >>= fun m => pure (_, m)) = _ at he
  cases h₁ : free h.memory h.blocks with
  | error e =>
    rw [h₁] at he
    cases he
  | ok m₁   =>
    rw [h₁] at he
    change (free m₁ (some self) >>= fun m => pure (_, m)) = _ at he
    cases h₂ : free m₁ (some self) with
    | error e =>
      rw [h₂] at he
      cases he
    | ok m₂   =>
      rw [h₂] at he
      cases he
      rfl

theorem exists_lost (i : Inv (fun _ => none) self s) (hn : s.numBlocks = 2 ^ 31) :
    ∃ a s', s.Sound (a, .malloc 1) ∧ s.call a (.malloc 1) = .ok s' ∧ s'.live = s.live ∧ s'.turns = 0 := by
  obtain ⟨l, ht, -, ho⟩ := i
  have ⟨q, hq⟩ := Infinite.exists_notMem_finset (s.live ++ [self]).toFinset
  rw [List.mem_toFinset] at hq
  rcases ht.parserHeapGrow ho q q with ⟨-, hu⟩ | ⟨h', hg, -, -, hn', -⟩
  · exact absurd hu (not_or.mpr ⟨hq, not_not.mpr rfl⟩)
  · have hl : (l.length : ℤ) = 2 ^ 31 := ht.numBlocks.symm.trans hn
    rw [hl] at hg hn'
    have hr : s.toHeaps.call ⟨some q, some q⟩ (.malloc 1) = .ok (none, h') := by
      rw [Heaps.call, parserMalloc, Heaps.register, hg]
      rfl
    refine ⟨⟨some q, some q⟩, { h' with live := s.live }, ⟨?_, ?_, ?_⟩, ?_, rfl, ?_⟩
    · intro p hp
      cases hp
    · exact Option.some_ne_none _
    · exact Option.some_ne_none _
    · rw [Parsing.call, hr]
      rfl
    · rw [turns]
      show (int (size_t (h'.numBlocks - 1)) + 1).toNat = 0
      rw [hn']
      rfl

theorem not_exact_beyond : ¬ ∀ (others : Address → Option ℕ) (self : Address) (h : Heaps) (s : Parsing),
    parserHeapInit others self = .ok h → (system h).Run Sound s → Exact others self s := by
  intro hall
  obtain ⟨h, hi⟩ : ∃ h, parserHeapInit (fun _ => none) 0 = .ok h := ⟨_, rfl⟩
  have ⟨s, r, hn, hne⟩ := exists_run hi (n := 2 ^ 31 - 1) (by omega)
  have ⟨a, s', hs, he, hl, ht⟩ := exists_lost (run_inv hi r) (hn.trans (by omega))
  have hstep : (system h).step s (a, .malloc 1) = some s' := congrArg Except.toOption he
  have hx := hall _ _ _ s' hi ((r.mono fun _ _ ho => ho.left).step hs hstep)
  have hf := term_forgets ht hx.frees
  rw [List.append_assoc, List.append_left_eq_self, List.reverse_eq_nil_iff, hl] at hf
  exact hne hf

end Parsing
end Sfcc
