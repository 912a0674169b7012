import Sfcc.Lib.Chaining
import Sfcc.HashTable
import Sfcc.Theorems.Cmpi.Named

namespace Sfcc.HashTable

open Chaining
open Located (addr)

variable {K V : Type}

-- The comparison of the keys is an equivalence which the hash function respects.
structure Lawful (s : Setup K V) : Prop where
  equiv : Equivalence fun k k' => s.keycmp k k' = true
  hash  : ∀ {k k'}, s.keycmp k k' = true → s.hashFunction k = s.hashFunction k'

structure Valid (t : HashTable K V) : Prop where
  lawful   : Lawful t.toSetup
  pos      : 0 < t.numOfBuckets
  placed   : Placed (fun p => t.hashValue p.key t.numOfBuckets) t.bucketArray
  distinct : Distinct t.keycmp KeyValuePair.key t.pairs
  size     : t.numOfElements = t.pairs.length

variable {t : HashTable K V} {k k' : K} {v : V} {p : KeyValuePair K V} {l l' rest : List (KeyValuePair K V)} {i n : ℕ}

-- What a list of pairs has for a key.
def lookup (same : K → K → Bool) (l : List (KeyValuePair K V)) (k : K) : Option V :=
  (l.find? fun p => same k p.key).map (·.value)

theorem lookup_cons (same : K → K → Bool) :
    lookup same (p :: l) k = if same k p.key then some p.value else lookup same l k := by
  rw [lookup, List.find?_cons]
  cases same k p.key <;> rfl

theorem Lawful.hashValue (h : Lawful t.toSetup) (hk : t.keycmp k k' = true) :
    t.hashValue k n = t.hashValue k' n := by
  rw [HashTable.hashValue, h.hash hk, HashTable.hashValue]

namespace Valid

variable (h : Valid t)

include h

theorem slot_lt (k : K) : t.hashValue k t.numOfBuckets < t.bucketArray.length :=
  Nat.mod_lt _ h.pos

-- The bucket of a key beside the pairs in the other ones.
theorem exists_others (k : K) : ∃ rest, t.pairs.Perm (t.bucket k ++ rest) ∧
    ∀ f, (t.bucketArray.modify (t.hashValue k t.numOfBuckets) f).flatten.Perm (f (t.bucket k) ++ rest) := by
  have ⟨rest, hr⟩ := exists_rest (h.slot_lt k)
  have hp := hr id
  rw [List.modify_id] at hp
  exact ⟨rest, hp, hr⟩

theorem not_mem_others (hp : t.pairs.Perm (t.bucket k ++ rest)) : ∀ p ∈ rest, t.keycmp k p.key = false := by
  intro p hr
  refine Bool.eq_false_iff.mpr fun hk => ?_
  have hb : p ∈ t.bucket k := by
    have hm := mem_bucket h.placed (hp.mem_iff.mpr (List.mem_append_right _ hr))
    rwa [← h.lawful.hashValue hk] at hm
  have hd := (List.pairwise_append.mp (h.distinct.perm h.lawful.equiv hp)).right.right p hb p hr
  rw [h.lawful.equiv.refl p.key] at hd
  cases hd

theorem find?_bucket (k : K) :
    (t.bucket k).find? (fun p => t.keycmp k p.key) = t.pairs.find? fun p => t.keycmp k p.key := by
  have ⟨rest, hp, _⟩ := h.exists_others k
  have hr : rest.find? (fun p => t.keycmp k p.key) = none :=
    List.find?_eq_none.mpr fun p hm => Bool.not_eq_true _ ▸ h.not_mem_others hp p hm
  rw [find?_perm h.lawful.equiv h.distinct hp, List.find?_append, hr, Option.or_none]

theorem get_eq (k : K) : t.get k = lookup t.keycmp t.pairs k := by
  rw [get, h.find?_bucket, lookup]

theorem get_eq_some : t.get k = some v ↔ ∃ p ∈ t.pairs, t.keycmp k p.key = true ∧ p.value = v := by
  rw [h.get_eq, lookup, Option.map_eq_some_iff]
  refine exists_congr fun p => ?_
  rw [find?_eq_some h.lawful.equiv h.distinct, and_assoc]

theorem lookup_perm (hp : t.pairs.Perm l) : t.get k = lookup t.keycmp l k := by
  rw [h.get_eq, lookup, find?_perm h.lawful.equiv h.distinct hp, lookup]

end Valid

-- What a table has, and what was released on the way to it.
structure Holds (t : HashTable K V) (s : Setup K V) (l : List (KeyValuePair K V)) (r : List Dealloc) :
    Prop where
  valid    : Valid t
  setup    : t.toSetup = s
  pairs    : t.pairs.Perm l
  released : t.released = r

theorem le_nextProbablePrime (n : ℕ) : n ≤ nextProbablePrime n := by
  fun_induction nextProbablePrime n with
  | case1 n _    => exact Nat.le_refl n
  | case2 n _ hi => exact (Nat.le_add_right n 2).trans hi

theorem calculateIdealNumOfBuckets_pos : 0 < t.calculateIdealNumOfBuckets := by
  refine Nat.lt_of_lt_of_le ?_ (le_nextProbablePrime _)
  split
  case isTrue  => decide
  case isFalse => exact Nat.lt_of_lt_of_le Nat.one_pos Nat.right_le_or

theorem rehashed_eq (n : ℕ) :
    t.rehashed n = spread (fun p => t.hashValue p.key n) (.replicate n []) t.pairs := by
  rw [rehashed, spread, pairs, List.foldl_flatten]

-- A rehash moves the pairs, and nothing else changes.
theorem Valid.rehash (h : Valid t) (n : ℕ) (malloc : Bool) :
    Holds (t.rehash n malloc) t.toSetup t.pairs t.released ∧
    (t.rehash n malloc).numOfElements = t.numOfElements := by
  have hh : Holds t t.toSetup t.pairs t.released := ⟨h, rfl, .rfl, rfl⟩
  rw [HashTable.rehash]
  generalize hm : (if n = 0 then t.calculateIdealNumOfBuckets else n) = m
  have hpos : 0 < m := by
    rw [← hm]
    split
    case isTrue       => exact calculateIdealNumOfBuckets_pos
    case isFalse hn   => exact Nat.pos_of_ne_zero hn
  split
  case isTrue => exact ⟨hh, rfl⟩
  split
  case isFalse => exact ⟨hh, rfl⟩
  have hl : (t.rehashed m).length = m := by rw [rehashed_eq, spread_length, List.length_replicate]
  have hp : (t.rehashed m).flatten.Perm t.pairs := by
    rw [rehashed_eq]
    refine (spread_perm fun p _ => ?_).trans (by simp)
    rw [List.length_replicate]
    exact Nat.mod_lt _ hpos
  have hv : Valid { t with bucketArray := t.rehashed m } := {
    lawful   := h.lawful
    pos      := Nat.lt_of_lt_of_eq hpos hl.symm
    placed   := by
      rw [numOfBuckets, hl, rehashed_eq]
      exact spread_placed placed_replicate
    distinct := h.distinct.perm h.lawful.equiv hp.symm
    size     := h.size.trans hp.length_eq.symm }
  exact ⟨⟨hv, rfl, hp, rfl⟩, rfl⟩

section Release

variable (s : Setup K V) (t : HashTable K V)

-- What the deallocators are called with for a key, a value and a pair.

def freedKey [Located K] (key : K) : List Dealloc :=
  if s.keyDeallocator then [.key (addr key)] else []

def freedValue [Located V] (value : V) : List Dealloc :=
  if s.valueDeallocator then [.value (addr value)] else []

theorem releaseKey_eq [Located K] (key : K) :
    t.releaseKey key = { t with released := t.released ++ freedKey t.toSetup key } := by
  rw [releaseKey, freedKey]
  cases t.keyDeallocator
  · simp
  · rfl

theorem releaseValue_eq [Located V] (value : V) :
    t.releaseValue value = { t with released := t.released ++ freedValue t.toSetup value } := by
  rw [releaseValue, freedValue]
  cases t.valueDeallocator
  · simp
  · rfl

variable [Located K] [Located V]

def freed (p : KeyValuePair K V) : List Dealloc :=
  freedKey s p.key ++ freedValue s p.value

theorem release_eq (p : KeyValuePair K V) :
    t.release p = { t with released := t.released ++ freed t.toSetup p } := by
  rw [release, releaseKey_eq, releaseValue_eq, freed, List.append_assoc]

theorem releaseAll_eq : t.releaseAll = { t with released := t.released ++ t.pairs.flatMap (freed t.toSetup) } := by
  rw [releaseAll, ← List.foldl_flatten, ← pairs]
  generalize t.pairs = l
  induction l generalizing t with
  | nil         => simp
  | cons p l hi => rw [List.foldl_cons, hi, release_eq, List.flatMap_cons, List.append_assoc]

end Release

-- A change of the bucket of a key.
theorem Valid.modify {f : List (KeyValuePair K V) → List (KeyValuePair K V)} {r : List Dealloc} {m : ℕ}
    (h : Valid t) (hf : ∀ p ∈ f (t.bucket k), t.hashValue p.key t.numOfBuckets = t.hashValue k t.numOfBuckets)
    (hl : (t.bucketArray.modify (t.hashValue k t.numOfBuckets) f).flatten.Perm l)
    (hd : Distinct t.keycmp KeyValuePair.key l) (hm : m = l.length) :
    Holds { t with
      bucketArray   := t.bucketArray.modify (t.hashValue k t.numOfBuckets) f
      numOfElements := m
      released      := r } t.toSetup l r where
  valid := {
    lawful   := h.lawful
    pos      := by
      rw [numOfBuckets, List.length_modify]
      exact h.pos
    placed   := by
      intro i b hb p hm
      have hp := h.placed.modify hf i b hb p hm
      exact (congrArg (t.hashValue p.key) (List.length_modify ..)).trans hp
    distinct := hd.perm h.lawful.equiv hl.symm
    size     := hm.trans hl.length_eq.symm }
  setup    := rfl
  pairs    := hl
  released := rfl

-- What a search in a bucket finds.
theorem Valid.found (h : Valid t) (hi : (t.bucket k).findIdx? (fun p => t.keycmp k p.key) = some i) :
    ∃ l₁ p l₂ rest, Found (t.bucket k) i l₁ p l₂ ∧ t.keycmp k p.key = true ∧ t.pairs.Perm (p :: rest) ∧
    (∀ q, (t.bucketArray.modify (t.hashValue k t.numOfBuckets) (·.modify i fun _ => q)).flatten.Perm (q :: rest)) ∧
    (t.bucketArray.modify (t.hashValue k t.numOfBuckets) (·.eraseIdx i)).flatten.Perm rest := by
  have ⟨rest, hp, hr⟩ := h.exists_others k
  have ⟨l₁, p, l₂, hf, hk⟩ := exists_found hi
  have hm (q : KeyValuePair K V) : (l₁ ++ q :: l₂ ++ rest).Perm (q :: (l₁ ++ l₂ ++ rest)) := by
    rw [List.append_assoc, List.append_assoc, List.cons_append]
    exact List.perm_middle
  refine ⟨l₁, p, l₂, l₁ ++ l₂ ++ rest, hf, hk, ?_, fun q => ?_, ?_⟩
  · exact (hf.eq ▸ hp).trans (hm p)
  · exact (hf.modify (fun _ => q) ▸ hr (·.modify i fun _ => q)).trans (hm q)
  · exact hf.erase ▸ hr (·.eraseIdx i)

theorem Valid.mem_bucket (h : Valid t) (hp : p ∈ t.bucket k) :
    t.hashValue p.key t.numOfBuckets = t.hashValue k t.numOfBuckets :=
  h.placed.bucket hp

theorem Valid.not_found (h : Valid t) (hi : (t.bucket k).findIdx? (fun p => t.keycmp k p.key) = none) :
    ∀ p ∈ t.pairs, t.keycmp k p.key = false := by
  have ⟨rest, hp, _⟩ := h.exists_others k
  intro p hm
  rcases List.mem_append.mp (hp.mem_iff.mp hm) with hb | hr
  · exact List.findIdx?_eq_none_iff.mp hi p hb
  · exact h.not_mem_others hp p hr

theorem Distinct.replace (h : Lawful t.toSetup) {q : KeyValuePair K V} (hk : t.keycmp p.key q.key = true)
    (hd : Distinct t.keycmp KeyValuePair.key (p :: l)) : Distinct t.keycmp KeyValuePair.key (q :: l) := by
  have ⟨hp, hl⟩ := List.pairwise_cons.mp hd
  exact List.pairwise_cons.mpr ⟨fun a ha => same_congr h.equiv hk a.key ▸ hp a ha, hl⟩

section Put

variable [Located K] [Located V]

def superseded (s : Setup K V) (p : KeyValuePair K V) (key : K) (value : V) : List Dealloc :=
  (if addr p.key ≠ addr key then freedKey s p.key else []) ++ if addr p.value ≠ addr value then freedValue s p.value else []

theorem supersede_eq (t : HashTable K V) (p : KeyValuePair K V) (key : K) (value : V) :
    t.supersede p key value = { t with released := t.released ++ superseded t.toSetup p key value } := by
  simp only [supersede, superseded, releaseKey_eq, releaseValue_eq]
  split <;> split <;> simp

-- What a call of `put` does.
inductive Put (t : HashTable K V) (key : K) (value : V) (pairMalloc malloc : Bool) : ℤ × HashTable K V → Prop
  | replaced (p rest t') : t.keycmp key p.key = true → t.pairs.Perm (p :: rest) →
    Holds t' t.toSetup (⟨key, value⟩ :: rest) (t.released ++ superseded t.toSetup p key value) →
    t'.numOfBuckets = t.numOfBuckets → Put t key value pairMalloc malloc (0, t')
  | added (t' t₁) : pairMalloc = true → (∀ p ∈ t.pairs, t.keycmp key p.key = false) →
    Holds t₁ t.toSetup (⟨key, value⟩ :: t.pairs) t.released → t₁.numOfBuckets = t.numOfBuckets →
    t' = (if t₁.upperRehashThreshold > t₁.idealRatio ∧ t₁.elementToBucketRatio > t₁.upperRehashThreshold then
      t₁.rehash 0 malloc else t₁) → Put t key value pairMalloc malloc (0, t')
  | failed : pairMalloc = false → (∀ p ∈ t.pairs, t.keycmp key p.key = false) →
    Put t key value pairMalloc malloc (-1, t)

theorem Valid.put (h : Valid t) (key : K) (value : V) (pairMalloc malloc : Bool) :
    Put t key value pairMalloc malloc (t.put key value pairMalloc malloc) := by
  cases hi : (t.bucket key).findIdx? fun p => t.keycmp key p.key with
  | some i =>
    have ⟨l₁, p, l₂, rest, hf, hk, hp, hm, _⟩ := h.found hi
    have he : t.put key value pairMalloc malloc = (0, { t with
        bucketArray := t.bucketArray.modify (t.hashValue key t.numOfBuckets) (·.modify i fun _ => ⟨key, value⟩)
        released    := t.released ++ superseded t.toSetup p key value }) := by
      simp only [HashTable.put, hi, hf.get, Option.elim_some, supersede_eq]
    have hd := Distinct.replace (q := ⟨key, value⟩) h.lawful (h.lawful.equiv.symm hk) (h.distinct.perm h.lawful.equiv hp)
    rw [he]
    refine .replaced p rest _ hk hp (h.modify (fun q hq => ?_) (hm _) hd (h.size.trans hp.length_eq)) ?_
    · rw [hf.modify] at hq
      rcases List.mem_append.mp hq with hq | hq
      · exact h.mem_bucket (hf.eq ▸ List.mem_append_left _ hq)
      · rcases List.mem_cons.mp hq with rfl | hq
        · rfl
        · exact h.mem_bucket (hf.eq ▸ List.mem_append_right _ (List.mem_cons_of_mem _ hq))
    · exact List.length_modify ..
  | none   =>
    have hn := h.not_found hi
    rw [HashTable.put, hi]
    cases pairMalloc with
    | false => exact .failed rfl hn
    | true  =>
      have ⟨rest, hp, hr⟩ := h.exists_others key
      have hl := (hr (⟨key, value⟩ :: ·)).trans (hp.symm.cons _)
      have hd : Distinct t.keycmp KeyValuePair.key (⟨key, value⟩ :: t.pairs) := List.pairwise_cons.mpr ⟨hn, h.distinct⟩
      have hs : t.numOfElements + 1 = t.pairs.length + 1 := congrArg (· + 1) h.size
      have hh := h.modify (r := t.released) (m := t.numOfElements + 1)
        (fun q hq => (List.mem_cons.mp hq).elim (· ▸ rfl) h.placed.bucket) hl hd hs
      simp only [if_true, ← apply_ite (Prod.mk (0 : ℤ))]
      exact .added _ _ rfl hn hh (List.length_modify ..) rfl

end Put

-- What a call of `remove` does.
inductive Remove [Located K] [Located V] (t : HashTable K V) (key : K) (malloc : Bool) : HashTable K V → Prop
  | absent : (∀ p ∈ t.pairs, t.keycmp key p.key = false) → Remove t key malloc t
  | removed (p rest t' t₁) : t.keycmp key p.key = true → t.pairs.Perm (p :: rest) →
    Holds t₁ t.toSetup rest (t.released ++ freed t.toSetup p) → t₁.numOfBuckets = t.numOfBuckets →
    t' = (if t₁.lowerRehashThreshold > 0 ∧ t₁.elementToBucketRatio < t₁.lowerRehashThreshold then
      t₁.rehash 0 malloc else t₁) → Remove t key malloc t'

theorem Valid.remove [Located K] [Located V] (h : Valid t) (key : K) (malloc : Bool) : Remove t key malloc (t.remove key malloc) := by
  cases hi : (t.bucket key).findIdx? fun p => t.keycmp key p.key with
  | none   =>
    rw [HashTable.remove, hi]
    exact .absent (h.not_found hi)
  | some i =>
    have ⟨l₁, p, l₂, rest, hf, hk, hp, _, he⟩ := h.found hi
    have hd := (List.pairwise_cons.mp (h.distinct.perm h.lawful.equiv hp)).right
    have hs : t.numOfElements - 1 = rest.length := by
      rw [h.size, hp.length_eq]
      rfl
    simp only [HashTable.remove, hi, hf.get, Option.elim_some, release_eq]
    refine .removed p rest _ _ hk hp (h.modify (fun q hq => ?_) he hd hs) (List.length_modify ..) rfl
    rw [hf.erase] at hq
    rcases List.mem_append.mp hq with hq | hq
    · exact h.mem_bucket (hf.eq ▸ List.mem_append_left _ hq)
    · exact h.mem_bucket (hf.eq ▸ List.mem_append_right _ (List.mem_cons_of_mem _ hq))

theorem pairs_create (s : Setup K V) (n : ℕ) : (create s n).pairs = [] :=
  List.flatten_replicate_nil

theorem valid_create {s : Setup K V} (hs : Lawful s) (hn : 0 < n) (r : List Dealloc) :
    Valid { create s n with released := r } where
  lawful   := hs
  pos      := Nat.lt_of_lt_of_eq hn List.length_replicate.symm
  placed   := placed_replicate
  distinct := (pairs_create s n).symm ▸ List.Pairwise.nil
  size     := congrArg List.length (pairs_create s n).symm

theorem Valid.removeAll [Located K] [Located V] (h : Valid t) (malloc : Bool) :
    Holds (t.removeAll malloc) t.toSetup [] (t.released ++ t.pairs.flatMap (freed t.toSetup)) := by
  have ⟨⟨hv, hs, hp, hr⟩, _⟩ :=
    (valid_create h.lawful h.pos (t.released ++ t.pairs.flatMap (freed t.toSetup))).rehash 5 malloc
  have hb : (t.bucketArray.map fun _ => ([] : List (KeyValuePair K V))) = .replicate t.numOfBuckets [] :=
    List.map_const' ..
  simp only [HashTable.removeAll, releaseAll_eq, hb]
  exact ⟨hv, hs, hp.trans (.of_eq (pairs_create t.toSetup t.numOfBuckets)), hr⟩

-- A rehash behind a call that holds something.
theorem Holds.rehash {s : Setup K V} {r : List Dealloc} (h : Holds t s l r) (n : ℕ) (malloc : Bool) :
    Holds (t.rehash n malloc) s l r := by
  have ⟨⟨hv, hs, hp, hr⟩, _⟩ := h.valid.rehash n malloc
  exact ⟨hv, hs.trans h.setup, hp.trans h.pairs, hr.trans h.released⟩

theorem Holds.ite_rehash {s : Setup K V} {r : List Dealloc} (h : Holds t s l r) (c : Prop) [Decidable c]
    (malloc : Bool) : Holds (if c then t.rehash 0 malloc else t) s l r := by
  split
  · exact h.rehash 0 malloc
  · exact h

theorem Holds.get_eq {s : Setup K V} {r : List Dealloc} (h : Holds t s l r) (k : K) :
    t.get k = lookup s.keycmp l k :=
  h.setup ▸ h.valid.lookup_perm h.pairs

theorem lookup_none (same : K → K → Bool) (h : ∀ p ∈ l, same k p.key = false) : lookup same l k = none := by
  rw [lookup, List.find?_eq_none.mpr fun p hp => Bool.not_eq_true _ ▸ h p hp]
  rfl

theorem Valid.get_none (h : Valid t) (hn : ∀ p ∈ t.pairs, t.keycmp k p.key = false) : t.get k = none :=
  (h.get_eq k).trans (lookup_none _ hn)

theorem Valid.get_some (h : Valid t) (hk : t.keycmp k p.key = true) (hp : t.pairs.Perm (p :: rest)) :
    t.get k = some p.value :=
  h.get_eq_some.mpr ⟨p, hp.mem_iff.mpr List.mem_cons_self, hk, rfl⟩

-- What the pairs beside one have for a key.
theorem Valid.lookup_rest (h : Valid t) (hk : t.keycmp k p.key = true) (hp : t.pairs.Perm (p :: rest)) (k' : K) :
    lookup t.keycmp rest k' = if t.keycmp k' k then none else t.get k' := by
  have hs : t.keycmp k' k = t.keycmp k' p.key := by
    rw [same_comm h.lawful.equiv, same_congr h.lawful.equiv hk, same_comm h.lawful.equiv]
  rw [h.lookup_perm hp, lookup_cons, hs]
  split
  case isFalse => rfl
  case isTrue hk' =>
    refine lookup_none _ fun q hq => ?_
    have hd := (List.pairwise_cons.mp (h.distinct.perm h.lawful.equiv hp)).left q hq
    exact (same_congr h.lawful.equiv hk' q.key).trans hd

section Runs

-- The calls that change a table, with what `malloc` answers.
inductive Call (K V : Type)
  | put (key : K) (value : V) (pairMalloc malloc : Bool)
  | remove (key : K) (malloc : Bool)
  | removeAll (malloc : Bool)
  | rehash (numOfBuckets : ℕ) (malloc : Bool)

-- What a call means for the map from the keys to their values.
def Call.effect (same : K → K → Bool) (m : K → Option V) : Call K V → K → Option V
  | .put key value pairMalloc _, k =>
    if (pairMalloc ∨ (m key).isSome) ∧ same k key then some value else m k
  | .remove key _, k               => if same k key then none else m k
  | .removeAll _, _                => none
  | .rehash _ _, k                 => m k

-- The map that the calls of a run make, beginning with the empty one.
def meaning (same : K → K → Bool) (cs : List (Call K V)) : K → Option V :=
  cs.foldl (fun m c => c.effect same m) fun _ => none

theorem meaning_concat (same : K → K → Bool) (cs : List (Call K V)) (c : Call K V) :
    meaning same (cs ++ [c]) = c.effect same (meaning same cs) :=
  List.foldl_concat ..

variable [Located K] [Located V]

def call (t : HashTable K V) : Call K V → HashTable K V
  | .put key value pairMalloc malloc => (t.put key value pairMalloc malloc).2
  | .remove key malloc               => t.remove key malloc
  | .removeAll malloc                => t.removeAll malloc
  | .rehash numOfBuckets malloc      => t.rehash numOfBuckets malloc

-- One step of a run.
theorem Valid.call (h : Valid t) (c : Call K V) :
    Valid (t.call c) ∧ (t.call c).toSetup = t.toSetup ∧ ∀ k, (t.call c).get k = c.effect t.keycmp t.get k := by
  cases c with
  | put key value pairMalloc malloc =>
    have hc := h.put key value pairMalloc malloc
    simp only [HashTable.call, Call.effect]
    generalize t.put key value pairMalloc malloc = r at hc
    cases hc with
    | replaced p rest t' hk hp hh _ =>
      refine ⟨hh.valid, hh.setup, fun k => ?_⟩
      rw [hh.get_eq, lookup_cons, h.lookup_rest hk hp, h.get_some hk hp]
      simp only [Option.isSome_some, or_true, true_and]
      split <;> rfl
    | added t' t₁ hm hn hh _ he     =>
      have hh : Holds t' t.toSetup _ _ := he ▸ hh.ite_rehash _ _
      refine ⟨hh.valid, hh.setup, fun k => ?_⟩
      rw [hh.get_eq, lookup_cons, ← h.get_eq]
      simp only [hm, true_or, true_and]
    | failed hm hn                  =>
      refine ⟨h, rfl, fun k => ?_⟩
      rw [h.get_none hn, hm]
      simp
  | remove key malloc               =>
    have hc := h.remove key malloc
    simp only [HashTable.call, Call.effect]
    generalize t.remove key malloc = t' at hc
    cases hc with
    | absent hn                          =>
      refine ⟨h, rfl, fun k => ?_⟩
      split
      case isTrue hk  =>
        exact h.get_none fun p hp => (same_congr h.lawful.equiv hk p.key).trans (hn p hp)
      case isFalse    => rfl
    | removed p rest t' t₁ hk hp hh _ he =>
      have hh : Holds t' t.toSetup _ _ := he ▸ hh.ite_rehash _ _
      exact ⟨hh.valid, hh.setup, fun k => (hh.get_eq k).trans (h.lookup_rest hk hp k)⟩
  | removeAll malloc                =>
    have hh := h.removeAll malloc
    exact ⟨hh.valid, hh.setup, fun k => hh.get_eq k⟩
  | rehash n malloc                 =>
    have hh := (h.rehash n malloc).left
    exact ⟨hh.valid, hh.setup, fun k => (hh.get_eq k).trans (h.get_eq k).symm⟩

def run (t : HashTable K V) (cs : List (Call K V)) : HashTable K V :=
  cs.foldl call t

theorem run_concat (t : HashTable K V) (cs : List (Call K V)) (c : Call K V) :
    run t (cs ++ [c]) = (run t cs).call c :=
  List.foldl_concat ..

-- A run keeps a table valid, and the table has what the calls mean.
theorem run_create {s : Setup K V} (hs : Lawful s) (hn : 0 < n) (cs : List (Call K V)) :
    Valid (run (create s n) cs) ∧ (run (create s n) cs).toSetup = s ∧
    (run (create s n) cs).get = meaning s.keycmp cs := by
  induction cs using List.reverseRecOn with
  | nil                  =>
    have hv : Valid (create s n) := valid_create hs hn []
    refine ⟨hv, rfl, funext fun k => hv.get_none fun p hp => ?_⟩
    rw [pairs_create s n] at hp
    cases hp
  | append_singleton cs c hi =>
    have ⟨hv, he, hg⟩ := hi
    have ⟨hv, hc, hm⟩ := hv.call c
    rw [he] at hm
    rw [run_concat, meaning_concat, ← hg]
    exact ⟨hv, hc.trans he, funext hm⟩

end Runs

-- The functions of the library.

theorem toupper_lower (b : UInt8) : toupper (if 65 ≤ b ∧ b ≤ 90 then b + 32 else b) = toupper b := by
  rw [toupper, toupper]
  split
  case isFalse => rfl
  case isTrue  => grind

theorem charIcHashFunction_eq (p : Pointer) :
    charIcHashFunction p = p.text.lower.foldl (fun n b => n * 37 + (toupper b).toUInt64) 0 := by
  simp only [charIcHashFunction, Text.lower, List.foldl_map, toupper_lower]

theorem lawful_char {s : Setup Pointer Pointer} (hc : s.keycmp = charCmpFunction)
    (hh : s.hashFunction = charHashFunction) : Lawful s where
  equiv        := by
    simp only [hc, charCmpFunction, decide_eq_true_eq]
    exact ⟨fun _ => rfl, Eq.symm, Eq.trans⟩
  hash {k k'} h := by
    rw [hc, charCmpFunction, decide_eq_true_eq] at h
    rw [hh, charHashFunction, h, charHashFunction]

theorem lawful_charIc {s : Setup Pointer Pointer} (hc : s.keycmp = charIcCmpFunction)
    (hh : s.hashFunction = charIcHashFunction) : Lawful s where
  equiv        := by
    simp only [hc, charIcCmpFunction, sameIgnoringCase_iff]
    exact ⟨fun _ => rfl, Eq.symm, Eq.trans⟩
  hash {k k'} h := by
    rw [hc, charIcCmpFunction, sameIgnoringCase_iff] at h
    rw [hh, charIcHashFunction_eq, h, charIcHashFunction_eq]

theorem lawful_ptr {s : Setup Pointer Pointer} (hc : s.keycmp = ptrCmpFunction)
    (hh : s.hashFunction = pointerHashFunction) : Lawful s where
  equiv        := by
    simp only [hc, ptrCmpFunction, decide_eq_true_eq]
    exact ⟨fun _ => rfl, Eq.symm, Eq.trans⟩
  hash {k k'} h := by
    rw [hc, ptrCmpFunction, decide_eq_true_eq] at h
    rw [hh, pointerHashFunction, h, pointerHashFunction]

theorem newHashTable_lawful (buckets : ℕ) (opt : UInt64) : Lawful (newHashTable buckets opt).toSetup := by
  rw [newHashTable]
  by_cases ht : opt &&& UtilHashTable_charKey ≠ 0 ∨ opt &&& UtilHashTable_CMPIStringKey ≠ 0
  · by_cases hi : opt &&& UtilHashTable_ignoreKeyCase ≠ 0
    · exact lawful_charIc (by simp [create, ht, hi]) (by simp [create, ht, hi])
    · exact lawful_char (by simp [create, ht, hi]) (by simp [create, ht, hi])
  · exact lawful_ptr (by simp [create, ht]) (by simp [create, ht])

-- The tables that the library makes, with at least one bucket.
inductive Made : HashTable Pointer Pointer → Prop
  | default {buckets} : 0 < buckets → Made (newHashTableDefault buckets)
  | options {buckets} (opt) : 0 < buckets → Made (newHashTable buckets opt)

theorem Made.create {t : HashTable Pointer Pointer} (h : Made t) :
    ∃ n, 0 < n ∧ Lawful t.toSetup ∧ t = create t.toSetup n := by
  cases h with
  | default hb     => exact ⟨_, hb, lawful_char rfl rfl, rfl⟩
  | options opt hb => exact ⟨_, hb, newHashTable_lawful _ opt, rfl⟩

theorem Made.run {t : HashTable Pointer Pointer} (h : Made t) (cs : List (Call Pointer Pointer)) :
    Valid (t.run cs) ∧ (t.run cs).toSetup = t.toSetup ∧ (t.run cs).get = meaning t.keycmp cs := by
  have ⟨n, hn, hl, ht⟩ := h.create
  rw [ht]
  exact run_create hl hn cs

-- A table that answers as a map does.
structure Refines [Located K] [Located V] (t : HashTable K V) (m : K → Option V) : Prop where
  get           : ∀ k, t.get k = m k
  containsKey   : ∀ k, t.containsKey k = (m k).isSome
  containsValue : ∀ v, t.containsValue v = true ↔ ∃ k w, m k = some w ∧ t.valuecmp v w = true
  size          : ∃ keys, Distinct t.keycmp id keys ∧ t.size = int keys.length ∧
    ∀ k, (m k).isSome = true ↔ ∃ k' ∈ keys, t.keycmp k k' = true
  isEmpty       : t.isEmpty = true ↔ ∀ k, m k = none
  put           : ∀ k v pairMalloc malloc,
    (t.put k v pairMalloc malloc).1 = if pairMalloc ∨ (m k).isSome then 0 else -1

theorem Valid.isSome_get (h : Valid t) : (t.get k).isSome = true ↔ ∃ p ∈ t.pairs, t.keycmp k p.key = true := by
  rw [Option.isSome_iff_exists]
  refine ⟨fun ⟨v, hv⟩ => ?_, fun ⟨p, hp, hk⟩ => ⟨p.value, h.get_eq_some.mpr ⟨p, hp, hk, rfl⟩⟩⟩
  have ⟨p, hp, hk, _⟩ := h.get_eq_some.mp hv
  exact ⟨p, hp, hk⟩

theorem Valid.get_self (h : Valid t) (hp : p ∈ t.pairs) : t.get p.key = some p.value :=
  h.get_eq_some.mpr ⟨p, hp, h.lawful.equiv.refl p.key, rfl⟩

theorem Valid.refines [Located K] [Located V] (h : Valid t) : Refines t t.get where
  get k           := rfl
  containsKey k   := rfl
  containsValue v := by
    have hc : t.containsValue v = true ↔ ∃ p ∈ t.pairs, t.valuecmp v p.value = true := by
      rw [HashTable.containsValue, ← List.any_flatten, List.any_eq_true, pairs]
    rw [hc]
    constructor
    · intro ⟨p, hp, hv⟩
      exact ⟨p.key, p.value, h.get_self hp, hv⟩
    · intro ⟨k, w, hw, hv⟩
      have ⟨p, hp, _, he⟩ := h.get_eq_some.mp hw
      exact ⟨p, hp, he ▸ hv⟩
  size            := by
    have hd : Distinct t.keycmp id (t.pairs.map (·.key)) := List.pairwise_map.mpr h.distinct
    refine ⟨_, hd, ?_, fun k => ?_⟩
    · rw [List.length_map, HashTable.size, h.size]
    · rw [h.isSome_get]
      simp
  isEmpty         := by
    rw [isEmpty, decide_eq_true_eq, h.size, List.length_eq_zero_iff]
    constructor
    · intro hn k
      exact h.get_none (hn ▸ List.forall_mem_nil _)
    · intro hn
      refine List.eq_nil_iff_forall_not_mem.mpr fun p hp => ?_
      have := hn p.key
      rw [h.get_self hp] at this
      cases this
  put k v pairMalloc malloc := by
    have hc := h.put k v pairMalloc malloc
    generalize t.put k v pairMalloc malloc = r at hc
    cases hc with
    | replaced p rest t' hk hp _ _    => rw [h.get_some hk hp, if_pos (.inr rfl)]
    | added t' t₁ hm                  => rw [if_pos (.inl hm)]
    | failed hm hn                    =>
      rw [h.get_none hn, hm]
      rfl

-- Goes through a table from what an iterator points to, as `getFirst` and `getNext` do.
inductive Visits (t : HashTable K V) : Option (Iterator K V) → List (KeyValuePair K V) → Prop
  | done : Visits t none []
  | next {iter l} : Visits t (t.getNext iter) l → Visits t (some iter) (iter.pair :: l)

theorem Visits.unique {o : Option (Iterator K V)} (h : Visits t o l) (h' : Visits t o l') : l = l' := by
  induction h generalizing l' with
  | done      =>
    cases h'
    rfl
  | next _ hi =>
    cases h' with
    | next h' => rw [hi h']

-- The rest of a bucket, and then the buckets behind it.
theorem visits_bucket {after : List (List (KeyValuePair K V))} (hd : t.bucketArray.drop (i + 1) = after)
    (ha : Visits t (firstFrom (i + 1) after) after.flatten) (p : KeyValuePair K V) (ps : List (KeyValuePair K V)) :
    Visits t (some ⟨i, p, ps⟩) (p :: (ps ++ after.flatten)) := by
  induction ps generalizing p with
  | nil          => exact .next (by rwa [getNext, hd])
  | cons q ps hi => exact .next (hi q)

theorem visits_firstFrom {before bs : List (List (KeyValuePair K V))} (hb : t.bucketArray = before ++ bs) :
    Visits t (firstFrom before.length bs) bs.flatten := by
  induction bs generalizing before with
  | nil          => exact .done
  | cons b bs hi =>
    rw [← List.singleton_append, ← List.append_assoc] at hb
    have hl : (before ++ [b]).length = before.length + 1 := List.length_append
    have hn := hi hb
    have hd := congrArg (List.drop (before ++ [b]).length) hb
    rw [List.drop_left] at hd
    rw [hl] at hn hd
    cases b with
    | nil      => exact hn
    | cons p b => exact visits_bucket hd hn p b

theorem visits_getFirst : Visits t t.getFirst l ↔ l = t.pairs :=
  have h : Visits t t.getFirst t.pairs := visits_firstFrom (List.nil_append _).symm
  ⟨(·.unique h), (· ▸ h)⟩

-- Going through a table ends, and meets each pair once.
theorem run_visits {t : HashTable Pointer Pointer} (h : Made t) (cs : List (Call Pointer Pointer)) :
    ∃ l, (∀ l', Visits (t.run cs) (t.run cs).getFirst l' ↔ l' = l) ∧ Distinct t.keycmp KeyValuePair.key l ∧
      (t.run cs).size = int l.length ∧
      ∀ k v, meaning t.keycmp cs k = some v ↔ ∃ p ∈ l, t.keycmp k p.key = true ∧ p.value = v := by
  have ⟨hv, hs, hg⟩ := h.run cs
  refine ⟨(t.run cs).pairs, fun l' => visits_getFirst, hs ▸ hv.distinct, ?_, fun k v => ?_⟩
  · rw [HashTable.size, hv.size]
  · rw [← hg, hv.get_eq_some, hs]

-- One address with two texts is one key.
def pointerCalls : List (Call Pointer Pointer) :=
  [.put ⟨16, bytes "a"⟩ ⟨32, []⟩ true true, .put ⟨16, bytes "b"⟩ ⟨64, []⟩ true true,
    .put ⟨48, bytes "a"⟩ ⟨64, []⟩ true true, .put ⟨80, bytes "c"⟩ ⟨96, []⟩ true true, .remove ⟨48, bytes "a"⟩ true]

theorem run_visits_pointers : ∃ l : List (KeyValuePair Pointer Pointer),
    (∀ l', Visits (run (newHashTable 3 0) pointerCalls) (run (newHashTable 3 0) pointerCalls).getFirst l' ↔ l' = l) ∧
    Distinct ptrCmpFunction KeyValuePair.key l ∧ (run (newHashTable 3 0) pointerCalls).size = int l.length ∧
    ∀ k v, meaning ptrCmpFunction pointerCalls k = some v ↔ ∃ p ∈ l, ptrCmpFunction k p.key = true ∧ p.value = v :=
  run_visits (.options 0 (by decide)) pointerCalls

-- The pointers that a table has and that it is to give back.
def held [Located K] [Located V] (t : HashTable K V) : List Dealloc :=
  t.pairs.flatMap (freed t.toSetup)

theorem Valid.find? (h : Valid t) (hk : t.keycmp k p.key = true) (hp : t.pairs.Perm (p :: rest)) :
    (t.bucket k).find? (fun p => t.keycmp k p.key) = some p := by
  rw [h.find?_bucket, find?_eq_some h.lawful.equiv h.distinct]
  exact ⟨hp.mem_iff.mpr List.mem_cons_self, hk⟩

theorem Valid.find?_none (h : Valid t) (hn : ∀ p ∈ t.pairs, t.keycmp k p.key = false) :
    (t.bucket k).find? (fun p => t.keycmp k p.key) = none := by
  rw [h.find?_bucket, List.find?_eq_none]
  exact fun p hp => Bool.not_eq_true _ ▸ hn p hp

section Taken

variable [Located K] [Located V]

-- The pointers that a call leaves to the table, of those that the table is to give back.
def taken (t : HashTable K V) : Call K V → List Dealloc
  | .put key value pairMalloc _ =>
    match (t.bucket key).find? fun p => t.keycmp key p.key with
    | some p =>
      (if addr p.key ≠ addr key then freedKey t.toSetup key else []) ++
        if addr p.value ≠ addr value then freedValue t.toSetup value else []
    | none   => if pairMalloc then freed t.toSetup ⟨key, value⟩ else []
  | _                           => []

def takenBy (t : HashTable K V) : List (Call K V) → List Dealloc
  | []      => []
  | c :: cs => t.taken c ++ takenBy (t.call c) cs

-- Permutations are shown by counting what is in the lists.
theorem perm_of_count {a b : List Dealloc} (h : ∀ d, a.count d = b.count d) : a.Perm b :=
  List.perm_iff_count.mpr h

theorem Holds.count {s : Setup K V} {r : List Dealloc} (h : Holds t s l r) (d : Dealloc) :
    (t.released ++ t.held).count d = r.count d + (l.flatMap (freed s)).count d := by
  rw [List.count_append, h.released, HashTable.held, h.setup, (h.pairs.flatMap_right _).count_eq]

theorem count_superseded (s : Setup K V) (p : KeyValuePair K V) (key : K) (value : V) (d : Dealloc) :
    (superseded s p key value).count d + (freed s ⟨key, value⟩).count d = (freed s p).count d +
      ((if addr p.key ≠ addr key then freedKey s key else []) ++ if addr p.value ≠ addr value then freedValue s value else []).count d := by
  simp only [superseded, freed, List.count_append]
  by_cases hk : addr p.key = addr key <;> by_cases hv : addr p.value = addr value <;>
    simp [freedKey, freedValue, hk, hv] <;> omega

-- A pointer that a table has taken is released, or the table has it still.
theorem Valid.conserves (h : Valid t) (c : Call K V) (d : Dealloc) :
    ((t.call c).released ++ (t.call c).held).count d = (t.released ++ t.held).count d + (t.taken c).count d := by
  have hh : Holds t t.toSetup t.pairs t.released := ⟨h, rfl, .rfl, rfl⟩
  have ht := hh.count d
  cases c with
  | put key value pairMalloc malloc =>
    have hc := h.put key value pairMalloc malloc
    simp only [HashTable.call, taken]
    generalize t.put key value pairMalloc malloc = r at hc
    cases hc with
    | replaced p rest t' hk hp hh' _ =>
      have hr := (hp.flatMap_right (freed t.toSetup)).count_eq d
      have hs := count_superseded t.toSetup p key value d
      rw [List.flatMap_cons, List.count_append] at hr
      rw [h.find? hk hp, hh'.count d, ht, List.flatMap_cons, List.count_append, List.count_append]
      dsimp only
      omega
    | added t' t₁ hm hn hh' _ he     =>
      have hh' : Holds t' t.toSetup _ _ := he ▸ hh'.ite_rehash _ _
      rw [h.find?_none hn, hh'.count d, ht, List.flatMap_cons, List.count_append, if_pos hm]
      dsimp only
      omega
    | failed hm hn                   =>
      rw [h.find?_none hn, hm]
      rfl
  | remove key malloc               =>
    have hc := h.remove key malloc
    simp only [HashTable.call, taken]
    generalize t.remove key malloc = t' at hc
    cases hc with
    | absent hn                           => rfl
    | removed p rest t' t₁ hk hp hh' _ he =>
      have hh' : Holds t' t.toSetup _ _ := he ▸ hh'.ite_rehash _ _
      have hr := (hp.flatMap_right (freed t.toSetup)).count_eq d
      rw [List.flatMap_cons, List.count_append] at hr
      rw [hh'.count d, ht, hr, List.count_append, List.count_nil]
      omega
  | removeAll malloc                =>
    rw [HashTable.call, (h.removeAll malloc).count d, ht]
    exact congrArg (· + 0) List.count_append
  | rehash n malloc                 => exact ((h.rehash n malloc).left.count d).trans ht.symm

theorem Valid.conserves_run (h : Valid t) (cs : List (Call K V)) (d : Dealloc) :
    ((t.run cs).released ++ (t.run cs).held).count d = (t.released ++ t.held).count d + (t.takenBy cs).count d := by
  induction cs generalizing t with
  | nil          => rfl
  | cons c cs hi =>
    rw [run, List.foldl_cons, ← run, hi (h.call c).left, h.conserves c d, Nat.add_assoc, takenBy, ← List.count_append]

end Taken

theorem destroy_eq [Located K] [Located V] (t : HashTable K V) : t.destroy = t.released ++ t.held := by
  rw [destroy, releaseAll_eq, held]

-- Every pointer that was left to a table is given back once: until then the table has it, and with the
-- table itself all are given back.
theorem run_releases {t : HashTable Pointer Pointer} (h : Made t) (cs : List (Call Pointer Pointer)) :
    ((t.run cs).released ++ (t.run cs).held).Perm (t.takenBy cs) ∧ (t.run cs).destroy.Perm (t.takenBy cs) := by
  have ⟨n, hn, hl, ht⟩ := h.create
  have hv : Valid t := ht ▸ valid_create hl hn []
  have hp : ((t.run cs).released ++ (t.run cs).held).Perm (t.takenBy cs) := by
    refine perm_of_count fun d => ?_
    have hh : t.held = [] := by
      rw [ht, held, pairs_create]
      rfl
    have hr : t.released = [] := by
      rw [ht]
      rfl
    rw [hv.conserves_run cs d, hh, hr]
    exact Nat.zero_add _
  exact ⟨hp, destroy_eq (t.run cs) ▸ hp⟩

theorem run_releases_replaced :
    let cs := [Call.put ⟨16, bytes "a"⟩ ⟨32, []⟩ true true, .put ⟨48, bytes "a"⟩ ⟨64, []⟩ true true]
    ((run (newHashTableDefault 3) cs).released ++ (run (newHashTableDefault 3) cs).held).Perm
      (takenBy (newHashTableDefault 3) cs) ∧
    (run (newHashTableDefault 3) cs).destroy.Perm (takenBy (newHashTableDefault 3) cs) :=
  run_releases (.default (by decide)) _

-- The number of elements for a number of buckets.

open Single

theorem lt_of_ratio_le {n m : ℕ} (hm : 0 < m) (h : single (single n / single m) ≤ 15) : n < 16 * m := by
  by_contra hn
  have hm : (1 : ℚ) ≤ m := by exact_mod_cast hm
  have hn : (16 * m : ℚ) ≤ n := by exact_mod_cast not_lt.mp hn
  have hu : single m ≤ m * (1 + 1 / 2 ^ 24) := single_le (by linarith)
  have hl : (m : ℚ) * (1 - 1 / 2 ^ 24) ≤ single m := le_single (by linarith)
  have hs : (n : ℚ) * (1 - 1 / 2 ^ 24) ≤ single n := le_single (by linarith)
  have hpos : (0 : ℚ) < single m := by linarith
  have hq : (159 / 10 : ℚ) ≤ single n / single m := by
    rw [le_div_iff₀ hpos]
    linarith
  have := le_single (x := single n / single m) (by linarith)
  linarith

theorem lt_of_ideal {n b : ℕ} (h5 : 5 ≤ b) (hb : ⌊single (single n / 3)⌋.toNat ≤ b) : n < 16 * b := by
  have hs : (n : ℚ) * (1 - 1 / 2 ^ 24) ≤ single n := le_single (Nat.cast_nonneg n)
  have hn : (0 : ℚ) ≤ n := Nat.cast_nonneg n
  have hd : single n / 3 * (1 - 1 / 2 ^ 24) ≤ single (single n / 3) := le_single (by linarith)
  have hf : single (single n / 3) < ⌊single (single n / 3)⌋ + 1 := Int.lt_floor_add_one _
  have hb : (⌊single (single n / 3)⌋ : ℚ) ≤ b := by exact_mod_cast Int.toNat_le.mp hb
  have h5 : (5 : ℚ) ≤ b := by exact_mod_cast h5
  have : (n : ℚ) < 16 * b := by linarith
  exact_mod_cast this

theorem lt_calculateIdealNumOfBuckets (hi : t.idealRatio = 3) : t.numOfElements < 16 * t.calculateIdealNumOfBuckets := by
  have hl := le_nextProbablePrime
    (if ⌊single (single t.numOfElements / t.idealRatio)⌋.toNat < 5 then 5
      else ⌊single (single t.numOfElements / t.idealRatio)⌋.toNat ||| 1)
  rw [← calculateIdealNumOfBuckets] at hl
  rw [hi] at hl
  split at hl
  case isTrue h  => exact lt_of_ideal hl (by omega)
  case isFalse h =>
    have ho : ⌊single (single t.numOfElements / 3)⌋.toNat ≤ ⌊single (single t.numOfElements / 3)⌋.toNat ||| 1 :=
      Nat.left_le_or
    exact lt_of_ideal (by omega) (ho.trans hl)

-- The ratios that a table begins with, and fewer than 16 elements for a bucket.
structure Light (t : HashTable K V) : Prop where
  ideal : t.idealRatio = 3
  lower : t.lowerRehashThreshold = 0
  upper : t.upperRehashThreshold = 15
  few   : t.numOfElements < 16 * t.numOfBuckets

theorem rehash_zero (t : HashTable K V) : (t.rehash 0 true).numOfBuckets = t.calculateIdealNumOfBuckets ∧
    (t.rehash 0 true).numOfElements = t.numOfElements ∧ (t.rehash 0 true).toSetup = t.toSetup := by
  rw [rehash, if_pos rfl]
  split
  case isTrue h  => exact ⟨h.symm, rfl, rfl⟩
  case isFalse h =>
    refine ⟨?_, rfl, rfl⟩
    rw [if_pos rfl, numOfBuckets, rehashed_eq, spread_length, List.length_replicate]

theorem Light.rehash (h : Light t) (malloc : Bool) : Light (t.rehash 0 malloc) := by
  cases malloc with
  | true  =>
    have ⟨hb, hn, hs⟩ := rehash_zero t
    refine ⟨hs ▸ h.ideal, hs ▸ h.lower, hs ▸ h.upper, ?_⟩
    rw [hb, hn]
    exact lt_calculateIdealNumOfBuckets h.ideal
  | false =>
    rw [HashTable.rehash, if_pos rfl]
    split <;> exact h

variable [Located K] [Located V]

-- The calls that rehash by themselves and are not kept from it.
def Call.Automatic : Call K V → Prop
  | .put _ _ _ malloc => malloc = true
  | .rehash n _       => n = 0
  | _                 => True

theorem Light.call (hl : Light t) (h : Valid t) {c : Call K V} (hc : c.Automatic) : Light (t.call c) := by
  cases c with
  | put key value pairMalloc malloc =>
    have hp := h.put key value pairMalloc malloc
    rw [HashTable.call]
    generalize t.put key value pairMalloc malloc = r at hp
    cases hp with
    | replaced p rest t' hk hp hh hb  =>
      have hn : t'.numOfElements = t.numOfElements := by
        rw [hh.valid.size, hh.pairs.length_eq, h.size, hp.length_eq]
        rfl
      exact ⟨hh.setup ▸ hl.ideal, hh.setup ▸ hl.lower, hh.setup ▸ hl.upper, hn ▸ hb ▸ hl.few⟩
    | added t' t₁ hm hn hh hb he      =>
      subst he
      have hi : t₁.idealRatio = 3 := hh.setup ▸ hl.ideal
      have hu : t₁.upperRehashThreshold = 15 := hh.setup ▸ hl.upper
      split
      case isTrue                     =>
        cases hc
        have ⟨hb, hn, hs⟩ := rehash_zero t₁
        have hs := hs.trans hh.setup
        refine ⟨hs ▸ hl.ideal, hs ▸ hl.lower, hs ▸ hl.upper, ?_⟩
        rw [hb, hn]
        exact lt_calculateIdealNumOfBuckets hi
      case isFalse hr                 =>
        refine ⟨hi, hh.setup ▸ hl.lower, hu, lt_of_ratio_le hh.valid.pos (not_lt.mp fun hg => hr ⟨?_, ?_⟩)⟩
        · rw [hu, hi]
          norm_num
        · rw [hu]
          exact hg
    | failed hm hn                    => exact hl
  | remove key malloc               =>
    have hr := h.remove key malloc
    rw [HashTable.call]
    generalize t.remove key malloc = t' at hr
    cases hr with
    | absent hn                          => exact hl
    | removed p rest t' t₁ hk hp hh hb he =>
      have hlow : t₁.lowerRehashThreshold = 0 := hh.setup ▸ hl.lower
      have hn : t₁.numOfElements ≤ t.numOfElements := by
        rw [hh.valid.size, hh.pairs.length_eq, h.size, hp.length_eq]
        exact Nat.le_succ _
      rw [he, if_neg fun hr => absurd hr.left (by rw [hlow]; exact lt_irrefl _)]
      exact ⟨hh.setup ▸ hl.ideal, hlow, hh.setup ▸ hl.upper, hn.trans_lt (hb ▸ hl.few)⟩
  | removeAll malloc                =>
    have hh := h.removeAll malloc
    refine ⟨hh.setup ▸ hl.ideal, hh.setup ▸ hl.lower, hh.setup ▸ hl.upper, ?_⟩
    rw [HashTable.call, hh.valid.size, hh.pairs.length_eq]
    exact Nat.mul_pos (by decide) hh.valid.pos
  | rehash n malloc                 =>
    cases hc
    exact hl.rehash malloc

-- A bucket has fewer than 16 pairs in the mean.
theorem run_light {t : HashTable Pointer Pointer} (h : Made t) {cs : List (Call Pointer Pointer)}
    (hc : ∀ c ∈ cs, c.Automatic) : (t.run cs).numOfElements < 16 * (t.run cs).numOfBuckets := by
  have hl : Light (t.run cs) := by
    induction cs using List.reverseRecOn with
    | nil                  =>
      have ⟨hv, _, _⟩ := h.run []
      cases h <;> exact ⟨rfl, rfl, rfl, Nat.mul_pos (by decide) hv.pos⟩
    | append_singleton cs c hi =>
      have ⟨hcs, hc⟩ := List.forall_mem_append.mp hc
      rw [run_concat]
      exact (hi hcs).call (h.run cs).left (hc c List.mem_cons_self)
  exact hl.few

-- Twenty elements for one bucket, so that the table is rehashed on the way.
def manyCalls : List (Call Pointer Pointer) :=
  (List.range 20).map fun i => .put ⟨16 * i.toUInt64, []⟩ ⟨8, []⟩ true true

theorem run_light_automatic :
    (run (newHashTable 1 0) (manyCalls ++ [.rehash 0 true])).numOfElements <
      16 * (run (newHashTable 1 0) (manyCalls ++ [.rehash 0 true])).numOfBuckets :=
  run_light (.options 0 (by decide)) (by
    intro c hc
    rcases List.mem_append.mp hc with hc | hc
    · obtain ⟨i, _, rfl⟩ := List.mem_map.mp hc
      rfl
    · cases List.mem_singleton.mp hc
      rfl)

end Sfcc.HashTable
