import Sfcc.Theorems.Xml.Scalar

-- What two paths that compare equal have in common.
namespace Sfcc

-- A value that a key can be identified by.
inductive CMPIValue.Held : CMPIType → CMPIValue → Prop
  | string (text : Text) : Held .string (.string text)
  | boolean (b : Bool) : Held .boolean (.boolean b)
  | char16 (c : UInt16) : Held .char16 (.char16 c)
  | integer {type v n} : v.integer = some (type, n) → Held type v
  | ref {p : CMPIObjectPath} : p.classname.isSome → (∀ k ∈ p.keys, Held k.type k.value) → Held .ref (.ref p)

structure NativeCop.Identified (p : CMPIObjectPath) : Prop where
  nameSpace : p.nameSpace.isSome
  classname : p.classname.isSome
  distinct  : Named.Distinct NativeProperty.name p.keys
  held      : ∀ k ∈ p.keys, k.value.Held k.type

-- The keys of two paths are the same if they can be matched by their names.
inductive CMPIValue.Equal : CMPIValue → CMPIValue → Prop
  | plain {v : CMPIValue} : v.Plain → Equal v v
  | ref {p q : CMPIObjectPath} {keys : List (NativeProperty CMPIValue)} :
    p.nameSpace.map Text.lower = q.nameSpace.map Text.lower →
    p.classname.map Text.lower = q.classname.map Text.lower →
    keys.Perm q.keys →
    List.Forall₂ (fun k k' => k.name.lower = k'.name.lower ∧ k.type = k'.type) p.keys keys →
    (∀ x ∈ p.keys.zip keys, Equal x.1.value x.2.value) → Equal (.ref p) (.ref q)

section

variable (printg : Text → Text) {type : CMPIType} {v w : CMPIValue} {k k' : NativeProperty CMPIValue}

-- The values that are printed alike.
inductive CMPIValue.Alike : CMPIValue → CMPIValue → Prop
  | plain {v : CMPIValue} : v.Plain → Alike v v
  | char16 (c d : UInt16) : Alike (.char16 c) (.char16 d)
  | ref {p q : CMPIObjectPath} : pathToChars printg p = pathToChars printg q → Alike (.ref p) (.ref q)

structure AlikeKey (k k' : NativeProperty CMPIValue) : Prop where
  name  : k.name.lower = k'.name.lower
  type  : k.type = k'.type
  state : k.state = k'.state
  value : k.value.Alike printg k'.value

-- The type tells the member that is read.
theorem CMPIValue.Held.member (h : v.Held type) :
    (type = .string → ∃ text, v = .string (some text)) ∧ (type = .boolean → ∃ b, v = .boolean b) ∧
      (type = .char16 → ∃ c, v = .char16 c) ∧ (type = .ref → ∃ p, v = .ref p) ∧
      (type ∉ [CMPIType.string, .boolean, .char16, .ref] → ∃ n, v.integer = some (type, n)) := by
  cases h with
  | integer h =>
    cases v <;> cases h <;>
      exact ⟨fun h => absurd h (by decide), fun h => absurd h (by decide), fun h => absurd h (by decide),
        fun h => absurd h (by decide), fun _ => ⟨_, rfl⟩⟩
  | _         => simp [CMPIType.string, CMPIType.boolean, CMPIType.char16, CMPIType.ref]

theorem CMPIValue.Held.typed (h : v.Held type) : v.Typed type := by
  have hc {type : CMPIType} {v : CMPIValue} (h : v.Held type) : type ≠ .chars := by
    cases h with
    | integer h => exact integer_ne_chars h
    | _         => decide
  induction h with
  | string text    => exact .string text (List.mem_cons_self ..)
  | boolean b      => exact .boolean b
  | char16 c       => exact .other (by decide)
  | integer h      => exact .integer h
  | ref hcn hk hi  => exact .ref hcn (fun k hm => hc (hk k hm)) hi

theorem NativeCop.Identified.comparable {p : CMPIObjectPath} (h : p.Identified) : p.Comparable where
  nameSpace := h.nameSpace
  classname := h.classname
  distinct  := h.distinct
  typed     := fun k hk => (h.held k hk).typed

theorem signedDecimal_inj {m n : ℤ} : signedDecimal m = signedDecimal n ↔ m = n := by
  constructor
  · intro h
    have hs := congrArg scanNumber h
    simp only [scanNumber_signedDecimal, Option.some.injEq, Prod.mk.injEq, decide_eq_decide] at hs
    omega
  · exact congrArg signedDecimal

theorem integer_inj {n : ℤ} (hv : v.integer = some (type, n)) (hw : w.integer = some (type, n)) : v = w := by
  have h := (Xml.str2CMPIText_integer hv).symm.trans (Xml.str2CMPIText_integer hw)
  exact Except.ok.inj h

theorem alike_plain_iff (hv : v.Plain) (hc : type ≠ .char16) (h : v.Held type) :
    v.Alike printg w ↔ v = w := by
  constructor
  · intro ha
    cases ha with
    | plain      => rfl
    | char16 c d =>
      cases h with
      | char16    => exact absurd rfl hc
      | integer h => cases h
    | ref        => cases hv
  · intro he
    subst he
    exact .plain hv

-- Only characters and paths are printed alike without being equal.
theorem value2Chars_iff (hv : v.Held type) (hw : w.Held type) :
    value2Chars printg type v = value2Chars printg type w ↔ v.Alike printg w := by
  have hm := hw.member
  cases hv with
  | string text       =>
    have ⟨text', hw'⟩ := hm.1 rfl
    have hp : (CMPIValue.string text).Plain ∧ (CMPIValue.string text').Plain := ⟨trivial, trivial⟩
    rw [hw', alike_plain_iff printg hp.1 (by decide) (.string text), value2Chars_plain printg hp.1,
      value2Chars_plain printg hp.2]
    exact ⟨fun h => by cases h; rfl, fun h => by cases h; rfl⟩
  | boolean b         =>
    have ⟨c, hw'⟩ := hm.2.1 rfl
    have hp : (CMPIValue.boolean b).Plain ∧ (CMPIValue.boolean c).Plain := ⟨trivial, trivial⟩
    rw [hw', alike_plain_iff printg hp.1 (by decide) (.boolean b), value2Chars_plain printg hp.1,
      value2Chars_plain printg hp.2]
    cases b <;> cases c
    case true.true | false.false => exact iff_of_true rfl rfl
    all_goals exact iff_of_false nofun nofun
  | char16 c          =>
    have ⟨d, hw'⟩ := hm.2.2.1 rfl
    rw [hw']
    exact iff_of_true rfl (.char16 c d)
  | @integer _ _ n h  =>
    have ht : type ∉ [CMPIType.string, .boolean, .char16, .ref] := by
      cases v <;> cases h <;> decide
    have ⟨m, hw'⟩ := hm.2.2.2.2 ht
    have hc : type ≠ .char16 := by
      intro he
      apply ht
      rw [he]
      decide
    rw [alike_plain_iff printg (integer_plain h) hc (.integer h), value2Chars_plain printg (integer_plain h),
      value2Chars_plain printg (integer_plain hw'), plain2Chars_integer printg h, plain2Chars_integer printg hw',
      Except.ok.injEq, signedDecimal_inj]
    constructor
    · intro he
      subst he
      exact integer_inj h hw'
    · intro he
      subst he
      rw [h] at hw'
      cases hw'
      rfl
  | @ref p hcn hk     =>
    have ⟨q, hw'⟩ := hm.2.2.2.1 rfl
    rw [hw', value2Chars, value2Chars, if_pos rfl, if_pos rfl]
    constructor
    · exact .ref
    · intro h
      cases h with
      | plain h => cases h
      | ref h   => exact h

theorem meaning_iff (hk : k.value.Held k.type) (hk' : k'.value.Held k'.type) :
    k.meaning printg = k'.meaning printg ↔ AlikeKey printg k k' := by
  simp only [NativeProperty.meaning, Prod.mk.injEq]
  constructor
  · rintro ⟨hn, ht, hs, hv⟩
    rw [ht] at hk hv
    exact ⟨hn, ht, hs, (value2Chars_iff printg hk hk').mp hv⟩
  · intro h
    refine ⟨h.name, h.type, h.state, ?_⟩
    rw [h.type] at hk ⊢
    exact (value2Chars_iff printg hk hk').mpr h.value

variable {p q : CMPIObjectPath}

theorem forall₂_congr_mem {α β : Type} {R S : α → β → Prop} {l : List α} {l' : List β}
    (h : ∀ a ∈ l, ∀ b ∈ l', (R a b ↔ S a b)) : List.Forall₂ R l l' ↔ List.Forall₂ S l l' := by
  simp only [List.forall₂_iff_zip]
  apply and_congr_right
  intro _
  constructor
  · intro hr a b hm
    have ⟨ha, hb⟩ := List.of_mem_zip hm
    exact (h a ha b hb).mp (hr hm)
  · intro hs a b hm
    have ⟨ha, hb⟩ := List.of_mem_zip hm
    exact (h a ha b hb).mpr (hs hm)

theorem meanings_iff {keys ks : List (NativeProperty CMPIValue)} (hk : ∀ k ∈ keys, k.value.Held k.type)
    (hks : ∀ k ∈ ks, k.value.Held k.type) :
    (keys.map (NativeProperty.meaning printg)).Perm (ks.map (NativeProperty.meaning printg)) ↔
      ∃ keys', keys'.Perm ks ∧ List.Forall₂ (AlikeKey printg) keys keys' := by
  have hc := congrFun (congrFun (List.eq_map_comp_perm (NativeProperty.meaning printg))
    (keys.map (NativeProperty.meaning printg))) ks
  rw [← iff_of_eq hc]
  apply exists_congr
  intro keys'
  rw [and_comm]
  apply and_congr_right
  intro hp
  show keys.map _ = keys'.map _ ↔ _
  rw [← List.forall₂_eq_eq_eq, List.forall₂_map_left_iff, List.forall₂_map_right_iff]
  apply forall₂_congr_mem
  exact fun k hm k' hm' => meaning_iff printg (hk k hm) (hks k' (hp.subset hm'))

theorem matched_names {R : NativeProperty CMPIValue → NativeProperty CMPIValue → Prop}
    {keys ks : List (NativeProperty CMPIValue)} (h : List.Forall₂ R keys ks)
    (hn : ∀ k k', R k k' → k.name.lower = k'.name.lower) :
    keys.map (fun k => k.name.lower) = ks.map fun k => k.name.lower := by
  rw [← List.forall₂_eq_eq_eq, List.forall₂_map_left_iff, List.forall₂_map_right_iff]
  exact h.imp hn

-- There is only one way to match keys by their names.
theorem matching_unique {keys ks ks' : List (NativeProperty CMPIValue)} (hd : Named.Distinct NativeProperty.name keys)
    (hp : ks.Perm keys) (hp' : ks'.Perm keys)
    (h : ks.map (fun k => k.name.lower) = ks'.map fun k => k.name.lower) : ks = ks' := by
  rw [← List.forall₂_eq_eq_eq, List.forall₂_map_left_iff, List.forall₂_map_right_iff] at h
  rw [← List.forall₂_eq_eq_eq]
  apply (forall₂_congr_mem fun k hk k' hk' => ?_).mp h
  constructor
  · exact fun hn => List.inj_on_of_nodup_map hd (hp.subset hk) (hp'.subset hk') hn
  · exact fun he => he ▸ rfl

theorem same_alike_iff (hp : p.Identified) (hq : q.Identified) :
    sameCMPIObjectPath printg p q = .ok true ↔ p.nameSpace.map Text.lower = q.nameSpace.map Text.lower ∧
      p.classname.map Text.lower = q.classname.map Text.lower ∧
      ∃ keys, keys.Perm q.keys ∧ List.Forall₂ (AlikeKey printg) p.keys keys := by
  obtain ⟨b, hb, hbi⟩ := same_iff printg hp.comparable hq.comparable
  rw [hb, ← meanings_iff printg hp.held hq.held, Except.ok.injEq, hbi]
  simp [NativeCop.meaning]

theorem CMPIValue.Held.equal (hv : v.Held type) (hc : type ≠ .char16) (hr : type ≠ .ref)
    (h : v.Alike printg w) : v.Equal w := by
  cases h with
  | plain hp   => exact .plain hp
  | char16 c d =>
    cases hv with
    | char16    => exact absurd rfl hc
    | integer h => cases h
  | ref h      =>
    cases hv with
    | ref       => exact absurd rfl hr
    | integer h => cases h

-- Two paths that are taken for one are equal, if their characters and references are.
theorem equal_of_same (hp : p.Identified) (hq : q.Identified)
    (h : ∀ k ∈ p.keys, ∀ k' ∈ q.keys, k.name.lower = k'.name.lower → k.type = .char16 ∨ k.type = .ref →
      k.value.Equal k'.value)
    (hs : sameCMPIObjectPath printg p q = .ok true) : (CMPIValue.ref p).Equal (.ref q) := by
  obtain ⟨hns, hcn, keys, hperm, ha⟩ := (same_alike_iff printg hp hq).mp hs
  refine .ref hns hcn hperm (ha.imp fun k k' h => ⟨h.name, h.type⟩) ?_
  rintro ⟨k, k'⟩ hx
  have hk := List.of_mem_zip hx
  have hkk := (List.forall₂_iff_zip.mp ha).right hx
  by_cases ht : k.type = .char16 ∨ k.type = .ref
  · exact h k hk.1 k' (hperm.subset hk.2) hkk.name ht
  · rw [not_or] at ht
    exact (hp.held k hk.1).equal printg ht.1 ht.2 hkk.value

-- Another value that is printed like a character or a path: the name of a class may be any text.
def CMPIValue.double : CMPIValue → CMPIValue
  | .char16 c => .char16 (c + 1)
  | .ref p    =>
    let text := match pathToChars printg p with
      | .ok t    => t
      | .error _ => []
    .ref { nameSpace := if p.nameSpace.isSome then none else some [], classname := some text }
  | v         => v

theorem pathToChars_classname (ns : Option Text) (hns : ns.getD [] = []) (text : Text) :
    pathToChars printg { nameSpace := ns, classname := some text } = .ok text := by
  rw [pathToChars_eq]
  simp [hns, deref, keysToChars, bind, Except.bind, pure, Except.pure]

theorem CMPIValue.Held.double_held (h : v.Held type) : (v.double printg).Held type := by
  cases h with
  | integer h => cases v <;> exact .integer h
  | ref hc hk => exact .ref rfl nofun
  | string    => exact .string _
  | boolean   => exact .boolean _
  | char16    => exact .char16 _

theorem CMPIValue.Held.double_alike (h : v.Held type) : v.Alike printg (v.double printg) := by
  cases h with
  | integer h       => cases v <;> first | exact .plain trivial | cases h
  | @ref p hc hk    =>
    have ht := value2Chars_ok printg (Held.ref hc hk).typed
    rw [value2Chars, if_pos rfl] at ht
    obtain ⟨t, ht⟩ := ht
    apply Alike.ref
    simp only [ht]
    rw [pathToChars_classname]
    by_cases hns : p.nameSpace.isSome
    · rw [if_pos hns]
      rfl
    · rw [if_neg hns]
      rfl
  | string          => exact .plain trivial
  | boolean         => exact .plain trivial
  | char16 c        => exact .char16 c (c + 1)

theorem CMPIValue.Equal.matching (h : (CMPIValue.ref p).Equal (.ref q)) :
    p.nameSpace.map Text.lower = q.nameSpace.map Text.lower ∧ ∃ keys, keys.Perm q.keys ∧
      List.Forall₂ (fun k k' => k.name.lower = k'.name.lower ∧ k.type = k'.type) p.keys keys ∧
      ∀ x ∈ p.keys.zip keys, x.1.value.Equal x.2.value := by
  cases h with
  | plain h                 => cases h
  | ref hns _ hperm hnames he => exact ⟨hns, _, hperm, hnames, he⟩

theorem CMPIValue.Held.double_ne (h : v.Held type) (ht : type = .char16 ∨ type = .ref) :
    ¬v.Equal (v.double printg) := by
  intro he
  cases h with
  | char16 c  =>
    generalize hw : (CMPIValue.char16 c).double printg = w at he
    cases he with
    | plain =>
      have hc := CMPIValue.char16.inj hw
      grind
  | ref hc hk =>
    have hi := congrArg Option.isSome he.matching.left
    simp only [Option.isSome_map] at hi
    split at hi <;> simp_all
  | integer h =>
    cases v <;> cases h <;> exact absurd ht (by decide)
  | _         => exact absurd ht (by decide)

-- The path with the double of each key.
def NativeCop.double (p : CMPIObjectPath) : CMPIObjectPath :=
  { p with keys := p.keys.map fun k => { k with value := k.value.double printg } }

theorem NativeCop.Identified.double (hp : p.Identified) : (p.double printg).Identified where
  nameSpace := hp.nameSpace
  classname := hp.classname
  distinct  := by
    show (List.map _ (List.map _ p.keys)).Nodup
    rw [List.map_map]
    exact hp.distinct
  held      := by
    intro k hk
    obtain ⟨l, hl, rfl⟩ := List.mem_map.mp hk
    exact (hp.held l hl).double_held printg

theorem same_double (hp : p.Identified) : sameCMPIObjectPath printg p (p.double printg) = .ok true := by
  refine (same_alike_iff printg hp (hp.double printg)).mpr ⟨rfl, rfl, _, .refl _, ?_⟩
  show List.Forall₂ _ p.keys (p.keys.map _)
  rw [List.forall₂_map_right_iff, List.forall₂_same]
  exact fun k hk => ⟨rfl, rfl, rfl, (hp.held k hk).double_alike printg⟩

theorem double_equal (hp : p.Identified) (h : (CMPIValue.ref p).Equal (.ref (p.double printg)))
    {k : NativeProperty CMPIValue} (hk : k ∈ p.keys) : k.value.Equal (k.value.double printg) := by
  obtain ⟨_, keys, hperm, hnames, he⟩ := h.matching
  have hn := matched_names hnames fun k k' h => h.left
  have hkeys : keys = (p.double printg).keys := by
    apply matching_unique (hp.double printg).distinct hperm (.refl _)
    rw [← hn]
    show _ = List.map _ (List.map _ p.keys)
    rw [List.map_map]
    rfl
  subst hkeys
  apply he (k, { k with value := k.value.double printg })
  show _ ∈ p.keys.zip (p.keys.map _)
  rw [← List.map_prod_left_eq_zip]
  exact List.mem_map_of_mem hk

end

def characterPath (c : UInt16) : CMPIObjectPath where
  nameSpace := some (bytes "root")
  classname := some (bytes "A")
  keys      := [⟨bytes "k", .char16, .key, .char16 c, []⟩]

theorem characterPath_identified (c : UInt16) : (characterPath c).Identified :=
  ⟨rfl, rfl, List.nodup_singleton _, fun _ h => List.mem_singleton.mp h ▸ .char16 c⟩

-- The text 'x' and a reference to the path with the key 'a'.
def referringPath : CMPIObjectPath where
  nameSpace := some (bytes "root")
  classname := some (bytes "B")
  keys      := [⟨bytes "n", .string, .key, .string (some (bytes "x")), []⟩,
    ⟨bytes "r", .ref, .key, .ref (characterPath 97), []⟩]

theorem referringPath_identified : referringPath.Identified := by
  have hd : (referringPath.keys.map fun k => k.name.lower).Nodup := by decide +kernel
  refine ⟨rfl, rfl, hd, ?_⟩
  rw [referringPath, List.forall_mem_cons, List.forall_mem_singleton]
  exact ⟨.string _, .ref rfl (characterPath_identified 97).held⟩

end Sfcc
