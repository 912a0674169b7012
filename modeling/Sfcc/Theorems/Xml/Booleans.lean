import Sfcc.Theorems.Xml.Keys

-- What becomes of the boolean keys of a path that is written and read again.
namespace Sfcc.Xml

mutual

-- The boolean keys with the names that lead to them.
def keyBooleans (type : CMPIType) : CMPIValue → List (List Text × Bool)
  | .boolean b         => if type = .boolean then [([], b)] else []
  | .ref ⟨_, _, keys⟩  => if type = .ref then booleans keys else []
  | _                  => []

def booleans : List (NativeProperty CMPIValue) → List (List Text × Bool)
  | []                                => []
  | ⟨name, type, _, value, _⟩ :: keys =>
    (keyBooleans type value).map (fun (names, b) => (name :: names, b)) ++ booleans keys

end

def AllFalse (l : List (List Text × Bool)) : Prop :=
  ∀ x ∈ l, x.2 = false

theorem booleans_append (keys keys' : List (NativeProperty CMPIValue)) :
    booleans (keys ++ keys') = booleans keys ++ booleans keys' := by
  induction keys with
  | nil          => rfl
  | cons k keys hi => rw [List.cons_append, booleans, hi, booleans, List.append_assoc]

-- The bindings that a reference has.
def XtokValueReference.bindings : XtokValueReference XtokInstanceName → List (XtokKeyBinding XtokInstanceName)
  | ⟨⟨.instancePath ⟨_, ⟨_, bs⟩⟩, _⟩, .InstancePath⟩           => bs
  | ⟨⟨.instanceName ⟨_, bs⟩, _⟩, .InstanceName⟩                => bs
  | ⟨⟨.localInstancePath ⟨_, ⟨_, bs⟩⟩, _⟩, .LocalInstancePath⟩ => bs
  | _                                                          => []

-- Whether the union of a reference holds what its type says.
def XtokValueReference.Known : XtokValueReference XtokInstanceName → Prop
  | ⟨⟨.instancePath _, _⟩, .InstancePath⟩           => True
  | ⟨⟨.instanceName _, _⟩, .InstanceName⟩           => True
  | ⟨⟨.localInstancePath _, _⟩, .LocalInstancePath⟩ => True
  | _                                               => False

def isBoolean (type : Option Text) : Bool :=
  type.any (sameIgnoringCase · (bytes "boolean"))

def isNumeric (type : Option Text) : Bool :=
  type.any (sameIgnoringCase · (bytes "numeric"))

-- The text of a key, if it has one.
def keyText : XtokKeyUnion XtokInstanceName → Option Text
  | .keyValue v => v.value
  | .ref _      => none

-- Bindings that can be made keys of: a number has a text, and a reference one of the types.
inductive Convertible : List (XtokKeyBinding XtokInstanceName) → Prop
  | nil : Convertible []
  | text {name type u t bs} : ¬ isRef type → (isNumeric type → (keyText u).isSome) → Convertible bs →
    Convertible (⟨some name, type, ⟨u, t⟩⟩ :: bs)
  | reference {name type r t bs} : isRef type → r.Known → Convertible r.bindings → Convertible bs →
    Convertible (⟨some name, type, ⟨.ref r, t⟩⟩ :: bs)

-- Whether the names lead to a key of the type boolean. Of bindings with the same name, only the first one counts.
inductive Shown : List (XtokKeyBinding XtokInstanceName) → List Text → Prop
  | boolean {name type u t bs} : isBoolean type → Shown (⟨some name, type, ⟨u, t⟩⟩ :: bs) [name]
  | reference {name type r t bs names} : isRef type → Shown r.bindings names →
    Shown (⟨some name, type, ⟨.ref r, t⟩⟩ :: bs) (name :: names)
  | later {b bs n names} : (∀ m ∈ b.name, m.lower ≠ n.lower) → Shown bs (n :: names) → Shown (b :: bs) (n :: names)

-- The same for the value of one key.
def ShownBy (type : Option Text) (u : XtokKeyUnion XtokInstanceName) (names : List Text) : Prop :=
  isBoolean type ∧ names = [] ∨ isRef type ∧ ∃ r, u = .ref r ∧ Shown r.bindings names

section

variable {n : Text} {type : Option Text} {u : XtokKeyUnion XtokInstanceName} {t : Option Text} {names : List Text}
variable {b : XtokKeyBinding XtokInstanceName} {bs : List (XtokKeyBinding XtokInstanceName)}

theorem not_shown_nil : ¬ Shown bs [] := by
  rintro ⟨⟩

theorem shown_cons_iff : Shown (⟨some n, type, ⟨u, t⟩⟩ :: bs) names ↔
    (∃ rest, names = n :: rest ∧ ShownBy type u rest) ∨ (∀ m ∈ names.head?, n.lower ≠ m.lower) ∧ Shown bs names := by
  constructor
  · intro h
    cases h with
    | boolean hb      => exact .inl ⟨[], rfl, .inl ⟨hb, rfl⟩⟩
    | reference hr hs => exact .inl ⟨_, rfl, .inr ⟨hr, _, rfl, hs⟩⟩
    | later hn hs     => exact .inr ⟨fun m hm => Option.some.inj hm ▸ hn n rfl, hs⟩
  · rintro (⟨rest, rfl, ⟨hb, rfl⟩ | ⟨hr, r, rfl, hs⟩⟩ | ⟨hn, hs⟩)
    · exact .boolean hb
    · exact .reference hr hs
    · cases names with
      | nil        => exact absurd hs not_shown_nil
      | cons m rest =>
        refine .later (fun k hk => ?_) hs
        cases hk
        exact hn m rfl

end

-- A key that is copied as it is.
def Own (k : NativeProperty CMPIValue) : Prop :=
  cloneProperties [k] = [k]

theorem cloneProperties_own : ∀ {keys : List (NativeProperty CMPIValue)}, (∀ k ∈ keys, Own k) → cloneProperties keys = keys
  | [], _                                            => by rw [cloneProperties]
  | ⟨name, type, state, value, quals⟩ :: keys, h => by
    have ⟨hk, hkeys⟩ := List.forall_mem_cons.mp h
    rw [Own, cloneProperties] at hk
    rw [cloneProperties, cloneProperties_own hkeys, (List.cons.inj hk).left]

theorem clone_own {p : CMPIObjectPath} (h : ∀ k ∈ p.keys, Own k) : p.clone = p := by
  rw [NativeCop.clone, cloneProperties_own h]

-- A value that a key is made of as it is.
structure Fit (t : CMPIType) (v : CMPIValue) : Prop where
  own      : ∀ name, Own (.new name t .key v)
  booleans : ∀ name, keyBooleans (NativeProperty.new name t .key v).type (NativeProperty.new name t .key v).value =
    keyBooleans t v

theorem fit_chars (text : Option Text) : Fit .chars (.chars text) :=
  ⟨fun _ => rfl, fun _ => rfl⟩

theorem fit_boolean (b : Bool) : Fit .boolean (.boolean b) :=
  ⟨fun _ => rfl, fun _ => rfl⟩

theorem fit_scanned (text : Text) :
    Fit .sint64 (scanSigned (.sint64 <| .ofInt ·) text) ∧ Fit .uint64 (scanUnsigned (.uint64 <| .ofNat ·) text) := by
  rw [scanSigned, scanUnsigned]
  cases scanNumber text <;> exact ⟨⟨fun _ => rfl, fun _ => rfl⟩, ⟨fun _ => rfl, fun _ => rfl⟩⟩

theorem fit_ref {p : CMPIObjectPath} (h : ∀ k ∈ p.keys, Own k) : Fit .ref (.ref p) := by
  have hc : native_clone_CMPIValue .ref (.ref p) = .ref p := by rw [native_clone_ref, clone_own h]
  have hn (name : Text) : NativeProperty.new name .ref .key (.ref p) = ⟨name, .ref, .key, .ref p, []⟩ := by
    have ht : CMPIType.ref ≠ .null ∧ CMPIValueState.key ≠ .null := by decide
    have hs : CMPIType.ref ≠ .chars := by decide
    rw [NativeProperty.new, if_pos ht, if_neg hs, hc]
  refine ⟨fun name => ?_, fun name => by rw [hn]⟩
  have hk : ¬ (CMPIValueState.key = .null ∨ CMPIValueState.key = .bad) := by decide
  rw [hn, Own, cloneProperties, if_neg hk, cloneQualifiers, cloneProperties]
  exact congrArg (fun v => [(⟨name, .ref, .key, v, []⟩ : NativeProperty CMPIValue)]) hc

-- A key of the names is new in a path.
def Fresh (op : CMPIObjectPath) (names : List Text) : Prop :=
  ∀ n ∈ names.head?, ∀ k ∈ op.keys, k.name.lower ≠ n.lower

section

variable {op : CMPIObjectPath} {n : Text} {t : CMPIType} {v : CMPIValue} {names : List Text}

theorem addProperty_own (ho : ∀ k ∈ op.keys, Own k) (hv : Fit t v) : ∀ k ∈ addProperty op.keys n t .key v, Own k :=
  Named.forall_add ho (hv.own n)

-- What a new key adds.
theorem mem_booleans_add (hv : Fit t v) (x : List Text × Bool) : x ∈ booleans (addProperty op.keys n t .key v) ↔
    x ∈ booleans op.keys ∨ (∀ k ∈ op.keys, k.name.lower ≠ n.lower) ∧ ∃ y ∈ keyBooleans t v, x = (n :: y.1, y.2) := by
  by_cases hf : ∀ k ∈ op.keys, k.name.lower ≠ n.lower
  · have hb := hv.booleans n
    rw [addProperty, Named.add_of_not_mem hf, booleans_append, List.mem_append, booleans, booleans, List.append_nil, hb,
      NativeProperty.new_name, List.mem_map]
    refine or_congr_right ?_
    rw [and_iff_right hf]
    simp only [eq_comm]
  · have hs : (Named.get NativeProperty.name op.keys n).isSome := by
      by_contra hn
      exact hf (Named.get_none_iff.mp (Option.not_isSome_iff_eq_none.mp hn))
    rw [addProperty, Named.add, if_pos hs]
    exact ⟨.inl, fun h => h.resolve_right fun h => hf h.left⟩

theorem fresh_add : Fresh { op with keys := addProperty op.keys n t .key v } names ↔
    Fresh op names ∧ ∀ m ∈ names.head?, n.lower ≠ m.lower := by
  rw [Fresh, Fresh]
  show (∀ m ∈ names.head?, ∀ k ∈ addProperty op.keys n t .key v, k.name.lower ≠ m.lower) ↔ _
  rw [addProperty, Named.add]
  split
  case isTrue hs  =>
    obtain ⟨k, hk⟩ := Option.isSome_iff_exists.mp hs
    have hkn : k.name.lower = n.lower := by simpa [sameIgnoringCase] using List.find?_some hk
    refine ⟨fun h => ⟨h, fun m hm => ?_⟩, And.left⟩
    exact hkn ▸ h m hm k (List.mem_of_find?_eq_some hk)
  case isFalse hs =>
    simp only [List.forall_mem_append, List.forall_mem_singleton, NativeProperty.new_name]
    exact ⟨fun h => ⟨fun m hm => (h m hm).left, fun m hm => (h m hm).right⟩, fun h m hm => ⟨h.left m hm, h.right m hm⟩⟩

end

-- A boolean key is read as `false`, if it is read.

theorem scanned_booleans {type : CMPIType} {t : Text} :
    keyBooleans type (scanSigned (.sint64 <| .ofInt ·) t) = [] ∧
      keyBooleans type (scanUnsigned (.uint64 <| .ofNat ·) t) = [] := by
  rw [scanSigned, scanUnsigned]
  cases scanNumber t <;> exact ⟨rfl, rfl⟩

theorem keyValuePtr_booleans {type value : Option Text} {w : Option CMPIValue} {t : CMPIType} (hr : ¬ isRef type)
    (h : keyValuePtr type value = .ok (w, t)) : ∃ v, w = some v ∧ Fit t v ∧ (isNumeric type → value.isSome) ∧
      ∀ x, x ∈ keyBooleans t v ↔ x.2 = false ∧ isBoolean type ∧ x.1 = [] := by
  have hlower {s s' : Text} (hne : s.lower ≠ s'.lower) (hs : type.any (sameIgnoringCase · s)) :
      type.any (sameIgnoringCase · s') = false := by
    cases type with
    | none      => rfl
    | some type =>
      have hs : type.lower = s.lower := eq_of_beq hs
      rw [Option.any_some, sameIgnoringCase, hs]
      exact beq_false_of_ne hne
  have hnone {v : CMPIValue} {t : CMPIType} (hk : keyBooleans t v = []) (hb : isBoolean type = false)
      (x : List Text × Bool) : x ∈ keyBooleans t v ↔ x.2 = false ∧ isBoolean type ∧ x.1 = [] := by
    rw [hk, hb]
    exact iff_of_false List.not_mem_nil fun h => Bool.false_ne_true h.right.left
  simp only [keyValuePtr] at h
  split at h
  case isTrue hs   =>
    cases h
    exact ⟨_, rfl, fit_chars value, fun hn => absurd hn (by rw [isNumeric, hlower (by decide) hs]; decide),
      hnone rfl (hlower (by decide) hs)⟩
  case isFalse hs  =>
    split at h
    case isTrue hb  =>
      have ht : type.any (sameIgnoringCase · (bytes "true")) = false := hlower (by decide) hb
      rw [ht] at h
      cases h
      refine ⟨_, rfl, fit_boolean false, fun hn => absurd hn (by rw [isNumeric, hlower (by decide) hb]; decide), fun x => ?_⟩
      rw [keyBooleans, if_pos rfl, List.mem_singleton]
      constructor
      · rintro rfl
        exact ⟨rfl, hb, rfl⟩
      · rintro ⟨hx, _, hn⟩
        exact Prod.ext hn hx
    case isFalse hb =>
      have hb : isBoolean type = false := Bool.eq_false_of_not_eq_true hb
      split at h
      case isTrue hn  =>
        obtain ⟨text, hv, h⟩ := deref_bind h
        have hsome : value.isSome := by rw [hv]; rfl
        split at h
        all_goals cases h
        · exact ⟨_, rfl, (fit_scanned text).left, fun _ => hsome, hnone scanned_booleans.left hb⟩
        · exact ⟨_, rfl, (fit_scanned text).right, fun _ => hsome, hnone scanned_booleans.right hb⟩
      case isFalse hn =>
        cases h
        exact ⟨_, rfl, fit_chars value, fun h => absurd h hn, hnone rfl hb⟩

-- What the bindings of a name list lead to, one by one.
theorem booleans_step {op : CMPIObjectPath} {n : Text} {type s : Option Text} {u : XtokKeyUnion XtokInstanceName} {t : CMPIType}
    {v : CMPIValue} {bs : List (XtokKeyBinding XtokInstanceName)} (hv : Fit t v)
    (hb : ∀ x, x ∈ keyBooleans t v ↔ x.2 = false ∧ ShownBy type u x.1) (x : List Text × Bool) :
    x ∈ booleans (addProperty op.keys n t .key v) ∨
        x.2 = false ∧ Fresh { op with keys := addProperty op.keys n t .key v } x.1 ∧ Shown bs x.1 ↔
      x ∈ booleans op.keys ∨ x.2 = false ∧ Fresh op x.1 ∧ Shown (⟨some n, type, ⟨u, s⟩⟩ :: bs) x.1 := by
  rw [mem_booleans_add hv, fresh_add, shown_cons_iff]
  constructor
  · rintro ((hx | ⟨hf, y, hy, rfl⟩) | ⟨hx, ⟨hf, hn⟩, hs⟩)
    · exact .inl hx
    · obtain ⟨hy, hs⟩ := (hb y).mp hy
      refine .inr ⟨hy, fun m hm => ?_, .inl ⟨y.1, rfl, hs⟩⟩
      cases hm
      exact hf
    · exact .inr ⟨hx, hf, .inr ⟨hn, hs⟩⟩
  · rintro (hx | ⟨hx, hf, ⟨rest, hr, hs⟩ | ⟨hn, hs⟩⟩)
    · exact .inl (.inl hx)
    · refine .inl (.inr ⟨hf n (by rw [hr]; rfl), (rest, x.2), (hb _).mpr ⟨hx, hs⟩, Prod.ext hr rfl⟩)
    · exact .inr ⟨hx, ⟨hf, hn⟩, hs⟩

-- A path begins without keys.
theorem mem_new_iff {ns cn : Option Text} {bs : List (XtokKeyBinding XtokInstanceName)} (x : List Text × Bool) :
    x ∈ booleans (newCMPIObjectPath ns cn).keys ∨ x.2 = false ∧ Fresh (newCMPIObjectPath ns cn) x.1 ∧ Shown bs x.1 ↔
      x.2 = false ∧ Shown bs x.1 := by
  have hf : Fresh (newCMPIObjectPath ns cn) x.1 := fun _ _ _ hk => absurd hk List.not_mem_nil
  exact ⟨fun h => h.elim (fun h => absurd h List.not_mem_nil) fun h => ⟨h.left, h.right.right⟩,
    fun h => .inr ⟨h.left, hf, h.right⟩⟩

mutual

theorem getKeyValueTypePtr_booleans (type s : Option Text) : ∀ (u : XtokKeyUnion XtokInstanceName) {w : Option CMPIValue}
    {t : CMPIType} {name : Text} {bs : List (XtokKeyBinding XtokInstanceName)}, getKeyValueTypePtr type u = .ok (w, t) →
    ∃ v, w = some v ∧ Fit t v ∧ (Convertible bs → Convertible (⟨some name, type, ⟨u, s⟩⟩ :: bs)) ∧
      ∀ x, x ∈ keyBooleans t v ↔ x.2 = false ∧ ShownBy type u x.1
  | .keyValue k, w, t, name, bs, h => by
    rw [getKeyValueTypePtr] at h
    split at h
    case isTrue  => cases h
    case isFalse hr =>
      obtain ⟨v, hw, hf, hn, hb⟩ := keyValuePtr_booleans hr h
      refine ⟨v, hw, hf, .text hr hn, fun x => (hb x).trans (and_congr_right fun _ => ?_)⟩
      exact ⟨.inl, fun h => h.resolve_right fun h => hr h.left⟩
  | .ref ref, w, t, name, bs, h    => by
    rw [getKeyValueTypePtr] at h
    split at h
    case isTrue hr  =>
      obtain ⟨p, hp, h⟩ := ok_bind.mp h
      cases h
      obtain ⟨ho, hk, hc, hb⟩ := referencePath_booleans ref hp
      refine ⟨_, rfl, fit_ref ho, .reference hr hk hc, fun x => ?_⟩
      have ht : isBoolean type = false := by
        cases type with
        | none      => cases hr
        | some type =>
          have hs : type.lower = (bytes "ref").lower := eq_of_beq hr
          rw [isBoolean, Option.any_some, sameIgnoringCase, hs]
          decide
      cases p
      rw [keyBooleans, if_pos rfl, hb x]
      refine and_congr_right fun _ => ⟨fun h => .inr ⟨hr, ref, rfl, h⟩, ?_⟩
      rintro (⟨h, _⟩ | ⟨_, r, he, h⟩)
      · exact absurd h (by rw [ht]; decide)
      · cases he
        exact h
    case isFalse hr =>
      obtain ⟨v, hw, hf, hn, hb⟩ := keyValuePtr_booleans hr h
      refine ⟨v, hw, hf, .text hr hn, fun x => (hb x).trans (and_congr_right fun _ => ?_)⟩
      exact ⟨.inl, fun h => h.resolve_right fun h => hr h.left⟩

theorem referencePath_booleans : ∀ (r : XtokValueReference XtokInstanceName) {p : CMPIObjectPath},
    referencePath r = .ok p → (∀ k ∈ p.keys, Own k) ∧ r.Known ∧ Convertible r.bindings ∧
      ∀ x, x ∈ booleans p.keys ↔ x.2 = false ∧ Shown r.bindings x.1
  | ⟨⟨.instancePath ⟨path, ⟨cn, bs⟩⟩, _⟩, .InstancePath⟩, p, h           => by
    rw [referencePath] at h
    obtain ⟨ho, hc, hb⟩ := addKeys_booleans bs (fun _ hk => absurd hk List.not_mem_nil) h
    exact ⟨ho, trivial, hc, fun x => (hb x).trans (mem_new_iff x)⟩
  | ⟨⟨.instanceName ⟨cn, bs⟩, _⟩, .InstanceName⟩, p, h                   => by
    rw [referencePath] at h
    obtain ⟨ho, hc, hb⟩ := addKeys_booleans bs (fun _ hk => absurd hk List.not_mem_nil) h
    exact ⟨ho, trivial, hc, fun x => (hb x).trans (mem_new_iff x)⟩
  | ⟨⟨.localInstancePath ⟨path, ⟨cn, bs⟩⟩, _⟩, .LocalInstancePath⟩, p, h => by
    rw [referencePath] at h
    obtain ⟨ho, hc, hb⟩ := addKeys_booleans bs (fun _ hk => absurd hk List.not_mem_nil) h
    exact ⟨ho, trivial, hc, fun x => (hb x).trans (mem_new_iff x)⟩
  | ⟨_, .Unknown⟩, p, h | ⟨⟨.zero, _⟩, .InstanceName⟩, p, h | ⟨⟨.zero, _⟩, .InstancePath⟩, p, h
  | ⟨⟨.zero, _⟩, .LocalInstancePath⟩, p, h | ⟨⟨.instancePath _, _⟩, .InstanceName⟩, p, h
  | ⟨⟨.instancePath _, _⟩, .LocalInstancePath⟩, p, h | ⟨⟨.instanceName _, _⟩, .InstancePath⟩, p, h
  | ⟨⟨.instanceName _, _⟩, .LocalInstancePath⟩, p, h
  | ⟨⟨.localInstancePath _, _⟩, .InstanceName⟩, p, h
  | ⟨⟨.localInstancePath _, _⟩, .InstancePath⟩, p, h                     => by
    rw [referencePath] at h
    all_goals first | cases h | exact nofun

theorem addKeys_booleans : ∀ (bs : List (XtokKeyBinding XtokInstanceName)) {op p : CMPIObjectPath},
    (∀ k ∈ op.keys, Own k) → addKeys op bs = .ok p → (∀ k ∈ p.keys, Own k) ∧ Convertible bs ∧
      ∀ x, x ∈ booleans p.keys ↔ x ∈ booleans op.keys ∨ x.2 = false ∧ Fresh op x.1 ∧ Shown bs x.1
  | [], op, p, ho, h                            => by
    rw [addKeys] at h
    cases h
    exact ⟨ho, .nil, fun x => ⟨.inl, fun h => h.resolve_right fun h => nomatch h.right.right⟩⟩
  | ⟨name, type, ⟨u, s⟩⟩ :: bs, op, p, ho, h => by
    rw [addKeys] at h
    obtain ⟨⟨w, t⟩, hr, h⟩ := ok_bind.mp h
    obtain ⟨op', hop, h⟩ := ok_bind.mp h
    obtain ⟨n, hn, hop⟩ := deref_bind hop
    subst hn
    obtain ⟨v, rfl, hv, hc, hb⟩ := @getKeyValueTypePtr_booleans type s u w t n bs hr
    rw [NativeCop.addKey_some] at hop
    cases hop
    obtain ⟨hown, hcs, hbs⟩ := addKeys_booleans bs (addProperty_own ho hv) h
    exact ⟨hown, hc hcs, fun x => (hbs x).trans (booleans_step hv hb x)⟩

end

theorem referencePath_known : ∀ {r : XtokValueReference XtokInstanceName}, r.Known → ∃ op, referencePath r = addKeys op r.bindings
  | ⟨⟨.instancePath ⟨_, ⟨_, _⟩⟩, _⟩, .InstancePath⟩, _           => ⟨_, by rw [referencePath]; rfl⟩
  | ⟨⟨.instanceName ⟨_, _⟩, _⟩, .InstanceName⟩, _                => ⟨_, by rw [referencePath]; rfl⟩
  | ⟨⟨.localInstancePath ⟨_, ⟨_, _⟩⟩, _⟩, .LocalInstancePath⟩, _ => ⟨_, by rw [referencePath]; rfl⟩

theorem keyValuePtr_of_text {type value : Option Text} (h : isNumeric type → value.isSome) :
    ∃ v t, keyValuePtr type value = .ok (some v, t) := by
  simp only [keyValuePtr]
  split
  · exact ⟨_, _, rfl⟩
  · split
    · exact ⟨_, _, rfl⟩
    · split
      case isTrue hn =>
        obtain ⟨text, hv⟩ := Option.isSome_iff_exists.mp (h hn)
        subst hv
        show ∃ v t, (if text.head?.any isSign then _ else _) = _
        split <;> exact ⟨_, _, rfl⟩
      case isFalse   => exact ⟨_, _, rfl⟩

theorem Convertible.addKeys {bs : List (XtokKeyBinding XtokInstanceName)} (h : Convertible bs) (op : CMPIObjectPath) :
    ∃ p, addKeys op bs = .ok p := by
  have hcons {op : CMPIObjectPath} {name : Text} {type s : Option Text} {u : XtokKeyUnion XtokInstanceName}
      {bs : List (XtokKeyBinding XtokInstanceName)} (hu : ∃ v t, getKeyValueTypePtr type u = .ok (some v, t))
      (hbs : ∀ op, ∃ p, Xml.addKeys op bs = .ok p) : ∃ p, Xml.addKeys op (⟨some name, type, ⟨u, s⟩⟩ :: bs) = .ok p := by
    obtain ⟨v, t, hu⟩ := hu
    obtain ⟨p, hp⟩ := hbs { op with keys := addProperty op.keys name t .key v }
    refine ⟨p, ?_⟩
    rw [Xml.addKeys, hu]
    show (op.addKey (some name) (some v) t >>= fun op => Xml.addKeys op bs) = _
    rw [NativeCop.addKey_some]
    exact hp
  induction h generalizing op with
  | nil                           => exact ⟨op, by rw [Xml.addKeys]; rfl⟩
  | @text name type u s bs hr hn _ hi    =>
    refine hcons ?_ hi
    obtain ⟨v, t, hk⟩ := keyValuePtr_of_text hn
    refine ⟨v, t, ?_⟩
    cases u with
    | keyValue k => rwa [getKeyValueTypePtr, if_neg hr]
    | ref r      => rwa [getKeyValueTypePtr, if_neg hr]
  | reference hr hk _ _ hri hi    =>
    refine hcons ?_ hi
    obtain ⟨op, ho⟩ := referencePath_known hk
    obtain ⟨p, hp⟩ := hri op
    refine ⟨.ref p, .ref, ?_⟩
    rw [getKeyValueTypePtr, if_pos hr, ho, hp]
    rfl

section

variable {printg : Text → Text}

-- A boolean key is written as one, whatever its value.

mutual

theorem keyBooleans_read (type : CMPIType) : ∀ v : CMPIValue,
    ∀ x ∈ keyBooleans type v, (x.1, false) ∈ keyBooleans (valueRead printg type v).1 (valueRead printg type v).2
  | .boolean b, x, hx => by
    rw [keyBooleans] at hx
    split at hx
    · cases List.mem_singleton.mp hx
      rw [valueRead, keyRead, if_pos ‹_›]
      · exact List.mem_singleton_self _
      · exact nofun
    · cases hx
  | .ref ⟨ns, cn, keys⟩, x, hx => by
    rw [keyBooleans] at hx
    split at hx
    · rw [valueRead, if_pos ‹_›]
      exact booleans_read keys x hx
    · cases hx

theorem booleans_read : ∀ keys : List (NativeProperty CMPIValue),
    ∀ x ∈ booleans keys, (x.1, false) ∈ booleans (keysRead printg keys)
  | ⟨name, type, _, value, _⟩ :: keys, x, hx => by
    rw [keysRead, booleans]
    rw [booleans] at hx
    cases List.mem_append.mp hx with
    | inl hx =>
      obtain ⟨y, hy, rfl⟩ := List.mem_map.mp hx
      exact List.mem_append_left _ (List.mem_map.mpr ⟨_, keyBooleans_read type value y hy, rfl⟩)
    | inr hx => exact List.mem_append_right _ (booleans_read keys x hx)

end

-- Every boolean key is there again, with its names and its value, when the path has been written, parsed and
-- converted.
def BooleansSurvive (printg : Text → Text) (p : CMPIObjectPath) : Prop :=
  ∃ text n q, instanceNameElement printg p = .ok text ∧ parsed Grammar.instanceName {} text = .ok n ∧
    createPath n = .ok q ∧ ∀ x ∈ booleans p.keys, x ∈ booleans q.keys

-- What has to be so before the conversion: the bindings that were parsed can be converted, and have the boolean
-- keys, with any value.
def Legible (printg : Text → Text) (p : CMPIObjectPath) : Prop :=
  ∃ text n, instanceNameElement printg p = .ok text ∧ parsed Grammar.instanceName {} text = .ok n ∧
    Convertible n.bindings ∧ ∀ x ∈ booleans p.keys, Shown n.bindings x.1

theorem createPath_booleans {n : XtokInstanceName} {q : CMPIObjectPath} (h : createPath n = .ok q) :
    Convertible n.bindings ∧ ∀ x, x ∈ booleans q.keys ↔ x.2 = false ∧ Shown n.bindings x.1 := by
  obtain ⟨_, hc, hb⟩ := addKeys_booleans n.bindings (fun _ hk => absurd hk List.not_mem_nil) h
  exact ⟨hc, fun x => (hb x).trans (mem_new_iff x)⟩

-- Nothing but a text that is not escaped can keep the bindings from being so.
theorem Writes.legible {p : CMPIObjectPath} (h : Writes printg p) : Legible printg p := by
  obtain ⟨text, bs, hb⟩ := h.binds
  obtain ⟨element, he, hl⟩ := instanceNameElement_lexes h.classname hb
  have hp := hl.parsed_eq (fun _ => Grammar.instanceName_reads) {}
  have hr := hb.read (newCMPIObjectPath none (some (chars p.classname))) (fun _ _ _ hk => absurd hk List.not_mem_nil)
  obtain ⟨_, hc, hs⟩ := addKeys_booleans (Tree.KeyBinding.xtoks bs) (fun _ hk => absurd hk List.not_mem_nil) hr
  exact ⟨_, _, he, hp, hc, fun x hx => (((hs _).trans (mem_new_iff _)).mp (booleans_read p.keys x hx)).right⟩

end

-- A path with a boolean key in the path that its only key refers to.
def booleanPath (b : Bool) : CMPIObjectPath :=
  ⟨none, some (bytes "C"), [⟨bytes "owner", .ref, .key,
    .ref ⟨some (bytes "root/cimv2"), some (bytes "D"), [⟨bytes "enabled", .boolean, .key, .boolean b, []⟩]⟩, []⟩]⟩

theorem writes_booleanPath (printg : Text → Text) (b : Bool) : Writes printg (booleanPath b) where
  classname := by simp [booleanPath]; decide
  distinct  := List.nodup_singleton _
  names     := List.forall_mem_singleton.mpr (by decide : 34 ∉ bytes "owner")
  keys      := by
    have hb : Writable printg .boolean (.boolean b) := by
      cases b
      all_goals exact .text trivial (by decide) rfl (by decide)
    exact List.forall_mem_singleton.mpr (.ref (by simp; decide) (by simp; decide) (List.nodup_singleton _)
      (List.forall_mem_singleton.mpr (by decide : 34 ∉ bytes "enabled")) (List.forall_mem_singleton.mpr hb))

end Sfcc.Xml
