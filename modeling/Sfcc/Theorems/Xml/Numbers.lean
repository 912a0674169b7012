import Sfcc.Theorems.Cmpi.Writes
import Sfcc.Theorems.Xml.Scalar

-- The integers that are read from texts.
namespace Sfcc

open Xml

-- The texts of an integer.
inductive Decimal : Text → ℤ → Prop
  | plain {ds : Text} (hn : ds ≠ []) (hd : ∀ b ∈ ds, isdigit b) : Decimal ds (digits ds)
  | plus {ds : Text} (hn : ds ≠ []) (hd : ∀ b ∈ ds, isdigit b) : Decimal (43 :: ds) (digits ds)
  | minus {ds : Text} (hn : ds ≠ []) (hd : ∀ b ∈ ds, isdigit b) : Decimal (45 :: ds) (-(digits ds))

-- The bounds of the types, of which the upper one is not an integer of the type any more.
def CMPIType.bounds : List (CMPIType × ℤ × ℤ) :=
  [(.uint8, 0, 2 ^ 8), (.uint16, 0, 2 ^ 16), (.uint32, 0, 2 ^ 32), (.uint64, 0, 2 ^ 64),
    (.sint8, -2 ^ 7, 2 ^ 7), (.sint16, -2 ^ 15, 2 ^ 15), (.sint32, -2 ^ 31, 2 ^ 31), (.sint64, -2 ^ 63, 2 ^ 63)]

def CMPIType.IsIntegral (type : CMPIType) : Prop :=
  type ∈ CMPIType.bounds.map (·.1)

def CMPIType.InRange (type : CMPIType) (n : ℤ) : Prop :=
  ∃ b ∈ CMPIType.bounds, b.1 = type ∧ b.2.1 ≤ n ∧ n < b.2.2

instance (type : CMPIType) : Decidable type.IsIntegral :=
  inferInstanceAs (Decidable (_ ∈ _))

instance (type : CMPIType) (n : ℤ) : Decidable (type.InRange n) :=
  inferInstanceAs (Decidable (∃ b ∈ CMPIType.bounds, b.1 = type ∧ b.2.1 ≤ n ∧ n < b.2.2))

-- A property with a name, a type and a text that was read from a response.
structure HasText (p : XtokProperty XtokInstance) (name : Text) (type : CMPIType) (text : Text) : Prop where
  name      : p.name = some name
  valueType : p.valueType = type
  value     : ∃ v, p.val.u = .value v ∧ v.data.ptr = .value (some text)
  null      : p.val.null = false
  propType  : p.propType = .Value

-- A property that is the integer, or null if its type does not have the integer.
structure ReadAs (type : CMPIType) (n : ℤ) (p : NativeProperty CMPIValue) : Prop where
  inside  : type.InRange n → p.type = type ∧ p.value.integer = some (type, n)
  outside : ¬ type.InRange n → p.state.isNull

section

variable {type type' : CMPIType} {n : ℤ} {text name : Text} {v : CMPIValue} {ci : CMPIInstance}

theorem scanNumber_digits {ds : Text} (hn : ds ≠ []) (hd : ∀ b ∈ ds, isdigit b) :
    scanNumber ds = some (false, digits ds) := by
  have hw := takeWhile_isdigit hd
  cases ds with
  | nil       => exact absurd rfl hn
  | cons b ds =>
    have hb := hd b (List.mem_cons_self ..)
    have ⟨hs, hg⟩ := isspace_of_isdigit hb
    have h45 : b ≠ 45 := fun he => by
      subst he
      cases hg
    simp [scanNumber, hs, hg, h45, hw]

theorem scanNumber_sign {ds : Text} {b : UInt8} (hs : isSign b) (hn : ds ≠ []) (hd : ∀ b ∈ ds, isdigit b) :
    scanNumber (b :: ds) = some (decide (b = 45), digits ds) := by
  have hw := takeWhile_isdigit hd
  have hb : isspace b = false := by
    simp only [isSign, decide_eq_true_eq] at hs
    cases hs with
    | inl h => rw [h]; rfl
    | inr h => rw [h]; rfl
  simp [scanNumber, hs, hb, hw, hn]

-- The sign and the digits that are scanned.
theorem Decimal.scanned (h : Decimal text n) :
    ∃ neg m, scanNumber text = some (neg, m) ∧ n = if neg then -(m : ℤ) else m := by
  cases h with
  | plain hn hd => exact ⟨_, _, scanNumber_digits hn hd, rfl⟩
  | plus hn hd  => exact ⟨_, _, scanNumber_sign rfl hn hd, rfl⟩
  | minus hn hd => exact ⟨_, _, scanNumber_sign rfl hn hd, rfl⟩

-- Only zero can be written with another sign.
theorem sign_unique {neg : Bool} {m : ℕ} (h : n = if neg then -(m : ℤ) else m) :
    neg = decide (n < 0) ∧ m = n.natAbs ∨ neg = true ∧ m = 0 ∧ n = 0 := by
  cases neg with
  | false =>
    have h : n = m := h
    exact .inl ⟨(decide_eq_false (by omega)).symm, by omega⟩
  | true  =>
    have h : n = -m := h
    by_cases hm : m = 0
    · exact .inr ⟨rfl, hm, by omega⟩
    · exact .inl ⟨(decide_eq_true (by omega)).symm, by omega⟩

theorem strtoll_congr {neg : Bool} {m : ℕ} (h : n = if neg then -(m : ℤ) else m) :
    strtoll neg m = strtoll (decide (n < 0)) n.natAbs := by
  cases sign_unique h with
  | inl h => rw [h.1, h.2]
  | inr h =>
    rw [h.1, h.2.1, h.2.2]
    rfl

theorem strtoull_congr {neg : Bool} {m : ℕ} (h : n = if neg then -(m : ℤ) else m) :
    strtoull neg m = strtoull (decide (n < 0)) n.natAbs := by
  cases sign_unique h with
  | inl h => rw [h.1, h.2]
  | inr h =>
    rw [h.1, h.2.1, h.2.2]
    rfl

-- Every text of an integer is scanned as the shortest one.
theorem Decimal.scanSigned_eq (h : Decimal text n) (f : ℤ → CMPIValue) :
    scanSigned f text = scanSigned f (signedDecimal n) := by
  have ⟨neg, m, hs, hn⟩ := h.scanned
  rw [scanSigned, scanSigned, hs, scanNumber_signedDecimal, Option.elim_some, Option.elim_some, strtoll_congr hn]

theorem Decimal.scanUnsigned_eq (h : Decimal text n) (f : ℕ → CMPIValue) :
    scanUnsigned f text = scanUnsigned f (signedDecimal n) := by
  have ⟨neg, m, hs, hn⟩ := h.scanned
  rw [scanUnsigned, scanUnsigned, hs, scanNumber_signedDecimal, Option.elim_some, Option.elim_some, strtoull_congr hn]

theorem IsIntegral.cases {P : CMPIType → Prop} (h : type.IsIntegral) (hu8 : P .uint8) (hu16 : P .uint16)
    (hu32 : P .uint32) (hu64 : P .uint64) (hs8 : P .sint8) (hs16 : P .sint16) (hs32 : P .sint32) (hs64 : P .sint64) :
    P type := by
  simp only [CMPIType.IsIntegral, CMPIType.bounds, List.map_cons, List.map_nil, List.mem_cons, List.not_mem_nil,
    or_false] at h
  rcases h with rfl | rfl | rfl | rfl | rfl | rfl | rfl | rfl <;> assumption

-- What is read of an integer depends on the integer only.
theorem Decimal.str2CMPIText_eq (h : Decimal text n) (ht : type.IsIntegral) :
    str2CMPIText type (some text) = str2CMPIText type (some (signedDecimal n)) := by
  have hs (f : ℤ → CMPIValue) : Except.ok (ε := Fault) (scanSigned f text) = .ok (scanSigned f (signedDecimal n)) :=
    congrArg _ (h.scanSigned_eq f)
  have hu (f : ℕ → CMPIValue) :
      Except.ok (ε := Fault) (scanUnsigned f text) = .ok (scanUnsigned f (signedDecimal n)) :=
    congrArg _ (h.scanUnsigned_eq f)
  apply IsIntegral.cases (P := fun type => str2CMPIText type (some text) =
    str2CMPIText type (some (signedDecimal n))) ht
  case hu8  => exact hu fun n => .uint8 (.ofNat n)
  case hu16 => exact hu fun n => .uint16 (.ofNat n)
  case hu32 => exact hu fun n => .uint32 (.ofNat n)
  case hu64 => exact hu fun n => .uint64 (.ofNat n)
  case hs8  => exact hs fun n => .sint8 (.ofInt n)
  case hs16 => exact hs fun n => .sint16 (.ofInt n)
  case hs32 => exact hs fun n => .sint32 (.ofInt n)
  case hs64 => exact hs fun n => .sint64 (.ofInt n)

-- Something is read of every integer.
theorem CMPIType.IsIntegral.str2CMPIText_ok (ht : type.IsIntegral) (text : Text) :
    ∃ v, str2CMPIText type (some text) = .ok v := by
  apply IsIntegral.cases (P := fun type => ∃ v, str2CMPIText type (some text) = .ok v) ht <;> exact ⟨_, rfl⟩

theorem CMPIType.InRange.integral (h : type.InRange n) : type.IsIntegral := by
  have ⟨b, hb, ht, _⟩ := h
  exact ht ▸ List.mem_map_of_mem hb

-- Every integer of a type is one that a value holds.
theorem CMPIType.InRange.held (h : type.InRange n) : ∃ v : CMPIValue, v.integer = some (type, n) := by
  have ⟨b, hb, ht, hl, hu⟩ := h
  subst ht
  simp only [CMPIType.bounds, List.mem_cons, List.not_mem_nil, or_false] at hb
  have hpair {t : CMPIType} {m : ℤ} (he : m = n) : some (t, m) = some (t, n) := by rw [he]
  rcases hb with rfl | rfl | rfl | rfl | rfl | rfl | rfl | rfl <;> simp only at hl hu
  · have hn := UInt8.toNat_ofNat_of_lt' (n := n.toNat) (by simp; omega)
    exact ⟨.uint8 (.ofNat n.toNat), hpair (by rw [hn]; omega)⟩
  · have hn := UInt16.toNat_ofNat_of_lt' (n := n.toNat) (by simp; omega)
    exact ⟨.uint16 (.ofNat n.toNat), hpair (by rw [hn]; omega)⟩
  · have hn := UInt64.toNat_ofNat_of_lt' (n := n.toNat) (by simp; omega)
    exact ⟨.uint32 (.ofNat n.toNat), hpair (by rw [hn]; omega)⟩
  · have hn := UInt64.toNat_ofNat_of_lt' (n := n.toNat) (by simp; omega)
    exact ⟨.uint64 (.ofNat n.toNat), hpair (by rw [hn]; omega)⟩
  · exact ⟨.sint8 (.ofInt n), hpair (Int8.toInt_ofInt_of_le (by omega) (by omega))⟩
  · exact ⟨.sint16 (.ofInt n), hpair (Int16.toInt_ofInt_of_le (by omega) (by omega))⟩
  · exact ⟨.sint32 (.ofInt n), hpair (Int64.toInt_ofInt_of_le (by omega) (by omega))⟩
  · exact ⟨.sint64 (.ofInt n), hpair (Int64.toInt_ofInt_of_le (by omega) (by omega))⟩

-- An integer of a type is read as it is.
theorem Decimal.str2CMPIText_eq_of_inRange (h : Decimal text n) (hr : type.InRange n) :
    ∃ v, str2CMPIText type (some text) = .ok v ∧ v.integer = some (type, n) := by
  have ⟨v, hv⟩ := hr.held
  exact ⟨v, (h.str2CMPIText_eq hr.integral).trans (str2CMPIText_integer hv), hv⟩

theorem IsIntegral.ne_object (ht : type.IsIntegral) :
    (type ≠ .string ∧ type ≠ .chars) ∧ type ≠ .null ∧ type.cloning = .value :=
  IsIntegral.cases (P := fun type => (type ≠ .string ∧ type ≠ .chars) ∧ type ≠ .null ∧ type.cloning = .value) ht
    (by decide) (by decide) (by decide) (by decide) (by decide) (by decide) (by decide) (by decide)

theorem native_clone_integral (ht : type.IsIntegral) : native_clone_CMPIValue type v = v := by
  have ⟨_, _, hc⟩ := IsIntegral.ne_object ht
  rw [native_clone_CMPIValue, CMPIType.cloneWith, hc]

theorem HasText.set {p : XtokProperty XtokInstance} (hp : HasText p name type text) (ht : type.IsIntegral)
    (ci : CMPIInstance) (type' : CMPIType) : setInstProperty ci type' p =
      str2CMPIText type (some text) >>= fun v => ci.setProperty (some name) (some v) type >>= fun ci' =>
      setInstPropertyQualifiers ci' (some name) type p.val.qualifiers := by
  have ⟨⟨hs, hc⟩, _⟩ := IsIntegral.ne_object ht
  have ⟨v, hu, hptr⟩ := hp.value
  cases p with
  | mk pname origin propagated cls valueType val propType =>
    cases val with
    | mk u qs null =>
      cases v with
      | mk data tv =>
        cases data with
        | mk ptr pt =>
          have hname : pname = some name := hp.name
          have hnull : null = false := hp.null
          have hprop : propType = .Value := hp.propType
          have htype : valueType = type := hp.valueType
          have hptr : ptr = .value (some text) := hptr
          have hu : u = .value ⟨⟨ptr, pt⟩, tv⟩ := hu
          rw [hu, hptr, hname, hnull, hprop, htype, setInstProperty, XtokPointer.isNull, Option.isNone_some,
            if_neg (by simp), str2CMPIDecoded_text hs hc]

-- What becomes of a property with an integer, whatever its qualifiers are.
theorem HasText.left {p : XtokProperty XtokInstance} (hp : HasText p name type text) (ht : type.IsIntegral)
    {r : CMPIInstance × CMPIType} (hr : setInstProperty ci type' p = .ok r)
    (hv : str2CMPIText type (some text) = .ok v) :
    ∃ p, getProperty r.1.props name = some p ∧ p.type = type ∧ p.value = v ∧
      p.state = (getProperty ci.props name).elim .good (·.state) := by
  classical
  have ⟨⟨_, hc⟩, hn, _⟩ := IsIntegral.ne_object ht
  let w : Assignment := ⟨name, some v, type⟩
  have hset := Assignment.setProperty_eq ci w
  have hget := Assignment.get_on w ci.props name
  rw [if_pos (show w.Names name from rfl)] at hget
  have ⟨hleft, hstate, hval⟩ := Assignment.left_some (show w.value = some v from rfl) hn (getProperty ci.props name)
  rw [if_neg hc] at hleft hval
  rw [hp.set ht, hv] at hr
  have ⟨_, hread, hr⟩ := ok_bind.mp hr
  cases hread
  have ⟨ci', hci, hr⟩ := ok_bind.mp hr
  cases hset.symm.trans hci
  have hmap := setInstPropertyQualifiers_map (f := fun p => (p.type, p.value, p.state)) (fun _ _ => rfl) hr name
  rw [hget, Option.map_some] at hmap
  have ⟨q, hq, he⟩ := Option.map_eq_some_iff.mp hmap
  simp only [Prod.mk.injEq] at he
  exact ⟨q, hq, he.1.trans hleft, he.2.1.trans (hval.trans (native_clone_integral ht)), he.2.2.trans hstate⟩

-- An integer between the bounds of its type is read as it is. One outside is not reported: the property is
-- null only if it was before.
theorem read_decimal {p : XtokProperty XtokInstance} (hp : HasText p name type text) (ht : type.IsIntegral)
    (hx : Decimal text n) {r : CMPIInstance × CMPIType} (hr : setInstProperty ci type' p = .ok r) :
    ∃ q, getProperty r.1.props name = some q ∧ q.type = type ∧
      (type.InRange n → q.value.integer = some (type, n)) ∧
      (q.state.isNull ↔ ∃ old, getProperty ci.props name = some old ∧ old.state.isNull) := by
  have ⟨v, hv⟩ := ht.str2CMPIText_ok text
  have ⟨q, hq, htype, hval, hstate⟩ := hp.left ht hr hv
  refine ⟨q, hq, htype, fun hrange => ?_, ?_⟩
  · have ⟨v', hv', hint⟩ := hx.str2CMPIText_eq_of_inRange hrange
    cases hv.symm.trans hv'
    rw [hval, hint]
  · rw [hstate]
    cases getProperty ci.props name with
    | none     =>
      rw [Option.elim_none, Assignment.good_isNull]
      exact iff_of_false (fun h => nomatch h) fun h => nomatch h
    | some old => exact ⟨fun h => ⟨old, rfl, h⟩, fun ⟨_, he, h⟩ => Option.some.inj he ▸ h⟩

-- A property without qualifiers.
def numberProperty (name : Text) (type : CMPIType) (text : Text) : XtokProperty XtokInstance where
  name      := name
  valueType := type
  val       := { u := .value { data := { ptr := .value (some text) } } }
  propType  := .Value

theorem numberProperty_hasText : HasText (numberProperty name type text) name type text :=
  ⟨rfl, rfl, ⟨_, rfl, rfl⟩, rfl, rfl⟩

theorem read_decimal_seven :
    ∃ q, getProperty (addProperty [] [110] .uint8 .good (.uint8 7)) [110] = some q ∧ q.type = .uint8 ∧
      (CMPIType.InRange .uint8 7 → q.value.integer = some (.uint8, 7)) ∧
      (q.state.isNull ↔ ∃ old : NativeProperty CMPIValue, getProperty [] [110] = some old ∧ old.state.isNull) := by
  have hp : HasText (numberProperty [110] .uint8 [55]) [110] .uint8 [55] := numberProperty_hasText
  have hr : setInstProperty {} .null (numberProperty [110] .uint8 [55]) =
      .ok ({ props := addProperty [] [110] .uint8 .good (.uint8 7) }, .uint8) := rfl
  exact read_decimal hp (by decide) (.plain (by decide) (by decide)) hr

-- 256 is read as 0.
theorem not_readAs_256 : ¬ ∀ (p : XtokProperty XtokInstance) (name : Text) (type : CMPIType) (text : Text) (n : ℤ)
    (r : CMPIInstance × CMPIType), HasText p name type text → type.IsIntegral → Decimal text n →
    setInstProperty {} .null p = .ok r → ∃ q, getProperty r.1.props name = some q ∧ ReadAs type n q := by
  intro h
  have ⟨q, hq, hread⟩ := h (numberProperty [110] .uint8 [50, 53, 54]) [110] .uint8 [50, 53, 54] 256
    ({ props := addProperty [] [110] .uint8 .good (.uint8 0) }, .uint8) numberProperty_hasText (by decide)
    (.plain (by decide) (by decide)) rfl
  have hnull := hread.outside (by decide)
  cases hq
  exact absurd hnull (by decide)

end

end Sfcc
