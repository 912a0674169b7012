import Mathlib.Tactic.SplitIfs
import Sfcc.Theorems.Cmpi.Array
import Sfcc.Theorems.Cmpi.Named
import Sfcc.Xml.Convert

namespace Sfcc.Xml

section Scanners

variable {type : CMPIType} {scan : Text → CMPIValue} {text : Option Text}

theorem scanner_mem (h : scanner type = some scan) : (type, scan) ∈ scanners := by
  have ⟨e, he, hs⟩ := Option.map_eq_some_iff.mp h
  have ht : e.1 = type := by simpa using List.find?_some he
  rw [← ht, ← hs]
  exact List.mem_of_find?_eq_some he

-- The types `str2CMPIText` treats on its own.
theorem scanner_ne (h : scanner type = some scan) :
    type ≠ .null ∧ type ≠ .string ∧ type ≠ .dateTime ∧ type ≠ .ref ∧ type ≠ .inst := by
  refine ⟨?_, ?_, ?_, ?_, ?_⟩
  all_goals
    intro ht
    subst ht
    cases h

@[simp]
theorem str2CMPIText_string : str2CMPIText .string text = .ok (.string text) :=
  rfl

@[simp]
theorem str2CMPIText_dateTime :
    str2CMPIText .dateTime text = .ok (.dateTime (newCMPIDateTimeFromChars text)) :=
  rfl

@[simp]
theorem str2CMPIText_ref : str2CMPIText .ref text = .error .null :=
  rfl

theorem str2CMPIText_scanner (h : scanner type = some scan) :
    str2CMPIText type text = scan <$> deref text := by
  have ⟨hn, hs, hd, hr, hi⟩ := scanner_ne h
  simp only [str2CMPIText, if_neg hn, if_neg hs, if_neg hd, if_neg hr, if_neg hi, h, pure_bind]
  rfl

-- The types that are guessed from a text.
theorem guessType_mem (t : Text) : guessType t ∈ [CMPIType.string, .boolean, .sint64, .uint64] := by
  cases t with
  | nil      => simp [guessType]
  | cons c t =>
    simp only [guessType]
    split_ifs <;> simp

theorem guessType_ne_null (t : Text) : guessType t ≠ .null := by
  intro hn
  have hm := guessType_mem t
  rw [hn] at hm
  revert hm
  decide

theorem str2CMPIText_null (t : Text) :
    str2CMPIText .null (some t) = str2CMPIText (guessType t) (some t) := by
  unfold str2CMPIText
  simp only [guessType_ne_null t, deref]
  rfl

theorem str2CMPIText_of_ne_null (h : type ≠ .null) :
    str2CMPIText type text =
      if type = .string then .ok (.string text)
      else if type = .dateTime then .ok (.dateTime (newCMPIDateTimeFromChars text))
      else if type = .ref then .error .null
      else if type = .inst then text.elim (.error .null) fun _ => .error .wild
      else match scanner type with
        | some scan => scan <$> deref text
        | none      => .error .abort := by
  unfold str2CMPIText
  rw [if_neg h]
  rfl

theorem scanner_guessType {t : Text} (h : guessType t ≠ .string) :
    ∃ scan, scanner (guessType t) = some scan := by
  have ht := guessType_mem t
  simp only [List.mem_cons, List.not_mem_nil, or_false] at ht
  rcases ht with ht | ht | ht | ht
  · exact absurd ht h
  all_goals
    rw [ht]
    exact ⟨_, rfl⟩

-- What is scanned from a text is not an object.
theorem scanner_ne_inst (h : scanner type = some scan) (t : Text) (i : CMPIInstance) :
    scan t ≠ .inst i := by
  have hm := scanner_mem h
  simp only [scanners, List.mem_cons, List.not_mem_nil, or_false, Prod.mk.injEq] at hm
  rcases hm with ⟨-, rfl⟩ | ⟨-, rfl⟩ | ⟨-, rfl⟩ | ⟨-, rfl⟩ | ⟨-, rfl⟩ | ⟨-, rfl⟩ | ⟨-, rfl⟩ |
    ⟨-, rfl⟩ | ⟨-, rfl⟩ | ⟨-, rfl⟩ | ⟨-, rfl⟩ | ⟨-, rfl⟩ | ⟨-, rfl⟩
  all_goals
    simp only [scanSigned, scanUnsigned]
    cases scanNumber t <;> simp

end Scanners

-- The elements of an array are converted one after the other, and set.

theorem arrayElements_eq (type : CMPIType) (arr : CMPIArray) (i : ℕ)
    (vals : List (XtokPointer XtokInstance)) : arrayElements type arr i vals =
      (vals.mapM (str2CMPIPointer type)).map (arr.setFrom type i) := by
  induction vals generalizing arr i with
  | nil            => simp [arrayElements, NativeArray.setFrom, pure, Except.pure, Except.map]
  | cons v vals hi =>
    rw [arrayElements, List.mapM_cons]
    cases str2CMPIPointer type v with
    | error e => rfl
    | ok w    =>
      refine (hi _ _).trans ?_
      show _ = (vals.mapM (str2CMPIPointer type) >>= fun vs => pure (w :: vs)).map _
      cases vals.mapM (str2CMPIPointer type) <;> rfl

theorem arrayElementsDecoded_eq (type : CMPIType) (arr : CMPIArray) (i : ℕ)
    (vals : List (XtokPointer XtokInstance)) : arrayElementsDecoded type arr i vals =
      (vals.mapM (str2CMPIDecoded type)).map (arr.setFrom type i) := by
  induction vals generalizing arr i with
  | nil            => simp [arrayElementsDecoded, NativeArray.setFrom, pure, Except.pure, Except.map]
  | cons v vals hi =>
    rw [arrayElementsDecoded, List.mapM_cons]
    cases str2CMPIDecoded type v with
    | error e => rfl
    | ok w    =>
      refine (hi _ _).trans ?_
      show _ = (vals.mapM (str2CMPIDecoded type) >>= fun vs => pure (w :: vs)).map _
      cases vals.mapM (str2CMPIDecoded type) <;> rfl

end Sfcc.Xml
