import Sfcc.Headers
import Sfcc.Theorems.Cmpi.Chars
import Sfcc.Theorems.Components

-- How much room the headers of a request need.
namespace Sfcc

-- A text that is one line of a request.
def Unbroken (t : Text) : Prop :=
  13 ∉ t ∧ 10 ∉ t
  deriving Decidable

theorem unbroken_append {s t : Text} : Unbroken (s ++ t) ↔ Unbroken s ∧ Unbroken t := by
  simp only [Unbroken, List.mem_append]
  tauto

structure Headers.Safe (h : Headers) : Prop where
  inBounds  : ∀ w ∈ h.writes, w.InBounds
  method    : Unbroken h.method
  CimObject : Unbroken h.CimObject

namespace CharBuffer

variable {str str' str₁ str₂ : CharBuffer} {t t₁ t₂ : Text} {ok ok₁ ok₂ : Prop}

def Fits (str : CharBuffer) : Prop :=
  ∀ w ∈ str.writes, w.InBounds

-- A string in its block is terminated there.
def Ends (str : CharBuffer) : Prop :=
  str.Fits → str.base + str.text.length < str.size

-- A text is put behind a string, with `ok` for what is stored elsewhere.
structure Appends (str : CharBuffer) (t : Text) (ok : Prop) (str' : CharBuffer) : Prop where
  size : str'.size = str.size
  base : str'.base = str.base
  text : str'.text = str.text ++ t
  fits : str'.Fits ↔ str.Fits ∧ ok ∧ str.base + (str.text ++ t).length < str.size

theorem Appends.ends (h : Appends str t ok str') : str'.Ends := by
  intro hf
  rw [h.base, h.text, h.size]
  exact (h.fits.mp hf).right.right

theorem Appends.trans (h₁ : Appends str t₁ ok₁ str₁) (h₂ : Appends str₁ t₂ ok₂ str₂) :
    Appends str (t₁ ++ t₂) (ok₁ ∧ ok₂) str₂ where
  size := h₂.size.trans h₁.size
  base := h₂.base.trans h₁.base
  text := by rw [h₂.text, h₁.text, List.append_assoc]
  fits := by
    rw [h₂.fits, h₁.fits, h₁.base, h₁.text, h₁.size]
    simp only [List.length_append]
    constructor
    · intro ⟨⟨hs, ho₁, _⟩, ho₂, hl⟩
      exact ⟨hs, ⟨ho₁, ho₂⟩, by omega⟩
    · intro ⟨hs, ⟨ho₁, ho₂⟩, hl⟩
      exact ⟨⟨hs, ho₁, by omega⟩, ho₂, by omega⟩

theorem Appends.congr (h : Appends str t ok str') (ho : ok ↔ ok₁) : Appends str t ok₁ str' where
  size := h.size
  base := h.base
  text := h.text
  fits := by rw [h.fits, ho]

theorem fits_append {l : List Write} (h : str'.writes = str.writes ++ l) :
    str'.Fits ↔ str.Fits ∧ ∀ w ∈ l, w.InBounds := by
  rw [Fits, h, List.forall_mem_append]
  rfl

theorem strcat_fits (str : CharBuffer) (t : Text) :
    (str.strcat t).Fits ↔ str.Fits ∧ str.base + (str.text ++ t).length < str.size := by
  rw [fits_append (l := [_]) rfl, List.forall_mem_singleton]
  have h := @Write.inBounds_iff (str.base + str.text.length) str.size (t ++ [0])
  rw [Nat.cast_add] at h
  have hl : (t ++ [0]).length = t.length + 1 := List.length_append
  rw [h, hl, List.length_append]
  apply and_congr_right
  intro _
  omega

theorem appends_strcat (str : CharBuffer) (t : Text) : Appends str t True (str.strcat t) where
  size := rfl
  base := rfl
  text := rfl
  fits := by rw [strcat_fits, true_and]

theorem appends_log_strcat (str : CharBuffer) (ws : List Write) (t : Text) :
    Appends str t (∀ w ∈ ws, w.InBounds) ((str.log ws).strcat t) where
  size := rfl
  base := rfl
  text := rfl
  fits := by
    rw [strcat_fits, @fits_append str (str.log ws) ws rfl, and_assoc]
    rfl

-- What an `unsigned int` counts of a namespace, with a `%2F` for each slash.
def uriText (ns : Text) : Text :=
  ns.flatMap fun c => if c = 47 then bytes "%2F" else [c]

theorem uriText_unbroken (ns : Text) : Unbroken (uriText ns) ↔ Unbroken ns := by
  induction ns with
  | nil          => rfl
  | cons c ns hi =>
    rw [uriText, List.flatMap_cons, unbroken_append, ← uriText, hi, ← List.singleton_append (l := ns), unbroken_append]
    apply and_congr_left
    intro _
    by_cases hc : c = 47
    · subst hc
      exact iff_of_true ⟨by decide, by decide⟩ ⟨by decide, by decide⟩
    · rw [if_neg hc]

theorem store_fits (str : CharBuffer) (t : Text) :
    (str.store t).Fits ↔ str.Fits ∧ str.base + (str.text ++ t).length ≤ str.size := by
  rw [fits_append (l := [_]) rfl, List.forall_mem_singleton]
  have h := @Write.inBounds_iff (str.base + str.text.length) str.size t
  rw [Nat.cast_add] at h
  rw [h, List.length_append]
  apply and_congr_right
  intro _
  omega

theorem terminate_fits (str : CharBuffer) :
    str.terminate.Fits ↔ str.Fits ∧ str.base + str.text.length < str.size := by
  rw [fits_append (l := [_]) rfl, List.forall_mem_singleton]
  have h := @Write.inBounds_iff (str.base + str.text.length) str.size [0]
  rw [Nat.cast_add] at h
  rw [h]
  rfl

-- What the loop over a namespace stores fits if its end does.
theorem appends_stores (ns : Text) (str : CharBuffer) : Appends str (uriText ns) True
    (ns.foldl (fun str c => str.store (if c = 47 then bytes "%2F" else [c])) str).terminate := by
  induction ns generalizing str with
  | nil          => exact ⟨rfl, rfl, (List.append_nil _).symm, by rw [List.foldl_nil, terminate_fits]; simp [uriText]⟩
  | cons c ns hi =>
    have h := hi (str.store (if c = 47 then bytes "%2F" else [c]))
    refine ⟨h.size, h.base, ?_, ?_⟩
    · rw [List.foldl_cons, h.text]
      simp [store, uriText]
    · rw [List.foldl_cons, h.fits, store_fits]
      simp only [store, uriText, List.flatMap_cons, List.length_append, true_and]
      constructor
      · intro ⟨⟨hf, _⟩, hl⟩
        exact ⟨hf, by omega⟩
      · intro ⟨hf, hl⟩
        exact ⟨⟨hf, by omega⟩, by omega⟩

-- What is copied of a namespace, with the colon.
def nameSpaceText (uri : Bool) (ns : Text) : Text :=
  if ns = [] then []
  else if uri then uriText (ns.take (ns.length % 2 ^ 32)) ++ bytes "%3A"
  else ns ++ [58]

theorem appends_clear (str : CharBuffer) : Appends { str with text := [] } [] True str.clear where
  size := rfl
  base := rfl
  text := rfl
  fits := by
    rw [fits_append (l := [_]) rfl, List.forall_mem_singleton, Write.inBounds_iff (t := [0])]
    simp only [true_and]
    rfl

theorem clear_strcpy (str : CharBuffer) (t : Text) : str.clear.strcpy t = str.clear.strcat t := by
  simp [strcpy, strcat, clear]

theorem nameSpaceText_unbroken (uri : Bool) (ns : Text) :
    Unbroken (nameSpaceText uri ns) ↔ Unbroken (if uri then ns.take (ns.length % 2 ^ 32) else ns) := by
  have h : Unbroken (bytes "%3A") ∧ Unbroken [58] := by decide
  rw [nameSpaceText]
  by_cases hn : ns = []
  · simp [hn]
  · rw [if_neg hn]
    cases uri <;> simp [unbroken_append, uriText_unbroken, h]

-- A path is printed from the start of a block on.
theorem appends_setNameSpace (uri : Bool) (str : CharBuffer) (ns : Text) :
    Appends { str with text := [] } (nameSpaceText uri ns) True (str.clear.setNameSpace uri ns) := by
  have hc := appends_clear str
  rw [setNameSpace, nameSpaceText]
  by_cases hn : ns = []
  · simpa [hn] using hc
  · rw [if_neg hn, if_neg hn]
    cases uri
    case true =>
      have hs := appends_stores (ns.take (ns.length % 2 ^ 32)) str.clear
      exact ((hc.trans hs).trans (appends_strcat _ (bytes "%3A"))).congr (by simp)
    case false =>
      rw [if_neg Bool.false_ne_true, if_neg Bool.false_ne_true, clear_strcpy]
      exact ((hc.trans (appends_strcat _ ns)).trans (appends_strcat _ [58])).congr (by simp)

end CharBuffer

section Room

variable (printg : Text → Text)

mutual

-- The bytes that a value, a path and its keys are printed with.
def CMPIValue.room (type : CMPIType) : CMPIValue → ℕ
  | .ref path => if type = .ref then path.room else (plainText printg type (.ref path)).length
  | value     => (plainText printg type value).length

def NativeCop.room : CMPIObjectPath → ℕ
  | ⟨nameSpace, classname, keys⟩ =>
    (CharBuffer.nameSpaceText false (nameSpace.getD [])).length + (classname.getD []).length + keysRoom 1 keys

def keysRoom (equals : ℕ) : List (NativeProperty CMPIValue) → ℕ
  | []                                => 0
  | ⟨name, type, _, value, _⟩ :: keys =>
    1 + name.length + equals + (if type &&& (.integer ||| .real) ≠ 0 then 0 else 2) + value.room type +
      keysRoom equals keys

end

def NativeCop.uriRoom (p : CMPIObjectPath) : ℕ :=
  (CharBuffer.nameSpaceText true (p.nameSpace.getD [])).length + (p.classname.getD []).length +
    keysRoom printg 3 p.keys

mutual

-- All that is printed of them as it is, a namespace in a URI apart.
def CMPIValue.texts (type : CMPIType) : CMPIValue → List Text
  | .ref path => if type = .ref then path.texts else [plainText printg type (.ref path)]
  | value     => [plainText printg type value]

def NativeCop.texts : CMPIObjectPath → List Text
  | ⟨nameSpace, classname, keys⟩ => nameSpace.getD [] :: classname.getD [] :: keysTexts keys

def keysTexts : List (NativeProperty CMPIValue) → List Text
  | []                                => []
  | ⟨name, type, _, value, _⟩ :: keys => name :: (value.texts type ++ keysTexts keys)

end

def NativeCop.uriTexts (p : CMPIObjectPath) : List Text :=
  let ns := p.nameSpace.getD []
  ns.take (ns.length % 2 ^ 32) :: p.classname.getD [] :: keysTexts printg p.keys

end Room

mutual

-- The paths that a value refers to, at any depth.
def CMPIValue.references (type : CMPIType) : CMPIValue → List CMPIObjectPath
  | .ref path => if type = .ref then path :: path.references else []
  | _         => []

def NativeCop.references : CMPIObjectPath → List CMPIObjectPath
  | ⟨_, _, keys⟩ => keysReferences keys

def keysReferences : List (NativeProperty CMPIValue) → List CMPIObjectPath
  | []                                => []
  | ⟨_, type, _, value, _⟩ :: keys => value.references type ++ keysReferences keys

end

section Prints

variable (printg : Text → Text) {type : CMPIType} {v : CMPIValue}

-- A value is printed with the bytes it needs, and so are the paths it refers to.
structure Prints (type : CMPIType) (v : CMPIValue) (t : Text) (writes : List Write) : Prop where
  chars    : value2Chars printg type v = .ok t
  stored   : CharBuffer.value2CharsUri printg type v = .ok (t, writes)
  length   : t.length = v.room printg type
  unbroken : Unbroken t ↔ ∀ x ∈ v.texts printg type, Unbroken x
  inBounds : (∀ w ∈ writes, w.InBounds) ↔ ∀ q ∈ v.references type, q.room printg < 2048

-- So are the keys of a path.
structure PrintsKeys (uri : Bool) (separator : Text) (keys : List (NativeProperty CMPIValue)) (str : CharBuffer)
    (t : Text) (str' : CharBuffer) : Prop where
  chars    : uri = false → keysToChars printg separator keys = .ok t
  stored   : CharBuffer.keysToChars printg uri separator str keys = .ok str'
  length   : t.length = keysRoom printg (if uri then 3 else 1) keys
  unbroken : Unbroken t ↔ ∀ x ∈ keysTexts printg keys, Unbroken x
  appends  : CharBuffer.Appends str t (∀ q ∈ keysReferences keys, q.room printg < 2048) str'

theorem prints_plain {t : Text} (h : ∀ p, v = .ref p → type ≠ .ref) (ht : value2Chars printg type v = .ok t) :
    Prints printg type v t [] := by
  have hp : plain2Chars printg type v = .ok t := by
    by_cases hv : v.Plain
    · rwa [value2Chars_plain printg hv] at ht
    · cases v
      case ref p => rwa [value2Chars, if_neg (h p rfl)] at ht
      all_goals exact absurd trivial hv
  have hplain : plainText printg type v = t := by rw [plainText, hp]
  refine ⟨ht, ?_, ?_, ?_, ?_⟩ <;> cases v
  case refine_1.ref p | refine_2.ref p | refine_3.ref p | refine_4.ref p =>
    simp [CharBuffer.value2CharsUri, CMPIValue.room, CMPIValue.texts, CMPIValue.references, h p rfl, hp, hplain]
    try rfl
  all_goals simp [CharBuffer.value2CharsUri, CMPIValue.room, CMPIValue.texts, CMPIValue.references, hp, hplain]

theorem appends_quoted (str : CharBuffer) (writes : List Write) (type : CMPIType) (v : Text) :
    str.Appends (quoted type v) (∀ w ∈ writes, w.InBounds)
      (if type &&& (.integer ||| .real) ≠ 0 then (str.log writes).strcat v
      else (((str.log writes).strcat [34]).strcat v).strcat [34]) := by
  rw [quoted]
  split
  · exact CharBuffer.appends_log_strcat str writes v
  · have h := (CharBuffer.appends_log_strcat str writes [34]).trans (CharBuffer.appends_strcat _ v)
    exact (h.trans (CharBuffer.appends_strcat _ [34])).congr (by simp)

theorem quoted_length (type : CMPIType) (v : Text) :
    (quoted type v).length = (if type &&& (.integer ||| .real) ≠ 0 then 0 else 2) + v.length := by
  rw [quoted]
  split
  · exact (Nat.zero_add _).symm
  · simp only [List.length_append, List.length_singleton]
    omega

theorem quoted_unbroken (type : CMPIType) (v : Text) : Unbroken (quoted type v) ↔ Unbroken v := by
  have hq : Unbroken [34] := by decide
  rw [quoted]
  split
  · rfl
  · simp only [unbroken_append, hq, true_and, and_true]

theorem printsKeys_of (uri : Bool) {keys : List (NativeProperty CMPIValue)}
    (h : ∀ k ∈ keys, ∃ t writes, Prints printg k.type k.value t writes) {separator : Text}
    (hs : separator.length = 1 ∧ Unbroken separator) {str : CharBuffer} (he : str.Ends) :
    ∃ t str', PrintsKeys printg uri separator keys str t str' := by
  induction keys generalizing separator str with
  | nil          =>
    refine ⟨[], str, fun _ => rfl, rfl, rfl, ?_, rfl, rfl, (List.append_nil _).symm, ?_⟩
    · simp [keysTexts, Unbroken]
    · simp only [keysReferences, List.not_mem_nil, false_implies, implies_true, true_and, List.append_nil]
      exact ⟨fun hf => ⟨hf, he hf⟩, And.left⟩
  | cons k keys hi =>
    have ⟨hk, hkeys⟩ := List.forall_mem_cons.mp h
    have ⟨v, writes, hv⟩ := hk
    let equals := if uri then bytes "%3D" else [61]
    have hname := ((CharBuffer.appends_strcat str separator).trans (CharBuffer.appends_strcat _ k.name)).trans
      (CharBuffer.appends_strcat _ equals)
    have hvalue := hname.trans (appends_quoted _ writes k.type v)
    have ⟨t, str', ht⟩ := hi hkeys (⟨rfl, by decide⟩ : ([44] : Text).length = 1 ∧ Unbroken [44]) hvalue.ends
    have happends := hvalue.trans ht.appends
    refine ⟨_, str', ?_, ?_, ?_, ?_, happends.congr ?_⟩
    · intro hu
      subst hu
      have hchars := ht.chars rfl
      simp only [keysToChars, hv.chars, hchars, bind, Except.bind]
      simp [equals]
      rfl
    · rw [CharBuffer.keysToChars, hv.stored]
      exact ht.stored
    · have hl : equals.length = if uri then 3 else 1 := by cases uri <;> rfl
      simp only [List.length_append, quoted_length, ht.length, hv.length, hs.left, hl, keysRoom]
      omega
    · have hu : Unbroken equals := by cases uri <;> decide
      simp only [unbroken_append, quoted_unbroken, ht.unbroken, hv.unbroken, hs.right, hu, keysTexts,
        List.forall_mem_cons, List.forall_mem_append, true_and, and_true]
      tauto
    · simp only [hv.inBounds, keysReferences, List.forall_mem_append, true_and]

-- A path is printed from the start of a block on.
structure PrintsPath (uri : Bool) (p : CMPIObjectPath) (str : CharBuffer) (t : Text) (str' : CharBuffer) : Prop where
  chars    : uri = false → pathToChars printg p = .ok t
  stored   : CharBuffer.pathToChars printg uri str p = .ok str'
  length   : t.length = if uri then p.uriRoom printg else p.room printg
  unbroken : Unbroken t ↔ ∀ x ∈ if uri then p.uriTexts printg else p.texts printg, Unbroken x
  appends  : CharBuffer.Appends { str with text := [] } t (∀ q ∈ p.references, q.room printg < 2048) str'

theorem printsPath_of (uri : Bool) {p : CMPIObjectPath} (hc : p.classname.isSome)
    (h : ∀ k ∈ p.keys, ∃ t writes, Prints printg k.type k.value t writes) (str : CharBuffer) :
    ∃ t str', PrintsPath printg uri p str t str' := by
  have ⟨cn, hcn⟩ := Option.isSome_iff_exists.mp hc
  have hname := (CharBuffer.appends_setNameSpace uri str (p.nameSpace.getD [])).trans (CharBuffer.appends_strcat _ cn)
  have ⟨t, str', ht⟩ := printsKeys_of printg uri h (⟨rfl, by decide⟩ : ([46] : Text).length = 1 ∧ Unbroken [46]) hname.ends
  cases p
  cases hcn
  refine ⟨_, str', ?_, ?_, ?_, ?_, (hname.trans ht.appends).congr ?_⟩
  · intro hu
    subst hu
    have hchars := ht.chars rfl
    simp only [pathToChars, CharBuffer.nameSpaceText, hchars, deref, bind, Except.bind]
    rfl
  · rw [CharBuffer.pathToChars]
    exact ht.stored
  · simp only [List.length_append, ht.length]
    cases uri <;> rfl
  · simp only [unbroken_append, CharBuffer.nameSpaceText_unbroken, ht.unbroken]
    cases uri <;> simp [NativeCop.uriTexts, NativeCop.texts, and_assoc]
  · simp [NativeCop.references]

theorem prints_of (h : v.Typed type) : ∃ t writes, Prints printg type v t writes := by
  induction h with
  | @ref p hc h hk hi =>
    obtain ⟨t, str, ht⟩ := printsPath_of printg false hc hi { size := 2048, writes := [⟨0, [0], 2048⟩] }
    refine ⟨t, str.writes, ?_, ?_, ?_, ?_, ?_⟩
    · exact ht.chars rfl
    · rw [CharBuffer.value2CharsUri, if_pos rfl, ht.stored]
      simp only [bind, Except.bind, pure, Except.pure, ht.appends.text, List.nil_append]
    · simpa [CMPIValue.room] using ht.length
    · simpa [CMPIValue.texts] using ht.unbroken
    · have hfits := ht.appends.fits
      have hfirst : CharBuffer.Fits { size := 2048, writes := [⟨0, [0], 2048⟩] } := by
        simp [CharBuffer.Fits, Write.InBounds]
      have hlength : t.length = p.room printg := ht.length
      simp only [List.nil_append, hlength, Nat.zero_add] at hfits
      rw [CMPIValue.references, if_pos rfl, List.forall_mem_cons]
      exact hfits.trans ((and_iff_right hfirst).trans and_comm)
  | @other type v h =>
    obtain ⟨t, ht⟩ := value2Chars_ok printg (.other h : v.Typed type)
    refine ⟨t, [], prints_plain printg (fun p _ hr => h ?_) ht⟩
    rw [hr]
    decide
  | integer h =>
    obtain ⟨t, ht⟩ := value2Chars_ok printg (.integer h)
    refine ⟨t, [], prints_plain printg (fun p hp => ?_) ht⟩
    subst hp
    cases h
  | zero h          =>
    obtain ⟨t, ht⟩ := value2Chars_ok printg (.zero h)
    exact ⟨t, [], prints_plain printg (by simp) ht⟩
  | string text h   =>
    obtain ⟨t, ht⟩ := value2Chars_ok printg (.string text h)
    exact ⟨t, [], prints_plain printg (by simp) ht⟩
  | boolean b       => exact ⟨_, [], prints_plain printg (by simp) (value2Chars_plain printg trivial)⟩
  | real32 text     => exact ⟨_, [], prints_plain printg (by simp) (value2Chars_plain printg trivial)⟩
  | real64 text     => exact ⟨_, [], prints_plain printg (by simp) (value2Chars_plain printg trivial)⟩
  | chars text      => exact ⟨_, [], prints_plain printg (by simp) (value2Chars_plain printg trivial)⟩
  | dateTime cimDt  => exact ⟨_, [], prints_plain printg (by simp) (value2Chars_plain printg trivial)⟩

end Prints

namespace CharBuffer

theorem appends_joinComponents (nsc : Text) (ul : List Text) (str : CharBuffer) :
    Appends str (List.intercalate (bytes "%2F") (nsc :: ul)) True (str.joinComponents (nsc :: ul)) := by
  induction ul generalizing nsc str with
  | nil            => simpa [List.intercalate, joinComponents] using appends_strcat str nsc
  | cons nsc' ul hi =>
    have h := (appends_strcat str nsc).trans (appends_strcat _ (bytes "%2F"))
    have ht : Appends str _ True _ := (h.trans (hi nsc' _)).congr (by simp)
    simpa [List.intercalate, joinComponents] using ht

theorem intercalate_unbroken (l : List Text) :
    Unbroken (List.intercalate (bytes "%2F") l) ↔ ∀ nsc ∈ l, Unbroken nsc := by
  have hsep : Unbroken (bytes "%2F") := by decide
  match l with
  | []            => exact iff_of_true ⟨nofun, nofun⟩ nofun
  | [nsc]         => simp [List.intercalate]
  | nsc :: d :: l =>
    have hi := intercalate_unbroken (d :: l)
    have hl : List.intercalate (bytes "%2F") (nsc :: d :: l) =
        nsc ++ bytes "%2F" ++ List.intercalate (bytes "%2F") (d :: l) := by
      simp [List.intercalate]
    rw [hl, unbroken_append, unbroken_append, hi, List.forall_mem_cons (a := nsc)]
    simp only [hsep, and_true]

end CharBuffer

open CharBuffer

def NativeCop.nameSpaceComponents (p : CMPIObjectPath) : List Text :=
  NameSpace.names p.nameSpace

structure NativeCop.Printable (p : CMPIObjectPath) : Prop where
  classname : p.classname.isSome
  typed     : ∀ k ∈ p.keys, k.value.Typed k.type

-- There is room for the operation, and either for the path and all paths it refers to or for the
-- components of its namespace, and all of it is one line.
structure Roomy (printg : Text → Text) (op : Text) (cop : CMPIObjectPath) (classWithKeys : Bool) : Prop where
  op         : op.length ≤ 244 ∧ Unbroken op
  path       : classWithKeys = true → cop.uriRoom printg ≤ 500 ∧ (∀ q ∈ cop.references, q.room printg < 2048) ∧
    ∀ t ∈ cop.uriTexts printg, Unbroken t
  components : classWithKeys = false → (List.intercalate (bytes "%2F") (NameSpace.kept cop.nameSpaceComponents)).length ≤ 500 ∧
    ∀ nsc ∈ cop.nameSpaceComponents, nsc.length < 256 ∧ Unbroken nsc

section

variable (printg : Text → Text) (op : Text) {cop : CMPIObjectPath}

theorem method_safe : (strcat { size := 256, text := bytes "CIMMethod: " } op).Fits ∧
    Unbroken (strcat { size := 256, text := bytes "CIMMethod: " } op).text ↔ op.length ≤ 244 ∧ Unbroken op := by
  have h := appends_strcat { size := 256, text := bytes "CIMMethod: " } op
  have hu : Unbroken (bytes "CIMMethod: ") := by decide
  have hl : (bytes "CIMMethod: " ++ op).length = 11 + op.length := List.length_append
  have hw : CharBuffer.Fits { size := 256, text := bytes "CIMMethod: " } := nofun
  rw [h.fits, h.text, unbroken_append]
  simp only [hw, hu, hl, true_and]
  apply and_congr_left
  intro _
  omega

theorem joinComponents_safe (ul : List Text) :
    (joinComponents { size := 512, text := bytes "CIMObject: " } ul).Fits ∧
      Unbroken (joinComponents { size := 512, text := bytes "CIMObject: " } ul).text ↔
    (List.intercalate (bytes "%2F") ul).length ≤ 500 ∧ ∀ nsc ∈ ul, Unbroken nsc := by
  have hu : Unbroken (bytes "CIMObject: ") := by decide
  cases ul with
  | nil         => exact iff_of_true ⟨nofun, hu⟩ ⟨Nat.zero_le _, nofun⟩
  | cons nsc ul =>
    have h := appends_joinComponents nsc ul { size := 512, text := bytes "CIMObject: " }
    have hl (t : Text) : (bytes "CIMObject: " ++ t).length = 11 + t.length := List.length_append
    have hw : CharBuffer.Fits { size := 512, text := bytes "CIMObject: " } := nofun
    rw [h.fits, h.text, unbroken_append, intercalate_unbroken]
    simp only [hw, hu, hl, true_and]
    apply and_congr_left
    intro _
    omega

theorem safe_iff {method CimObject : Text} {ws ws' : List Write} : Headers.Safe ⟨method, CimObject, ws ++ ws'⟩ ↔
    ((∀ w ∈ ws, w.InBounds) ∧ Unbroken method) ∧ (∀ w ∈ ws', w.InBounds) ∧ Unbroken CimObject := by
  constructor
  · intro h
    have ⟨hw, hw'⟩ := List.forall_mem_append.mp h.inBounds
    exact ⟨⟨hw, h.method⟩, hw', h.CimObject⟩
  · intro ⟨⟨hw, hm⟩, hw', hc⟩
    exact ⟨List.forall_mem_append.mpr ⟨hw, hw'⟩, hm, hc⟩

-- The headers of a request stay in their buffers and are one line each if there is room for them.
theorem genRequest_safe_iff (hp : cop.Printable) (classWithKeys : Bool) :
    (∃ h, genRequest printg op cop classWithKeys = .ok h ∧ h.Safe) ↔ Roomy printg op cop classWithKeys := by
  have hmethod := method_safe op
  cases classWithKeys
  case true =>
    have ⟨t, str, ht⟩ := printsPath_of printg true hp.classname (fun k hk => prints_of printg (hp.typed k hk))
      { size := 512, base := 11 }
    have hpath : (∀ w ∈ str.writes, w.InBounds) ∧ Unbroken (bytes "CIMObject: " ++ str.text) ↔
        cop.uriRoom printg ≤ 500 ∧ (∀ q ∈ cop.references, q.room printg < 2048) ∧
          ∀ t ∈ cop.uriTexts printg, Unbroken t := by
      have hfits := ht.appends.fits
      have hw : CharBuffer.Fits { size := 512, base := 11 } := nofun
      have hu : Unbroken (bytes "CIMObject: ") := by decide
      have hlength : t.length = cop.uriRoom printg := ht.length
      have hunbroken : Unbroken t ↔ ∀ x ∈ cop.uriTexts printg, Unbroken x := ht.unbroken
      simp only [hw, List.nil_append, hlength, true_and] at hfits
      rw [ht.appends.text, unbroken_append, List.nil_append, ← hunbroken, ← CharBuffer.Fits, hfits]
      simp only [hu, true_and]
      constructor
      · intro ⟨⟨hr, hl⟩, hu⟩
        exact ⟨by omega, hr, hu⟩
      · intro ⟨hl, hr, hu⟩
        exact ⟨⟨hr, by omega⟩, hu⟩
    have hreq : genRequest printg op cop true = .ok ⟨(strcat { size := 256, text := bytes "CIMMethod: " } op).text,
        bytes "CIMObject: " ++ str.text, (strcat { size := 256, text := bytes "CIMMethod: " } op).writes ++ str.writes⟩ := by
      rw [genRequest, if_pos rfl, ht.stored]
      rfl
    simp only [hreq, Except.ok.injEq, exists_eq_left', safe_iff, hpath]
    constructor
    · intro ⟨hm, hc⟩
      exact ⟨hmethod.mp hm, fun _ => hc, nofun⟩
    · intro h
      exact ⟨hmethod.mpr h.op, h.path rfl⟩
  case false =>
    have hsplit : (NameSpace.split cop.nameSpace).1 = NameSpace.kept cop.nameSpaceComponents ∧
        ((∀ w ∈ (NameSpace.split cop.nameSpace).2, w.InBounds) ↔ ∀ nsc ∈ cop.nameSpaceComponents, nsc.length < 256) :=
      NameSpace.split_eq cop.nameSpace
    obtain ⟨hul, hw⟩ := hsplit
    have hjoin := joinComponents_safe (NameSpace.kept cop.nameSpaceComponents)
    rw [NameSpace.kept_forall ⟨nofun, nofun⟩] at hjoin
    have hreq : genRequest printg op cop false = .ok ⟨(strcat { size := 256, text := bytes "CIMMethod: " } op).text,
        (joinComponents { size := 512, text := bytes "CIMObject: " } (NameSpace.kept cop.nameSpaceComponents)).text,
        (strcat { size := 256, text := bytes "CIMMethod: " } op).writes ++
          ((NameSpace.split cop.nameSpace).2 ++
            (joinComponents { size := 512, text := bytes "CIMObject: " } (NameSpace.kept cop.nameSpaceComponents)).writes)⟩ := by
      rw [genRequest, if_neg Bool.false_ne_true, ← hul, ← List.append_assoc]
      rfl
    simp only [hreq, Except.ok.injEq, exists_eq_left', safe_iff, List.forall_mem_append, hw]
    constructor
    · intro ⟨hm, ⟨hl, hf⟩, hu⟩
      have ⟨hr, hc⟩ := hjoin.mp ⟨hf, hu⟩
      exact ⟨hmethod.mp hm, nofun, fun _ => ⟨hr, fun nsc hn => ⟨hl nsc hn, hc nsc hn⟩⟩⟩
    · intro h
      have ⟨hr, hc⟩ := h.components rfl
      have ⟨hf, hu⟩ := hjoin.mpr ⟨hr, fun nsc hn => (hc nsc hn).right⟩
      exact ⟨hmethod.mpr h.op, ⟨fun nsc hn => (hc nsc hn).left, hf⟩, hu⟩

end

-- A path with keys, for an operation on a class and for a method.
theorem genRequest_safe_iff_drive :
    ((∃ h, genRequest id (bytes "GetClass") drivePath false = .ok h ∧ h.Safe) ↔
      Roomy id (bytes "GetClass") drivePath false) ∧
    ((∃ h, genRequest id (bytes "Reset") drivePath true = .ok h ∧ h.Safe) ↔ Roomy id (bytes "Reset") drivePath true) := by
  have hp : drivePath.Printable := ⟨rfl, drivePath_addressed.comparable.typed⟩
  exact ⟨genRequest_safe_iff id _ hp false, genRequest_safe_iff id _ hp true⟩

-- The name of a method is put behind eleven bytes of 256.
theorem not_genRequest_safe_long : ¬ ∀ (printg : Text → Text) (op : Text) (cop : CMPIObjectPath) (classWithKeys : Bool),
    cop.Printable → ∃ h, genRequest printg op cop classWithKeys = .ok h ∧ h.Safe := by
  intro h
  have ⟨h, he, hs⟩ := h id (List.replicate 245 97) { classname := some (bytes "A") } false ⟨rfl, fun _ h => absurd h List.not_mem_nil⟩
  cases he
  have hf : (strcat { size := 256, text := bytes "CIMMethod: " } (List.replicate 245 97)).Fits := fun w hw =>
    hs.inBounds w (List.mem_append_left _ (List.mem_append_left _ hw))
  have hl := ((method_safe (List.replicate 245 97)).mp ⟨hf, hs.method⟩).left
  rw [List.length_replicate] at hl
  omega

end Sfcc
