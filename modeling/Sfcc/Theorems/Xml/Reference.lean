import Sfcc.Theorems.Components
import Sfcc.Theorems.Xml.Keys
import Sfcc.Theorems.Xml.Wire

open Descent

-- A reference that is written and read again.
namespace Sfcc.Xml

-- The names on the way to an object, with what its namespace is made of.
structure Located (N M : Text → Prop) (p : CMPIObjectPath) : Prop where
  nameSpace : ∃ ns, p.nameSpace = some ns ∧ M ns ∧ ∀ c ∈ ns.splitOn 47, c ≠ [] ∧ c.length ≤ 255
  classname : ∃ cn, p.classname = some cn ∧ N cn
  distinct  : Named.Distinct NativeProperty.name p.keys
  names     : ∀ k ∈ p.keys, N k.name

-- The keys that keep their types. A text is not escaped.
inductive KeyValue (N M S : Text → Prop) : CMPIType → CMPIValue → Prop
  | string {t} (h : S t) (h60 : 60 ∉ t) : KeyValue N M S .string (.string (some t))
  | uint64 (n) : KeyValue N M S .uint64 (.uint64 n)
  | sint64 {n} (h : n < 0) : KeyValue N M S .sint64 (.sint64 n)
  | ref {p : CMPIObjectPath} (h : Located N M p) (hk : ∀ k ∈ p.keys, KeyValue N M S k.type k.value) :
    KeyValue N M S .ref (.ref p)

-- A text that does not end the attribute it is written to.
def Unquoted (t : Text) : Prop :=
  34 ∉ t

theorem IsName.unquoted {t : Text} (h : IsName t) : Unquoted t :=
  h.not_mem 34 (by simp)

section

variable {printg : Text → Text} {N N' M M' S : Text → Prop} {type : CMPIType} {v : CMPIValue}

theorem Located.imp {p : CMPIObjectPath} (hN : ∀ t, N t → N' t) (hM : ∀ t, M t → M' t) (h : Located N M p) :
    Located N' M' p where
  nameSpace := by
    have ⟨ns, hns, hm, hc⟩ := h.nameSpace
    exact ⟨ns, hns, hM ns hm, hc⟩
  classname := by
    have ⟨cn, hcn, hn⟩ := h.classname
    exact ⟨cn, hcn, hN cn hn⟩
  distinct  := h.distinct
  names     := fun k hk => hN _ (h.names k hk)

theorem KeyValue.imp (hN : ∀ t, N t → N' t) (hM : ∀ t, M t → M' t) (h : KeyValue N M S type v) : KeyValue N' M' S type v := by
  induction h with
  | string h h60 => exact .string h h60
  | uint64 n     => exact .uint64 n
  | sint64 h     => exact .sint64 h
  | ref h _ hi   => exact .ref (h.imp hN hM) hi

theorem Located.quotes {p : CMPIObjectPath} (h : Located Unquoted Unquoted p) :
    (∀ ns ∈ p.nameSpace, 34 ∉ ns) ∧ ∀ cn ∈ p.classname, 34 ∉ cn := by
  have ⟨ns, hns, hq, _⟩ := h.nameSpace
  have ⟨cn, hcn, hn⟩ := h.classname
  constructor
  · intro ns' hns'
    cases hns.symm.trans hns'
    exact hq
  · intro cn' hcn'
    cases hcn.symm.trans hcn'
    exact hn

theorem KeyValue.writable (h : KeyValue Unquoted Unquoted S type v) : Writable printg type v := by
  induction h with
  | string h h60      => exact .text trivial (by decide) rfl h60
  | uint64 n          =>
    exact .text trivial (by decide) (plain2Chars_integer printg rfl) (signedDecimal_word _).open_
  | sint64 h          =>
    exact .text trivial (by decide) (plain2Chars_integer printg rfl) (signedDecimal_word _).open_
  | ref h _ hi        =>
    have ⟨hns, hcn⟩ := h.quotes
    exact .ref hns hcn h.distinct h.names hi

theorem keyRead_uint64 (n : UInt64) : keyRead .uint64 (signedDecimal n.toNat) = (.uint64, .uint64 n) := by
  have hs : (signedDecimal n.toNat).head?.any isSign = false := by
    rw [signedDecimal, if_neg (by omega)]
    have hd := decimal_isdigit (n.toNat : ℤ).natAbs
    cases hc : decimal (n.toNat : ℤ).natAbs with
    | nil      => rfl
    | cons c t => exact (isspace_of_isdigit (hd c (hc ▸ List.mem_cons_self ..))).right
  have hn : (CMPIType.uint64 &&& (.integer ||| .real)) ≠ 0 := by decide
  have hb : CMPIType.uint64 ≠ .boolean := by decide
  rw [keyRead, if_neg hb, if_pos hn, hs, if_neg Bool.false_ne_true, scanUnsigned_signedDecimal _ n.toNat_lt, UInt64.ofNat_toNat]

theorem keyRead_sint64 {n : Int64} (h : n < 0) : keyRead .sint64 (signedDecimal n.toInt) = (.sint64, .sint64 n) := by
  have hlt : n.toInt < 0 := by simpa using Int64.lt_iff_toInt_lt.mp h
  have hs : (signedDecimal n.toInt).head?.any isSign := by
    rw [signedDecimal, if_pos hlt]
    rfl
  have hn : (CMPIType.sint64 &&& (.integer ||| .real)) ≠ 0 := by decide
  have hb : CMPIType.sint64 ≠ .boolean := by decide
  rw [keyRead, if_neg hb, if_pos hn, if_pos hs, scanSigned_signedDecimal _ n.le_toInt n.toInt_lt, Int64.ofInt_toInt]

theorem keysRead_contents {keys : List (NativeProperty CMPIValue)}
    (h : ∀ k ∈ keys, (valueRead printg k.type k.value).1 = k.type ∧ (valueRead printg k.type k.value).2.content = k.value.content) :
    contents (keysRead printg keys) = contents keys := by
  induction keys with
  | nil          => rfl
  | cons k keys hi =>
    have ⟨⟨ht, hv⟩, hkeys⟩ := List.forall_mem_cons.mp h
    rw [keysRead, contents, contents, ht, hv, hi hkeys]

-- What is read is what was written.
theorem KeyValue.read (h : KeyValue N M Content type v) :
    (valueRead printg type v).1 = type ∧ (valueRead printg type v).2.content = v.content := by
  induction h with
  | @string t h h60   =>
    have ht : plainText printg .string (.string (some t)) = t := rfl
    rw [valueRead, ht, h.framed.trimmed_eq]
    · exact ⟨rfl, rfl⟩
    · exact fun _ hp => by cases hp
  | uint64 n          =>
    have ht : plainText printg .uint64 (.uint64 n) = signedDecimal n.toNat := by
      rw [plainText, plain2Chars_integer printg rfl]
    rw [valueRead, ht, (signedDecimal_word _).content.framed.trimmed_eq, keyRead_uint64]
    · exact ⟨rfl, rfl⟩
    · exact fun _ hp => by cases hp
  | @sint64 n h       =>
    have ht : plainText printg .sint64 (.sint64 n) = signedDecimal n.toInt := by
      rw [plainText, plain2Chars_integer printg rfl]
    rw [valueRead, ht, (signedDecimal_word _).content.framed.trimmed_eq, keyRead_sint64 h]
    · exact ⟨rfl, rfl⟩
    · exact fun _ hp => by cases hp
  | @ref p h hk hi    =>
    obtain ⟨cn, hcn, _⟩ := h.classname
    cases p with
    | mk ns cn keys =>
      cases hcn
      rw [valueRead, if_pos rfl, pathRead, CMPIValue.content, keysRead_contents hi, CMPIValue.content]
      exact ⟨rfl, rfl⟩

-- What is left of the namespace of a path on the way. It is split by its length as an `int`.
def seen (p : CMPIObjectPath) : CMPIObjectPath :=
  { p with nameSpace := Tree.joined (NameSpace.kept (NameSpace.names p.nameSpace)) }

theorem seen_nameSpace (p : CMPIObjectPath) :
    (seen p).nameSpace = Tree.joined (NameSpace.kept (NameSpace.names p.nameSpace)) :=
  rfl

theorem seen_eq {p : CMPIObjectPath} (h : (seen p).nameSpace = p.nameSpace) : seen p = p := by
  have hs : seen p = { p with nameSpace := (seen p).nameSpace } := rfl
  rw [hs, h]

theorem addXmlNamespace_eq {p : CMPIObjectPath} {ns : Text} (hns : p.nameSpace = some ns)
    (h : ∀ c ∈ ns.splitOn 47, c.length ≤ 255) : addXmlNamespace p =
      .ok (bytes "<LOCALNAMESPACEPATH>\n" ++ (NameSpace.kept (NameSpace.names p.nameSpace)).flatMap namespaceElement ++
        bytes "</LOCALNAMESPACEPATH>\n") := by
  have hl : ∀ nsc ∈ NameSpace.names p.nameSpace, nsc.length ≤ 255 := hns ▸ NameSpace.names_length h
  rw [addXmlNamespace, NameSpace.getNameSpaceComponents_eq hl]
  rfl

theorem seen_quote {p : CMPIObjectPath} (h : ∀ ns ∈ p.nameSpace, 34 ∉ ns) :
    ∀ name ∈ NameSpace.kept (NameSpace.names p.nameSpace), 34 ∉ name := by
  apply (@NameSpace.kept_forall (34 ∉ ·) List.not_mem_nil _).mpr
  cases hns : p.nameSpace with
  | none    => exact nofun
  | some ns =>
    rw [NameSpace.names, Option.elim_some]
    exact fun name hn hq => h ns hns (List.mem_of_mem_take (mem_splitOn hn hq))

theorem joined_length {l : List Text} {t : Text} (h : Tree.joined l = some t) : NameSpace.weight l = t.length + 1 := by
  cases l with
  | nil             => cases h
  | cons name names =>
    rw [joined_cons] at h
    rw [← Option.some.inj h]
    exact NameSpace.weight_intercalate (List.cons_ne_nil _ _)

-- The namespace is the same just when its length is an `int`.
theorem seen_iff {p : CMPIObjectPath} {ns : Text} (hns : p.nameSpace = some ns) (h : ∀ c ∈ ns.splitOn 47, c ≠ []) :
    (seen p).nameSpace = p.nameSpace ↔ ns.length < 2 ^ 31 := by
  rw [seen_nameSpace, hns]
  constructor
  · intro hs
    by_contra hl
    have hw := NameSpace.weight_names (Nat.le_of_not_lt hl)
    rw [joined_length hs] at hw
    omega
  · intro hl
    rw [NameSpace.names_of_lt hl, NameSpace.kept_of_ne_nil h, joined_splitOn]

theorem content_ref (p : CMPIObjectPath) : (CMPIValue.ref p).content = .ref ⟨p.nameSpace, p.classname, contents p.keys⟩ := by
  cases p
  rw [CMPIValue.content]

-- The element of a reference, with the path that is read from it.
theorem addXmlReference_lexes {p : CMPIObjectPath} (hp : Located Unquoted Unquoted p)
    (hk : ∀ k ∈ p.keys, KeyValue Unquoted Unquoted Content k.type k.value) :
    ∃ text, ∃ t : Tree.Reference, addXmlReference printg p = .ok text ∧ Lexes text t.yield ∧
      ∃ q : CMPIObjectPath, referencePath t.xtok = .ok q ∧ q.clone = q ∧
        (CMPIValue.ref q).content = (CMPIValue.ref (seen p)).content := by
  have ⟨ns, hns, _, hcs⟩ := hp.nameSpace
  have ⟨cn, hcn, hname⟩ := hp.classname
  have ⟨hqns, hclass⟩ := hp.quotes
  have ⟨text, bs, hb⟩ := @bindsAll_of printg _ hp.distinct hp.names fun k hm => (hk k hm).writable.binds
  have ⟨element, he, hlname⟩ := instanceNameElement_lexes hclass hb
  have helement : element = bytes "<INSTANCENAME CLASSNAME=\"" ++ chars p.classname ++ bytes "\">\n" ++ text ++
      bytes "</INSTANCENAME>\n" := by
    simp only [instanceNameElement, hb.xml] at he
    cases he
    rfl
  let names := NameSpace.kept (NameSpace.names p.nameSpace)
  have hlns := nameSpaces_lexes (seen_quote hqns)
  have hl := valueReference_lexes (localInstancePath_lexes (hlns.line.append hlname).indented).line.indented
  have hy : (Tree.Reference.localInstancePath names (.mk (some (chars p.classname)) bs)).yield =
      Tree.tagged .VALUEREFERENCE () (Tree.tagged .LOCALINSTANCEPATH () (Tree.NameSpacePath.yieldLocal names ++
        (Tree.InstanceName.mk (some (chars p.classname)) bs).yield)) := by
    rw [Tree.Reference.yield, Tree.Reference.content]
  have hlex := hl.line
  rw [← hy] at hlex
  refine ⟨_, _, ?_, hlex, ?_⟩
  · have h₁ : bytes "<VALUE.REFERENCE>\n" = bytes "<VALUE.REFERENCE>" ++ [10] := rfl
    have h₂ : bytes "<LOCALINSTANCEPATH>\n" = bytes "<LOCALINSTANCEPATH>" ++ [10] := rfl
    have h₃ : bytes "</LOCALNAMESPACEPATH>\n" = bytes "</LOCALNAMESPACEPATH>" ++ [10] := rfl
    have h₄ : bytes "</LOCALINSTANCEPATH>\n" = bytes "</LOCALINSTANCEPATH>" ++ [10] := rfl
    have h₅ : bytes "</VALUE.REFERENCE>\n" = bytes "</VALUE.REFERENCE>" ++ [10] := rfl
    have hx := addXmlNamespace_eq hns fun c hc => (hcs c hc).right
    rw [addXmlReference]
    simp only [hb.xml, hns, helement, h₁, h₂, h₄, h₅, bind, Except.bind, pure, Except.pure]
    rw [hx]
    simp only [h₃, hns, List.append_assoc, List.cons_append, List.nil_append]
  · have hread := hb.read (newCMPIObjectPath (seen p).nameSpace (some (chars p.classname))) (by simp [newCMPIObjectPath])
    refine ⟨⟨(seen p).nameSpace, some (chars p.classname), keysRead printg p.keys⟩, ?_, ?_, ?_⟩
    · rw [Tree.Reference.xtok, Tree.InstanceName.xtok, referencePath]
      exact hread
    · rw [NativeCop.clone, keysRead_clone]
    · have hc : some (chars p.classname) = (seen p).classname := by
        show _ = p.classname
        rw [hcn]
        rfl
      rw [content_ref, content_ref, hc, keysRead_contents fun k hm => (hk k hm).read]
      rfl

-- A path is read as it was written.
def ReferenceSurvives (printg : Text → Text) (p : CMPIObjectPath) : Prop :=
  ∃ text x q, addXmlReference printg p = .ok text ∧ parsed (Grammar.valueReference Grammar.instanceName) {} text = .ok x ∧
    getKeyValueTypePtr (some (bytes "ref")) (.ref x) = .ok (some (.ref q), .ref) ∧
    (CMPIValue.ref q).content = (CMPIValue.ref p).content

theorem referenceSurvives_iff {p : CMPIObjectPath} (hp : Located IsName Unquoted p)
    (hk : ∀ k ∈ p.keys, KeyValue IsName Unquoted Content k.type k.value) :
    ReferenceSurvives printg p ↔ ∀ ns ∈ p.nameSpace, ns.length < 2 ^ 31 := by
  have hn : ∀ t, IsName t → Unquoted t := fun _ h => h.unquoted
  obtain ⟨text, t, ht, hlex, q, hr, _, hc⟩ := @addXmlReference_lexes printg p (hp.imp hn fun _ h => h) fun k hm =>
    (hk k hm).imp hn fun _ h => h
  have hread := hlex.parsed_eq (fun _ => Grammar.valueReference_reads Grammar.instanceName_reads) {}
  have hi : isRef (some (bytes "ref")) = true := rfl
  have hval : getKeyValueTypePtr (some (bytes "ref")) (.ref t.xtok) = .ok (some (.ref q), .ref) := by
    rw [getKeyValueTypePtr, if_pos hi, hr]
    rfl
  obtain ⟨ns, hns, _, hcs⟩ := hp.nameSpace
  have hseen := seen_iff hns fun c hc => (hcs c hc).left
  constructor
  · rintro ⟨text', x, q', ht', hx, hv, hc'⟩ ns' hns'
    cases hns.symm.trans hns'
    cases ht.symm.trans ht'
    cases hread.symm.trans hx
    cases hval.symm.trans hv
    rw [hc, content_ref, content_ref] at hc'
    have hs := congrArg NativeCop.nameSpace (CMPIValue.ref.inj hc')
    exact hseen.mp hs
  · intro hl
    rw [seen_eq (hseen.mpr (hl ns hns))] at hc
    exact ⟨text, t.xtok, q, ht, hread, hval, hc⟩

end

def systemPath : CMPIObjectPath :=
  ⟨some (bytes "root"), some (bytes "System"), [⟨bytes "Id", .uint64, .key, .uint64 5, []⟩]⟩

def partPath : CMPIObjectPath :=
  ⟨some (bytes "root/cimv2"), some (bytes "Part"), [⟨bytes "Owner", .ref, .key, .ref systemPath, []⟩]⟩

theorem isName_of {t : Text} (h : t.all fun c => isalnum c ∨ c = 95) : IsName t := by
  simpa [IsName] using h

theorem located_systemPath : Located IsName Unquoted systemPath :=
  ⟨⟨_, rfl, (isName_of (by decide)).unquoted, by decide⟩, ⟨_, rfl, isName_of (by decide)⟩, List.nodup_singleton _,
    List.forall_mem_singleton.mpr (isName_of (by decide))⟩

theorem located_partPath : Located IsName Unquoted partPath := by
  refine ⟨⟨_, rfl, ?_, by decide⟩, ⟨_, rfl, isName_of (by decide)⟩, List.nodup_singleton _,
    List.forall_mem_singleton.mpr (isName_of (by decide))⟩
  unfold Unquoted
  decide

def quotedPath : CMPIObjectPath :=
  ⟨some (bytes "a\"b"), some (bytes "C"), []⟩

theorem located_quotedPath : Located IsName (fun _ => True) quotedPath where
  nameSpace := ⟨bytes "a\"b", rfl, trivial, by decide⟩
  classname := ⟨bytes "C", rfl, isName_of (by decide)⟩
  distinct  := List.nodup_nil
  names     := fun _ h => absurd h List.not_mem_nil

def quotedText : Text :=
  bytes "<VALUE.REFERENCE>\n<LOCALINSTANCEPATH>\n<LOCALNAMESPACEPATH>\n<NAMESPACE NAME=\"a\"b\"></NAMESPACE>\n" ++
    bytes "</LOCALNAMESPACEPATH>\n<INSTANCENAME CLASSNAME=\"C\">\n</INSTANCENAME>\n</LOCALINSTANCEPATH>\n" ++
    bytes "</VALUE.REFERENCE>\n"

theorem reference_yield_length (t : Tree.Reference) : 4 ≤ t.yield.length := by
  have hname (n : Tree.InstanceName) : 2 ≤ n.yield.length := by
    cases n
    simp [Tree.InstanceName.yield, Tree.tagged]
  have hcontent : 2 ≤ t.content.length := by
    cases t with
    | instancePath _ _ | localInstancePath _ _ =>
      simp only [Tree.Reference.content, Tree.tagged, List.length_append, List.length_cons]
      omega
    | instanceName n                           => exact hname n
  simp [Tree.Reference.yield, Tree.tagged, hcontent]

end Sfcc.Xml
