import Sfcc.Theorems.Xml.Frame

-- The cursor does not go back, and every token takes it further.
namespace Sfcc.Xml

-- What is left when the run returns.
def Leaves {α : Type} (k : ℕ) (x : Except LexEnd (α × XmlBuffer)) : Prop :=
  ∀ a xb, x = .ok (a, xb) → xb.rest.length ≤ k

namespace Leaves

variable {α β : Type} {k m : ℕ}

theorem pure {a : α} {xb : XmlBuffer} (h : xb.rest.length ≤ k) : Leaves k (.ok (a, xb)) := by
  intro _ _ he
  cases he
  exact h

theorem error {e : LexEnd} : Leaves k (.error e : Except LexEnd (α × XmlBuffer)) :=
  nofun

theorem bind {x : Except LexEnd (α × XmlBuffer)} {f : α × XmlBuffer → Except LexEnd (β × XmlBuffer)} (hx : Leaves m x)
    (hf : ∀ a xb, xb.rest.length ≤ m → Leaves k (f (a, xb))) : Leaves k (x >>= f) := by
  intro b xb hb
  cases x with
  | error e => cases hb
  | ok p    => exact hf p.1 p.2 (hx p.1 p.2 rfl) b xb hb

end Leaves

namespace XmlBuffer

variable {xb xb' : XmlBuffer}

theorem advance_length (n : ℕ) : (xb.advance n).rest.length = xb.rest.length - n :=
  List.length_drop

theorem skipWS_length : xb.skipWS.rest.length ≤ xb.rest.length := by
  rw [skipWS, advance_length]
  exact Nat.sub_le ..

theorem getChars_length {s : Text} (h : xb.getChars s = some xb') : xb'.rest.length + s.length = xb.rest.length := by
  rw [getChars] at h
  split at h
  · have hl := (List.isPrefixOf_iff_prefix.mp ‹_› : s <+: xb.rest).length_le
    cases h
    rw [advance_length]
    omega
  · cases h

theorem getWord_length {w : Text} {xCase : Bool} (h : xb.getWord w xCase = some xb') :
    xb'.rest.length + w.length = xb.rest.length := by
  have ⟨hw, he⟩ : (xb.rest.take w.length).length = w.length ∧ xb' = xb.advance w.length := by
    cases xCase with
    | false =>
      simp only [getWord, Bool.false_eq_true, if_false] at h
      split at h
      · have hw := (‹_ ∧ _› : _ ∧ _).left
        exact ⟨length_of_same hw, (Option.some.inj h).symm⟩
      · cases h
    | true  =>
      simp only [getWord, if_true] at h
      split at h
      · have hw := (‹_ ∧ _› : _ ∧ _).left
        exact ⟨congrArg _ hw, (Option.some.inj h).symm⟩
      · cases h
  rw [List.length_take] at hw
  rw [he, advance_length]
  omega

theorem skipTag_length (h : xb.skipTag = .ok xb') : xb'.rest.length < xb.rest.length := by
  simp only [skipTag] at h
  split at h
  · cases h
    rw [advance_length]
    omega
  · cases h

theorem tagEquals_length {t : Text} (h : xb.tagEquals t = .ok (some xb')) : xb'.rest.length + t.length < xb.rest.length := by
  rw [tagEquals] at h
  split at h
  · cases h
  · have hr : xb.rest = 0 :: _ := ‹_›
    cases hw : (xb.advance 1).skipWS.skipWS.getWord t true with
    | none   =>
      rw [hw] at h
      cases h
    | some y =>
      rw [hw] at h
      cases h
      have h₁ := getWord_length hw
      have h₂ := @skipWS_length (xb.advance 1).skipWS
      have h₃ := @skipWS_length (xb.advance 1)
      have h₄ := @advance_length xb 1
      rw [hr, List.length_cons] at h₄ ⊢
      omega
  · cases hc : xb.skipWS.getChars [60] with
    | none   =>
      rw [hc] at h
      cases h
    | some y =>
      rw [hc] at h
      have hw : y.skipWS.getWord t true = some xb' := Except.ok.inj h
      have h₁ := getWord_length hw
      have h₂ := @skipWS_length y
      have h₃ := getChars_length hc
      have h₄ := @skipWS_length xb
      have h₅ : ([60] : Text).length = 1 := rfl
      omega

theorem getValue_leaves : Leaves xb.rest.length xb.getValue := by
  have hs := @skipWS_length xb
  rw [getValue]
  simp only
  split
  · exact .pure hs
  · have hr : xb.skipWS.rest = _ :: _ := ‹_›
    rw [hr, List.length_cons] at hs
    split
    · split
      · refine .pure ?_
        simp only [List.length_drop]
        omega
      · exact .error
    · exact .pure (by rw [hr, List.length_cons]; exact hs)

theorem attrOk_leaves (as : List XmlAttr) : Leaves xb.rest.length (xb.attrOk as) := by
  induction as with
  | nil          => exact .error
  | cons a as hi =>
    rw [attrOk]
    split
    · rename_i y hy
      have h₁ : y.rest.length ≤ xb.rest.length := by
        split at hy
        · cases hy
        · have := getWord_length hy
          omega
      split
      · rename_i z hz
        have h₂ := getChars_length hz
        have h₃ := @skipWS_length y
        refine getValue_leaves.bind fun _ _ h => .pure ?_
        omega
      · exact .error
    · exact hi.bind fun _ _ h => .pure h

theorem attributes_leaves (n : ℕ) (as : List XmlAttr) : Leaves xb.rest.length (xb.attributes n as) := by
  induction n generalizing xb as with
  | zero      =>
    have hs := @skipWS_length xb
    simp only [attributes]
    split
    · exact .error
    · exact .pure hs
  | succ n hi =>
    have hs := @skipWS_length xb
    simp only [attributes]
    split
    · refine (attrOk_leaves as).bind fun as₁ xb₁ h₁ a y hy => ?_
      have h₂ := @hi xb₁ as₁ a y hy
      omega
    · exact .pure hs

theorem attrsOk_leaves (elm : List Text) (tag : Text) (etag : Tok) : Leaves (xb.rest.length - 1) (xb.attrsOk elm tag etag) := by
  rw [attrsOk]
  refine (attributes_leaves _ _).bind fun as y hy => ?_
  simp only at hy ⊢
  split
  · have h := getChars_length ‹_›
    have hl : (bytes "/>").length = 2 := rfl
    exact .pure (by simp only; omega)
  · split
    · have h := getChars_length ‹_›
      have hl : (bytes ">").length = 1 := rfl
      exact .pure (by omega)
    · split
      · rename_i z hz
        split at hz
        · have h := getChars_length hz
          have hl : (bytes "?>").length = 2 := rfl
          exact .pure (by simp only; omega)
        · cases hz
      · exact .error

theorem getContent_leaves : Leaves xb.rest.length xb.getContent := by
  rw [getContent]
  split
  · exact .pure (Nat.le_refl _)
  · split
    · exact .pure (Nat.le_refl _)
    · intro a y hy
      have h₁ := @advance_length xb (xb.rest.takeWhile (· ≠ 60)).length
      generalize xb.advance (xb.rest.takeWhile (· ≠ 60)).length = z at hy h₁
      cases hb : nullWS z.before with
      | error e  =>
        simp only [hb, bind, Except.bind] at hy
        cases hy
      | ok before =>
        simp only [hb, bind, Except.bind] at hy
        split at hy
        · cases hy
          simp only
          omega
        · have hr : z.rest = _ :: _ := ‹_›
          cases hy
          rw [hr, List.length_cons] at h₁
          simp only [List.length_cons]
          omega

end XmlBuffer

section

variable {tag : String} {token : (ℕ → Option Text) → Proc} {xb xb' : XmlBuffer} {t : Tok}

theorem TokenKind.leaves (h : TokenKind tag token) (attr : ℕ → Option Text) : Leaves xb.rest.length (token attr xb) := by
  cases h with
  | element    => exact .pure (Nat.le_refl _)
  | content    => exact XmlBuffer.getContent_leaves.bind fun _ _ h => .pure h
  | named      =>
    simp only
    split
    · exact .error
    · exact .pure (Nat.le_refl _)
  | paramValue =>
    simp only
    split
    · exact .pure (Nat.le_refl _)
    · split
      · exact .pure (Nat.le_refl _)
      · exact .error

-- Another tag is left to the functions of the other elements.
theorem procTag_length {elm : List String} {etag : Tok} (h : TokenKind tag token)
    (hp : procTag tag elm etag token xb = .ok (t, xb')) : t = .none ∧ xb' = xb ∨ xb'.rest.length < xb.rest.length := by
  rw [procTag] at hp
  cases ht : xb.tagEquals (bytes tag) with
  | error e =>
    rw [ht] at hp
    cases hp
  | ok o    =>
    rw [ht] at hp
    cases o with
    | none   =>
      cases hp
      exact .inl ⟨rfl, rfl⟩
    | some y =>
      have h₁ := XmlBuffer.tagEquals_length ht
      have hl : Leaves (y.rest.length - 1) (y.attrsOk (elm.map bytes) (bytes tag) etag >>= fun p => token p.1 p.2) :=
        (XmlBuffer.attrsOk_leaves _ _ _).bind fun attr z hz a z' hz' => Nat.le_trans (h.leaves attr a z' hz') hz
      have h₂ := hl t xb' hp
      exact .inr (by omega)

theorem procCdata_length (hp : procCdata xb = .ok (t, xb')) : t = .none ∧ xb' = xb ∨ xb'.rest.length < xb.rest.length := by
  rw [procCdata] at hp
  cases ht : xb.tagEquals (bytes "![CDATA[") with
  | error e =>
    rw [ht] at hp
    cases hp
  | ok o    =>
    rw [ht] at hp
    cases o with
    | none   =>
      cases hp
      exact .inl ⟨rfl, rfl⟩
    | some y =>
      have h₁ := XmlBuffer.tagEquals_length ht
      have h₂ := @XmlBuffer.attrsOk_leaves { y with before := y.before.tail, rest := 62 :: y.rest } [] (bytes "![CDATA[") (.Z .CDATA)
      simp only [bind, Except.bind] at hp
      cases ha : XmlBuffer.attrsOk [] (bytes "![CDATA[") (.Z .CDATA)
          { y with before := y.before.tail, rest := 62 :: y.rest } with
      | error e =>
        rw [ha] at hp
        cases hp
      | ok p    =>
        obtain ⟨attr, z⟩ := p
        have h₃ := h₂ attr z ha
        rw [ha] at hp
        simp only [List.length_cons, Nat.add_sub_cancel] at h₃ hp
        split at hp
        · cases hp
          exact .inr (by omega)
        · rename_i v hv
          obtain ⟨hv, hz⟩ := strstr_length hv
          have h3 : (bytes "]]>").length = 3 := rfl
          have h2 : (bytes "</").length = 2 := rfl
          cases hp
          simp only [List.length_append, List.length_take, List.length_drop]
          exact .inr (by omega)

theorem process_length {e : Tags} (he : e ∈ tags) (hp : e.process xb = .ok (t, xb')) :
    t = .none ∧ xb' = xb ∨ xb'.rest.length < xb.rest.length := by
  have hm : e ∈ elements ++ [cdataTag, cdataEnd] := he
  cases List.mem_append.mp hm with
  | inl h =>
    have ⟨_, _, _, _, hs⟩ := elements_shape h
    rw [hs.process] at hp
    exact procTag_length hs.kind hp
  | inr h =>
    have hc : e.process = procCdata := by
      cases List.mem_pair.mp h with
      | inl h => rw [h]; rfl
      | inr h => rw [h]; rfl
    rw [hc] at hp
    exact procCdata_length hp

theorem nextTag_eTagFound {next : Option Text} (h : xb.nextTag = (next, xb')) :
    xb'.eTagFound = xb.eTagFound ∧ xb'.etag = xb.etag := by
  rw [XmlBuffer.nextTag] at h
  split at h
  · cases h
    exact ⟨rfl, rfl⟩
  · simp only at h
    split at h
    all_goals
      cases h
      exact ⟨rfl, rfl⟩

-- What a call does: the end of an element comes out, or nothing, or the cursor moves.
theorem sfccLexN_advances {n : ℕ} (h : sfccLexN n xb = .ok (t, xb')) :
    xb.eTagFound ∧ t = xb.etag ∧ xb' = { xb.nextTag.2 with eTagFound := false } ∨
      t = .none ∧ xb'.rest.length ≤ xb.rest.length ∧ xb'.eTagFound = xb.eTagFound ∨ xb'.rest.length < xb.rest.length := by
  induction n generalizing xb with
  | zero      => cases h
  | succ n hi =>
    rw [sfccLexN] at h
    cases hx : xb.nextTag with
    | mk next y =>
      have hl := nextTag_length hx
      obtain ⟨he, ht⟩ := nextTag_eTagFound hx
      rw [hx] at h
      cases next with
      | none      =>
        cases h
        exact .inr (.inl ⟨rfl, hl, he⟩)
      | some next =>
        simp only at h
        split at h
        case isTrue hf =>
          cases h
          exact .inl ⟨he ▸ hf, ht, rfl⟩
        case isFalse hf =>
          refine .inr ?_
          split at h
          case isTrue =>
            split at h
            · cases hs : y.skipTag with
              | error e =>
                rw [hs] at h
                cases h
              | ok z    =>
                have hz := XmlBuffer.skipTag_length hs
                rw [hs] at h
                cases h
                exact .inr (by omega)
            · cases h
              exact .inl ⟨rfl, hl, he⟩
          case isFalse =>
            split at h
            · cases hs : skipComment y with
              | error e =>
                rw [hs] at h
                cases h
              | ok z    =>
                have hz := skipComment_length hs
                have hze : z.eTagFound = y.eTagFound := by
                  rw [skipComment] at hs
                  split at hs
                  · cases hs
                  · cases hs
                    rfl
                rw [hs] at h
                obtain ⟨hf', _⟩ | ⟨_, hle, _⟩ | hlt := hi h
                · exact absurd (hze ▸ hf') hf
                · exact .inr (by omega)
                · exact .inr (by omega)
            · split at h
              · obtain ⟨hn, hy⟩ | hlt := process_length (List.mem_of_find?_eq_some ‹_›) h
                · exact .inl ⟨hn, by rw [hy]; exact hl, by rw [hy]; exact he⟩
                · exact .inr (by omega)
              · cases h
                exact .inl ⟨rfl, hl, he⟩

theorem sfccLex_advances (h : sfccLex xb = .ok (t, xb')) :
    xb.eTagFound ∧ t = xb.etag ∧ xb' = { xb.nextTag.2 with eTagFound := false } ∨
      t = .none ∧ xb'.rest.length ≤ xb.rest.length ∧ xb'.eTagFound = xb.eTagFound ∨ xb'.rest.length < xb.rest.length :=
  sfccLexN_advances h

end

end Sfcc.Xml
