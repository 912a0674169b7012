import Sfcc.Theorems.Xml.Extends

-- No call looks further than the end of the tag it reads.
namespace Sfcc.Xml

-- A text up to the end of a tag.
def Whole (w : Text) : Prop :=
  w = [] ∨ ∃ u, w = u ++ [62]

namespace Whole

variable {u v w : Text}

theorem of_append (h : Whole (u ++ w)) : Whole w := by
  obtain rfl | ⟨w, d, rfl⟩ := List.eq_nil_or_concat' w
  · exact .inl rfl
  · obtain h | ⟨v, h⟩ := h
    · simp at h
    · rw [← List.append_assoc] at h
      have ⟨_, hd⟩ := List.append_inj' h rfl
      exact .inr ⟨w, by rw [hd]⟩

theorem append (h : Whole w) (hn : w ≠ []) (u : Text) : Whole (u ++ w) := by
  have ⟨v, hv⟩ := h.resolve_left hn
  exact .inr ⟨u ++ v, by rw [hv, List.append_assoc]⟩

-- What is closed by the end of a tag is found in front of what follows.
theorem isPrefixOf_iff {q : Text} (hq : 62 ∉ q) (r : Text) : q ++ [62] <+: w ++ 62 :: r ↔ q ++ [62] <+: w ++ [62] := by
  induction q generalizing w with
  | nil         =>
    cases w with
    | nil      => simp
    | cons d w => simp [List.cons_prefix_cons]
  | cons c q hi =>
    have ⟨hc, hq⟩ := List.ne_and_not_mem_of_not_mem_cons hq
    cases w with
    | nil      => simp [List.cons_prefix_cons, Ne.symm hc]
    | cons d w =>
      simp only [List.cons_append, List.cons_prefix_cons]
      exact and_congr_right fun _ => hi hq

theorem strstr {q : Text} (hq : 62 ∉ q) (hw : Whole w) (h : Xml.strstr (q ++ [62]) (w ++ [60]) = some v) :
    ∃ i y, w = i ++ (q ++ [62] ++ y) ∧ v = q ++ [62] ++ y ++ [60] ∧
      ∀ r, Xml.strstr (q ++ [62]) (w ++ r) = some (q ++ [62] ++ y ++ r) := by
  induction w with
  | nil         =>
    have hp : (q ++ [62]).isPrefixOf [60] = false := by
      cases q with
      | nil      => rfl
      | cons d q => simp [List.isPrefixOf]
    simp [Xml.strstr, hp] at h
  | cons c w hi =>
    obtain ⟨u, hu⟩ := hw.resolve_left (List.cons_ne_nil _ _)
    have hp (r : Text) : (q ++ [62]).isPrefixOf (c :: (w ++ r)) ↔ q ++ [62] <+: c :: w := by
      rw [List.isPrefixOf_iff_prefix, ← List.cons_append, hu, List.append_assoc, List.singleton_append, isPrefixOf_iff hq]
    rw [List.cons_append, Xml.strstr] at h
    by_cases hc : q ++ [62] <+: c :: w
    · rw [if_pos ((hp _).mpr hc)] at h
      cases h
      obtain ⟨y, hy⟩ := id hc
      refine ⟨[], y, hy.symm, ?_, fun r => ?_⟩
      · rw [hy, List.cons_append]
      · rw [List.cons_append, Xml.strstr, if_pos ((hp r).mpr hc), hy, List.cons_append]
    · rw [if_neg (mt (hp _).mp hc)] at h
      obtain ⟨i, y, hw, hv, hr⟩ := hi (of_append (u := [c]) hw) h
      refine ⟨c :: i, y, by rw [hw, List.cons_append], hv, fun r => ?_⟩
      rw [List.cons_append, Xml.strstr, if_neg (mt (hp r).mp hc), hr r]

end Whole

namespace XmlBuffer

variable {xb xb' : XmlBuffer} {r s t w : Text}

-- Two buffers with these texts ahead.
structure Apart (s t : Text) (xb xb' : XmlBuffer) : Prop where
  left       : xb.rest = s
  right      : xb'.rest = t
  nulledChar : xb'.nulledChar = xb.nulledChar
  nulled     : xb.nulledChar → s.head? = some 0
  eTagFound  : xb'.eTagFound = xb.eTagFound
  etag       : xb.eTagFound → xb'.etag = xb.etag

-- The same is ahead, and behind it there is only a `<` in the first buffer.
def Gap (r : Text) (xb xb' : XmlBuffer) : Prop :=
  ∃ w, Whole w ∧ Apart (w ++ [60]) (w ++ r) xb xb'

theorem parted (r : Text) : Parted [62, 60] (62 :: r) where
  left c hc  := .inr (Option.some.inj hc).symm
  right c hc := .inr (Option.some.inj hc).symm
  quotes     := by decide

-- The tag that is read.
abbrev Along (r : Text) : XmlBuffer → XmlBuffer → Prop :=
  Extends [62, 60] (62 :: r)

theorem tagEquals_cons {c : UInt8} (hc : c ≠ 0) (h : xb.rest = c :: s) :
    xb.tagEquals t = .ok ((xb.skipWS.getChars [60]).bind fun xb => xb.skipWS.getWord t true) := by
  rw [tagEquals]
  split
  · cases h.symm.trans ‹_›
  · cases h.symm.trans ‹_›
    exact absurd rfl hc
  · rfl

theorem tagEquals_zero (h : xb.rest = 0 :: s) :
    xb.tagEquals t = ((xb.advance 1).skipWS.skipWS.getWord t true).elim (.error .lost) fun xb => .ok (some xb) := by
  rw [tagEquals]
  split
  · cases h.symm.trans ‹_›
  · rfl
  · rename_i hne
    exact absurd h (hne s)

theorem Extends.tagEquals (h : Extends s t xb xb') (hp : Parted s t) (hw : Word w true) {y : XmlBuffer}
    (hy : xb.tagEquals w = .ok (some y)) : ∃ y', xb'.tagEquals w = .ok (some y') ∧ Extends s t y y' := by
  have h60 : ¬ Ends 60 := by rw [Ends]; decide
  obtain ⟨u, hs, ht⟩ := h.text
  cases u with
  | nil      =>
    exfalso
    cases s with
    | nil      =>
      rw [XmlBuffer.tagEquals] at hy
      simp only [hs] at hy
      cases hy
    | cons c s =>
      have hc := hp.left c rfl
      have hws : xb.skipWS.rest = c :: s := by
        rw [skipWS_rest, hs, List.nil_append]
        exact List.dropWhile_cons_of_neg (Bool.eq_false_iff.mp hc.not_isWS)
      have hne : (60 == c) = false := beq_eq_false_iff_ne.mpr (Ne.symm hc.ne.right.right.right.left)
      have hg : xb.skipWS.getChars [60] = none := by
        rw [getChars, hws]
        simp [List.isPrefixOf, hne]
      rw [tagEquals_cons hc.ne.left hs, hg] at hy
      cases hy
  | cons c u =>
    by_cases hc : c = 0
    · subst hc
      have ha : Extends s t (xb.advance 1) (xb'.advance 1) := h.advance hs ht (Nat.le_add_left ..)
      have hg := @Extends.getWord _ _ _ _ _ true ((ha.skipWS hp).skipWS hp) hp hw
      rw [tagEquals_zero hs] at hy
      rw [tagEquals_zero ht]
      generalize (xb.advance 1).skipWS.skipWS.getWord w true = o, (xb'.advance 1).skipWS.skipWS.getWord w true = o' at hg hy ⊢
      cases hg with
      | none   => cases hy
      | some h =>
        cases hy
        exact ⟨_, rfl, h⟩
    · have hg := (h.skipWS hp).getChar hp h60
      rw [tagEquals_cons hc hs] at hy
      rw [tagEquals_cons hc ht]
      generalize xb.skipWS.getChars [60] = o, xb'.skipWS.getChars [60] = o' at hg hy ⊢
      cases hg with
      | none                => cases hy
      | @some z z' h =>
        have hg := @Extends.getWord _ _ _ _ _ true (h.skipWS hp) hp hw
        simp only [Option.bind_some] at hy ⊢
        generalize z.skipWS.getWord w true = o, z'.skipWS.getWord w true = o' at hg hy ⊢
        cases hg with
        | none   => cases hy
        | some h =>
          cases hy
          exact ⟨_, rfl, h⟩

-- What is closed by a `>`.
theorem Extends.getChars (h : Along r xb xb') {q : Text} (hq : 62 ∉ q) :
    Option.Rel (fun y y' => Gap r y y' ∧ y.nulledChar = false ∧ y'.nulledChar = false)
      (xb.getChars (q ++ [62])) (xb'.getChars (q ++ [62])) := by
  obtain ⟨w, hs, ht⟩ := h.text
  have hp (r : Text) : (q ++ [62]).isPrefixOf (w ++ 62 :: r) ↔ q ++ [62] <+: w ++ [62] := by
    rw [List.isPrefixOf_iff_prefix, Whole.isPrefixOf_iff hq]
  simp only [XmlBuffer.getChars, hs, ht]
  by_cases hc : q ++ [62] <+: w ++ [62]
  · rw [if_pos ((hp _).mpr hc), if_pos ((hp _).mpr hc)]
    obtain ⟨y, hy⟩ := hc
    have hd (r : Text) : (w ++ 62 :: r).drop (q ++ [62]).length = y ++ r := by
      have he : w ++ 62 :: r = q ++ [62] ++ (y ++ r) := by rw [← List.append_assoc, hy, List.append_assoc, List.singleton_append]
      rw [he, List.drop_left]
    have hwhole : Whole (q ++ [62] ++ y) := .inr ⟨w, hy⟩
    refine .some ⟨⟨y, hwhole.of_append, ?_, ?_, ?_, ?_, ?_, ?_⟩, h.nulledChar⟩
    · exact (congrArg _ hs).trans (hd [60])
    · exact (congrArg _ ht).trans (hd r)
    · exact h.nulledChar.right.trans h.nulledChar.left.symm
    · exact fun hn => absurd (h.nulledChar.left.symm.trans hn) Bool.false_ne_true
    · exact h.eTagFound.right.trans h.eTagFound.left.symm
    · exact fun hn => absurd (h.eTagFound.left.symm.trans hn) Bool.false_ne_true
  · rw [if_neg (mt (hp _).mp hc), if_neg (mt (hp _).mp hc)]
    exact .none

theorem Gap.empty (h : Gap r xb xb') (etag : Tok) : Gap r { xb with eTagFound := true, etag } { xb' with eTagFound := true, etag } := by
  have ⟨w, hw, ha⟩ := h
  exact ⟨w, hw, { ha with eTagFound := rfl, etag := fun _ => rfl }⟩

-- Behind a tag.
structure Behind (r : Text) (xb xb' : XmlBuffer) : Prop where
  gap         : Gap r xb xb'
  nulledChar  : xb.nulledChar = false
  nulledChar' : xb'.nulledChar = false
  closed      : xb.Closed
  closed'     : xb'.Closed

theorem Extends.attrsOk (h : Along r xb xb') {elm : List Text} (he : ∀ n ∈ elm, n.all isalnum) (tag : Text) (etag : Tok) :
    Continues (fun p p' => p'.1 = p.1 ∧ Behind r p.2 p'.2) (xb.attrsOk elm tag etag) (xb'.attrsOk elm tag etag) := by
  have hn : Along r { xb with eTagFound := false } { xb' with eTagFound := false } := { h with eTagFound := ⟨rfl, rfl⟩ }
  have has : ∀ a ∈ elm.map ({ name := · } : Text → XmlAttr), a.name.all isalnum := by
    intro a ha
    have ⟨n, hm, hn⟩ := List.mem_map.mp ha
    exact hn ▸ he n hm
  refine (hn.attributes (parted r) _ has).bind fun p p' ⟨hp, hu⟩ => ?_
  have ⟨as, y⟩ := p
  have ⟨as', y'⟩ := p'
  subst hp
  have h₁ := @Extends.getChars _ _ _ hu [47] (by decide)
  have h₂ := @Extends.getChars _ _ _ hu [] (by decide)
  have h₃ : Option.Rel (fun y y' => Gap r y y' ∧ y.nulledChar = false ∧ y'.nulledChar = false)
      (if tag = bytes "?xml" then y.getChars (bytes "?>") else none)
      (if tag = bytes "?xml" then y'.getChars (bytes "?>") else none) := by
    split
    · exact @Extends.getChars _ _ _ hu [63] (by decide)
    · exact .none
  replace h₁ : Option.Rel _ (y.getChars (bytes "/>")) (y'.getChars (bytes "/>")) := h₁
  replace h₂ : Option.Rel _ (y.getChars (bytes ">")) (y'.getChars (bytes ">")) := h₂
  simp only
  generalize y.getChars (bytes "/>") = w₁, y'.getChars (bytes "/>") = w₁' at h₁ ⊢
  cases h₁ with
  | some h => exact .pure ⟨rfl, h.left.empty etag, h.right.left, h.right.right, nofun, nofun⟩
  | none   =>
    simp only
    generalize hw : y.getChars (bytes ">") = w₂, hw' : y'.getChars (bytes ">") = w₂' at h₂ ⊢
    cases h₂ with
    | some h => exact .pure ⟨rfl, h.left, h.right.left, h.right.right, closed_getChars hw, closed_getChars hw'⟩
    | none   =>
      simp only
      generalize (if tag = bytes "?xml" then y.getChars (bytes "?>") else none) = w₃,
        (if tag = bytes "?xml" then y'.getChars (bytes "?>") else none) = w₃' at h₃ ⊢
      cases h₃ with
      | some h => exact .pure ⟨rfl, h.left.empty etag, h.right.left, h.right.right, nofun, nofun⟩
      | none   => exact .error

end XmlBuffer

-- What a call does with another text behind the tag, when it returns a token without one.
inductive Reached (r : Text) (t : Tok) (xb : XmlBuffer) : Except LexEnd (Tok × XmlBuffer) → Prop
  -- The text of an element goes on to the next tag.
  | text {b e} (ht : t.isText) (hr : xb.rest = [60]) (hn : xb.nulledChar = false) (he : xb.eTagFound = false)
    (hb : b.head? = some 62) : Reached r t xb do
      let (text, xb) ← XmlBuffer.getContent ⟨b, r, false, false, e⟩
      return (t.withText text, xb)
  | gap {xb'} (h : XmlBuffer.Gap r xb xb') (ht : xb.rest = [60] → t.isText → xb.eTagFound) : Reached r t xb (.ok (t, xb'))
  -- The last `<` was overwritten.
  | dead {c} (hr : xb.rest = [0]) (hn : xb.nulledChar) (he : xb.eTagFound = false) : Reached r t xb c

section

variable {tag : String} {token : (ℕ → Option Text) → Proc} {xb xb' x : XmlBuffer} {t : Tok} {r : Text}

theorem reached_bare (h : xb.Behind r xb') (ht : t.Bare) : Reached r t xb (.ok (t, xb')) :=
  .gap h.gap fun _ hn => absurd (ht.left.symm.trans hn) nofun

theorem Whole.ne_nil {c : UInt8} {v : Text} (hc : c ≠ 62) (h : Whole (c :: v)) : v ≠ [] := by
  intro hv
  obtain ⟨u, hu⟩ := h.resolve_left nofun
  rw [hv] at hu
  have hu : [] ++ [c] = u ++ [62] := hu
  have he : [c] = [62] := (List.append_inj' hu rfl).right
  exact hc (List.cons.inj he).left

theorem getContent_reached (h : xb.Behind r xb') {token : Option Text → Tok} (ht : ∀ v, (token v).isText)
    (hs : ∀ u v, (token u).withText v = token v)
    (hx : (do let (v, xb) ← xb.getContent; return (token v, xb)) = .ok (t, x)) :
    Reached r t x do
      let (v, xb) ← xb'.getContent
      return (token v, xb) := by
  have ⟨w, hw, ha⟩ := h.gap
  have hc := h.closed
  have hc' := h.closed'
  have hn := h.nulledChar
  have hn' := h.nulledChar'
  have ⟨b, rest, nulled, e, etag⟩ := xb
  have ⟨b', rest', nulled', e', etag'⟩ := xb'
  have hrest : rest = w ++ [60] := ha.left
  have hrest' : rest' = w ++ r := ha.right
  have he : e' = e := ha.eTagFound
  replace hn : nulled = false := hn
  replace hn' : nulled' = false := hn'
  subst hrest hrest' he hn hn'
  cases e' with
  | true  =>
    cases hx
    exact .gap ⟨w, hw, ha⟩ fun _ _ => rfl
  | false =>
    have hb : b.head? = some 62 := hc rfl
    have hb' : b'.head? = some 62 := hc' rfl
    by_cases hm : 60 ∈ w
    · obtain ⟨u, v, rfl, hu⟩ := List.eq_append_cons_of_mem hm
      have ⟨b₁, hg⟩ := @getContent_append b (v ++ [60]) u etag hu ⟨62, hb, rfl⟩
      have ⟨b₁', hg'⟩ := @getContent_append b' (v ++ r) u etag' hu ⟨62, hb', rfl⟩
      have hv := hw.of_append
      have hne := hv.ne_nil (by decide)
      have hlong (c : UInt8) : c :: (v ++ [60]) ≠ [60] := fun hl => hne (by simpa using (List.cons.inj hl).right)
      simp only [List.append_assoc, List.cons_append, hg, hg', bind, Except.bind, pure, Except.pure] at hx ⊢
      by_cases hn : u = []
      · rw [if_pos hn] at hx ⊢
        cases hx
        exact .gap ⟨60 :: v, hv, rfl, rfl, rfl, nofun, rfl, nofun⟩ fun hl => absurd hl (hlong 60)
      · rw [if_neg hn] at hx ⊢
        cases hx
        have hv₀ : Whole ([0] ++ v) := (hv.of_append (u := [60])).append hne [0]
        exact .gap ⟨0 :: v, hv₀, rfl, rfl, rfl, fun _ => rfl, rfl, nofun⟩ fun hl => absurd hl (hlong 0)
    · have ⟨b₁, hg⟩ := @getContent_append b [] w etag hm ⟨62, hb, rfl⟩
      simp only [hg, bind, Except.bind, pure, Except.pure] at hx
      by_cases hn : w = []
      · rw [if_pos hn] at hx
        cases hx
        have hr := @Reached.text r _ ⟨b₁, [60], false, false, etag⟩ b' etag' (ht (some (trimmed w))) rfl rfl rfl hb'
        simp only [hs] at hr
        subst hn
        exact hr
      · rw [if_neg hn] at hx
        cases hx
        exact .dead rfl rfl rfl

theorem TokenKind.reached (h : TokenKind tag token) (attr : ℕ → Option Text) (hb : xb.Behind r xb') (ht : t ≠ .none)
    (hx : token attr xb = .ok (t, x)) : Reached r t x (token attr xb') := by
  cases h with
  | element token _ hbare         =>
    cases hx
    exact reached_bare hb (hbare attr)
  | content token _ _ htext hsame => exact getContent_reached hb (htext attr) (hsame attr) hx
  | named name token _ hbare      =>
    simp only at hx ⊢
    cases ha : attr 0 with
    | none   =>
      rw [ha] at hx
      cases hx
    | some n =>
      rw [ha] at hx
      simp only at hx ⊢
      by_cases hn : sameIgnoringCase n (bytes name)
      · rw [if_pos hn] at hx ⊢
        cases hx
        exact reached_bare hb hbare
      · rw [if_neg hn] at hx
        cases hx
        exact absurd rfl ht
  | paramValue                    =>
    simp only at hx ⊢
    cases ha : attr 2 with
    | none   =>
      rw [ha] at hx
      cases hx
      exact reached_bare hb ⟨rfl, rfl⟩
    | some a =>
      rw [ha] at hx
      simp only at hx ⊢
      split at hx
      · cases hx
        rw [if_pos ‹_›]
        exact reached_bare hb ⟨rfl, rfl⟩
      · cases hx

theorem tags_word {e : Tags} (h : e ∈ tags) : XmlBuffer.Word e.tag true := by
  intro c hc he
  exact tags_ne h (.inr he) hc

theorem procTag_reached {elm : List String} {etag : Tok} (h : TokenKind tag token) (hw : XmlBuffer.Word (bytes tag) true)
    (hn : AttrNames (elm.map bytes)) (ha : xb.Along r xb') (ht : t ≠ .none) (hx : procTag tag elm etag token xb = .ok (t, x)) :
    Reached r t x (procTag tag elm etag token xb') := by
  rw [procTag] at hx ⊢
  cases hy : xb.tagEquals (bytes tag) with
  | error e =>
    rw [hy] at hx
    cases hx
  | ok o    =>
    rw [hy] at hx
    cases o with
    | none   =>
      cases hx
      exact absurd rfl ht
    | some y =>
      obtain ⟨y', hy', hu⟩ := ha.tagEquals (XmlBuffer.parted r) hw hy
      rw [hy']
      simp only [bind, Except.bind] at hx ⊢
      cases hz : y.attrsOk (elm.map bytes) (bytes tag) etag with
      | error e =>
        rw [hz] at hx
        cases hx
      | ok p    =>
        obtain ⟨⟨attr', z'⟩, hz', he, hb⟩ := hu.attrsOk (fun n hm => (hn.left n hm).right) _ _ p hz
        rw [hz] at hx
        rw [hz']
        have he : attr' = p.1 := he
        subst he
        exact h.reached p.1 hb ht hx

theorem procCdata_reached (ha : xb.Along r xb') (ht : t ≠ .none) (hx : procCdata xb = .ok (t, x)) :
    Reached r t x (procCdata xb') := by
  rw [procCdata] at hx ⊢
  cases hy : xb.tagEquals (bytes "![CDATA[") with
  | error e =>
    rw [hy] at hx
    cases hx
  | ok o    =>
    rw [hy] at hx
    cases o with
    | none   =>
      cases hx
      exact absurd rfl ht
    | some y =>
      have hw : XmlBuffer.Word (bytes "![CDATA[") true := @tags_word cdataTag (List.mem_of_getElem? (i := 43) rfl)
      obtain ⟨y', hy', hu⟩ := ha.tagEquals (XmlBuffer.parted r) hw hy
      rw [hy']
      simp only [bind, Except.bind] at hx ⊢
      have hv : XmlBuffer.Along r { y with before := y.before.tail, rest := 62 :: y.rest }
          { y' with before := y'.before.tail, rest := 62 :: y'.rest } := by
        obtain ⟨w, hs, ht⟩ := hu.text
        exact ⟨⟨62 :: w, by rw [hs]; rfl, by rw [ht]; rfl⟩, hu.nulledChar, hu.eTagFound⟩
      cases hz : XmlBuffer.attrsOk [] (bytes "![CDATA[") (.Z .CDATA) { y with before := y.before.tail, rest := 62 :: y.rest } with
      | error e =>
        rw [hz] at hx
        cases hx
      | ok p    =>
        obtain ⟨⟨_, z'⟩, hz', _, hb⟩ := @XmlBuffer.Extends.attrsOk _ _ _ hv [] (fun _ hn => absurd hn List.not_mem_nil) _ _ p hz
        rw [hz] at hx
        rw [hz']
        obtain ⟨w, hw, hg⟩ := hb.gap
        have hr : p.2.rest = w ++ [60] := hg.left
        have hr' : z'.rest = w ++ r := hg.right
        simp only [hr] at hx
        simp only [hr']
        cases hs : strstr (bytes "]]>") (w ++ [60]) with
        | none   =>
          rw [hs] at hx
          cases hx
          exact absurd rfl ht
        | some v =>
          obtain ⟨i, u, rfl, rfl, hstr⟩ := @Whole.strstr v w [93, 93] (by decide) hw hs
          have hclose : Whole (62 :: u) := Whole.of_append (u := [93, 93]) hw.of_append
          have hend : Whole (bytes "</" ++ 62 :: u) := hclose.append (List.cons_ne_nil _ _) (bytes "</")
          have hlen (r : Text) : (i ++ ([93, 93] ++ [62] ++ u) ++ r).length - ([93, 93] ++ [62] ++ u ++ r).length = i.length := by
            simp only [List.length_append]
            omega
          have htake (r : Text) : (i ++ ([93, 93] ++ [62] ++ u) ++ r).take i.length = i := by
            rw [List.append_assoc, List.take_left]
          rw [hs] at hx
          rw [show bytes "]]>" = [93, 93] ++ [62] from rfl, hstr]
          simp only [hlen, htake] at hx ⊢
          cases hx
          refine .gap ⟨i ++ (bytes "</" ++ 62 :: u), hend.append (List.cons_ne_nil _ _) i, ?_, ?_, hg.nulledChar, ?_, hg.eTagFound, hg.etag⟩
            fun _ hn => absurd hn Bool.false_ne_true
          · simp
          · simp
          · exact fun hn => absurd (hb.nulledChar.symm.trans hn) Bool.false_ne_true

theorem process_reached {e : Tags} (he : e ∈ tags) (ha : xb.Along r xb') (ht : t ≠ .none) (hx : e.process xb = .ok (t, x)) :
    Reached r t x (e.process xb') := by
  have hm : e ∈ elements ++ [cdataTag, cdataEnd] := he
  cases List.mem_append.mp hm with
  | inl h =>
    have ⟨_, _, _, _, hs⟩ := elements_shape h
    rw [hs.process] at hx ⊢
    exact procTag_reached hs.kind (hs.name ▸ tags_word he) hs.names ha ht hx
  | inr h =>
    have hc : e.process = procCdata := by
      cases List.mem_pair.mp h with
      | inl h => rw [h]; rfl
      | inr h => rw [h]; rfl
    rw [hc] at hx ⊢
    exact procCdata_reached ha ht hx

theorem tags_closes {e : Tags} (h : e ∈ tags) : ∃ k, e.etag = .Z k := by
  have hm : e ∈ elements ++ [cdataTag, cdataEnd] := h
  cases List.mem_append.mp hm with
  | inl h =>
    have ⟨_, _, _, _, hs⟩ := elements_shape h
    exact hs.closes
  | inr h =>
    cases List.mem_pair.mp h with
    | inl h => exact ⟨.CDATA, by rw [h]; rfl⟩
    | inr h => exact ⟨.CDATA, by rw [h]; rfl⟩

theorem find_tags {n : Text} (s : Text) :
    tags.find? (nextEquals (n ++ 62 :: s) ·.tag) = tags.find? (nextEquals (n ++ [62]) ·.tag) := by
  apply List.find?_congr
  intro t ht
  have hp : Parts 62 := .inr (.inr rfl)
  exact nextEquals_append (tags_ne ht hp) (tags_ne ht hp) hp hp

-- The `<` of the next tag, or what was put in its place.
theorem nextTag_apart {u next : Text} {y : XmlBuffer} (h : XmlBuffer.Apart (u ++ [62, 60]) (u ++ 62 :: r) xb xb')
    (hy : xb.nextTag = (some next, y)) : ∃ c v y', next = v ++ [62, 60] ∧ xb'.nextTag = (some (v ++ 62 :: r), y') ∧
      XmlBuffer.Apart (c :: (v ++ [62, 60])) (c :: (v ++ 62 :: r)) y y' ∧ y.nulledChar = false := by
  have hl := h.left
  have hr := h.right
  cases hn : xb.nulledChar with
  | true  =>
    have hz := h.nulled hn
    have hn' : xb'.nulledChar = true := h.nulledChar.trans hn
    cases u with
    | nil      => cases hz
    | cons c v =>
      rw [XmlBuffer.nextTag, if_pos hn] at hy
      cases hy
      refine ⟨c, v, { xb' with nulledChar := false }, by rw [hl]; rfl, ?_, ⟨hl, hr, rfl, fun hf => absurd hf Bool.false_ne_true, h.eTagFound, h.etag⟩, rfl⟩
      rw [XmlBuffer.nextTag, if_pos hn', hr]
      rfl
  | false =>
    have hn' : xb'.nulledChar = false := h.nulledChar.trans hn
    have hs : xb.skipWS.rest = u.dropWhile isWS ++ [62, 60] := by
      rw [XmlBuffer.skipWS_rest, hl, XmlBuffer.dropWhile_parted (XmlBuffer.parted r).left]
    have hs' : xb'.skipWS.rest = u.dropWhile isWS ++ 62 :: r := by
      rw [XmlBuffer.skipWS_rest, hr, XmlBuffer.dropWhile_parted (XmlBuffer.parted r).right]
    rw [XmlBuffer.nextTag, if_neg (Bool.eq_false_iff.mp hn)] at hy
    simp only [hs] at hy
    cases hu : u.dropWhile isWS with
    | nil      =>
      rw [hu] at hy
      cases hy
    | cons c v =>
      rw [hu] at hy hs hs'
      split at hy
      · cases hy
        refine ⟨c, v, xb'.skipWS, rfl, ?_, ⟨hs, hs', h.nulledChar, ?_, h.eTagFound, h.etag⟩, hn⟩
        · have h60 : (c :: v ++ 62 :: r).head? = some 60 := ‹(c :: v ++ [62, 60]).head? = (some 60 : Option UInt8)›
          rw [XmlBuffer.nextTag, if_neg (Bool.eq_false_iff.mp hn')]
          simp only [hs', if_pos h60]
          rfl
        · exact fun hf => absurd (hn.symm.trans hf) Bool.false_ne_true
      · cases hy

-- Behind the end of the first text there is no token.
theorem sfccLexN_end {n : ℕ} (hr : xb.rest = [60]) (hn : xb.nulledChar = false) (he : xb.eTagFound = false)
    (hx : sfccLexN n xb = .ok (t, x)) : t = .none := by
  cases n with
  | zero   => cases hx
  | succ n =>
    have hready : Ready [60] xb := ⟨by rw [hr], hn, he⟩
    have ⟨b, hy⟩ := hready.nextTag
    have hf : tags.find? (nextEquals [] ·.tag) = some cdataEnd := rfl
    rw [sfccLexN, hy] at hx
    simp only [List.head?_nil, reduceCtorEq, if_false, Bool.false_eq_true, hf] at hx
    cases hx
    rfl

section Skip

variable {w : Text} {y y' z : XmlBuffer}

theorem skipTag_gap (h : y.Apart (w ++ [60]) (w ++ r) y') (hw : Whole w) (hm : 62 ∈ w) (hn : y.nulledChar = false) :
    ∃ z z', y.skipTag = .ok z ∧ y'.skipTag = .ok z' ∧ XmlBuffer.Gap r z z' := by
  have ⟨b, s, nulled, e, etag⟩ := y
  have ⟨b', s', nulled', e', etag'⟩ := y'
  obtain ⟨p, q, rfl, hp⟩ := List.eq_append_cons_of_mem hm
  have hs : s = p ++ 62 :: (q ++ [60]) := h.left.trans (List.append_assoc ..)
  have hs' : s' = p ++ 62 :: (q ++ r) := h.right.trans (List.append_assoc ..)
  subst hs hs'
  have ⟨b₁, hb⟩ := @XmlBuffer.skipTag_append (q ++ [60]) b p nulled e etag hp
  have ⟨b₁', hb'⟩ := @XmlBuffer.skipTag_append (q ++ r) b' p nulled' e' etag' hp
  have hq : Whole q := Whole.of_append (u := [62]) hw.of_append
  exact ⟨_, _, hb, hb', q, hq, rfl, rfl, h.nulledChar, fun hf => absurd (hn.symm.trans hf) Bool.false_ne_true, h.eTagFound, h.etag⟩

-- The end of the comment is passed.
theorem skipComment_eq {i s : Text} (hr : y.rest = i ++ (bytes "-->" ++ s))
    (hs : strstr (bytes "-->") y.rest = some (bytes "-->" ++ s)) : ∃ b, skipComment y = .ok { y with before := b, rest := s } := by
  have hlen : (bytes "-->").length = 3 := rfl
  have hk : y.rest.length - (bytes "-->" ++ s).length + 3 = (i ++ bytes "-->").length := by
    rw [hr]
    simp only [List.length_append, hlen]
    omega
  have hd : y.rest.drop (i ++ bytes "-->").length = s := by rw [hr, ← List.append_assoc, List.drop_left]
  simp only [skipComment, hs, hk, XmlBuffer.advance, hd]
  exact ⟨_, rfl⟩

theorem skipComment_gap (h : y.Apart (w ++ [60]) (w ++ r) y') (hw : Whole w) (hn : y.nulledChar = false)
    (hz : skipComment y = .ok z) : z.nulledChar = false ∧ z.eTagFound = y.eTagFound ∧
      ∃ z', skipComment y' = .ok z' ∧ XmlBuffer.Gap r z z' := by
  cases hs : strstr (bytes "-->") (w ++ [60]) with
  | none   =>
    rw [skipComment, h.left, hs] at hz
    cases hz
  | some v =>
    obtain ⟨i, u, rfl, rfl, hstr⟩ := @Whole.strstr v w [45, 45] (by decide) hw hs
    have hu : Whole u := hw.of_append.of_append
    have hsplit (s : Text) : i ++ ([45, 45] ++ [62] ++ u) ++ s = i ++ (bytes "-->" ++ (u ++ s)) := by simp [bytes]
    obtain ⟨b, hb⟩ := @skipComment_eq y i (u ++ [60]) (by rw [h.left, hsplit]) (by rw [h.left, hs]; simp [bytes])
    obtain ⟨b', hb'⟩ := @skipComment_eq y' i (u ++ r) (by rw [h.right, hsplit]) (by rw [h.right]; exact (hstr r).trans (by simp [bytes]))
    cases hz.symm.trans hb
    exact ⟨hn, rfl, _, hb', u, hu, rfl, rfl, h.nulledChar, fun hf => absurd (hn.symm.trans hf) Bool.false_ne_true, h.eTagFound, h.etag⟩

end Skip

theorem sfccLexN_reached {n : ℕ} {u : Text} (h : XmlBuffer.Apart (u ++ [62, 60]) (u ++ 62 :: r) xb xb') (ht : t ≠ .none)
    (hx : sfccLexN n xb = .ok (t, x)) : Reached r t x (sfccLexN n xb') := by
  induction n generalizing xb xb' u with
  | zero      => cases hx
  | succ n hi =>
    rw [sfccLexN] at hx ⊢
    cases hy : xb.nextTag with
    | mk next y =>
      rw [hy] at hx
      cases next with
      | none      =>
        cases hx
        exact absurd rfl ht
      | some next =>
        obtain ⟨c, v, y', rfl, hy', ha, hn⟩ := nextTag_apart h hy
        have hw : Whole (c :: v ++ [62]) := .inr ⟨c :: v, rfl⟩
        have hg : y.Apart (c :: v ++ [62] ++ [60]) (c :: v ++ [62] ++ r) y' := by simpa using ha
        have hh : (v ++ 62 :: r).head? = (v ++ [62, 60]).head? := by
          cases v with
          | nil      => rfl
          | cons _ _ => rfl
        have hc (s : Text) : (bytes "<!--").isPrefixOf (c :: (v ++ 62 :: s)) = decide (bytes "<!--" <+: c :: v) := by
          rw [Bool.eq_iff_iff, List.isPrefixOf_iff_prefix, decide_eq_true_eq, ← List.cons_append,
            prefix_append_cons (by decide)]
        rw [hy']
        simp only [ha.left, ha.right, ha.eTagFound, hh, hc] at hx ⊢
        by_cases he : y.eTagFound
        · rw [if_pos he] at hx ⊢
          cases hx
          rw [ha.etag he]
          refine .gap ⟨_, hw, by simp, by simp, ha.nulledChar, ?_, rfl, fun hf => absurd hf Bool.false_ne_true⟩ fun hl => ?_
          · exact fun hf => absurd (hn.symm.trans hf) Bool.false_ne_true
          · have hlen : (c :: (v ++ [62, 60])).length = 1 := congrArg List.length hl
            simp at hlen
        · rw [if_neg he] at hx ⊢
          by_cases h47 : (v ++ [62, 60]).head? = some 47
          · rw [if_pos h47] at hx ⊢
            obtain ⟨v, rfl⟩ : ∃ d, v = 47 :: d := by
              cases v with
              | nil      => cases h47
              | cons a d =>
                cases h47
                exact ⟨d, rfl⟩
            simp only [List.cons_append, List.tail_cons, find_tags] at hx ⊢
            cases hf : tags.find? (nextEquals (v ++ [62]) ·.tag) with
            | none   =>
              rw [hf] at hx
              cases hx
              exact absurd rfl ht
            | some e =>
              obtain ⟨z, z', hz, hz', hgap⟩ := skipTag_gap hg hw (by simp) hn
              obtain ⟨k, hk⟩ := tags_closes (List.mem_of_find?_eq_some hf)
              rw [hf] at hx
              simp only [hz, hz', bind, Except.bind, pure, Except.pure] at hx ⊢
              cases hx
              rw [hk]
              exact .gap hgap fun _ hl => absurd hl Bool.false_ne_true
          · rw [if_neg h47] at hx ⊢
            by_cases hcomment : bytes "<!--" <+: c :: v
            · simp only [hcomment, decide_true, if_true] at hx ⊢
              cases hz : skipComment y with
              | error e =>
                rw [hz] at hx
                cases hx
              | ok z    =>
                obtain ⟨hzn, hze, z', hz', q, hq, hap⟩ := skipComment_gap hg hw hn hz
                rw [hz] at hx
                simp only [hz', bind, Except.bind] at hx ⊢
                obtain rfl | ⟨q, rfl⟩ := hq
                · exact absurd (sfccLexN_end hap.left hzn (hze.trans (Bool.eq_false_iff.mpr he)) hx) ht
                · rw [List.append_assoc, List.append_assoc] at hap
                  exact hi hap hx
            · simp only [hcomment, decide_false, if_false, Bool.false_eq_true, find_tags] at hx ⊢
              cases hf : tags.find? (nextEquals (v ++ [62]) ·.tag) with
              | none   =>
                rw [hf] at hx
                cases hx
                exact absurd rfl ht
              | some e =>
                have he : y.eTagFound = false := Bool.eq_false_iff.mpr he
                have hal : XmlBuffer.Along r y y' :=
                  ⟨⟨c :: v, ha.left, ha.right⟩, ⟨hn, ha.nulledChar.trans hn⟩, he, ha.eTagFound.trans he⟩
                rw [hf] at hx
                exact process_reached (List.mem_of_find?_eq_some hf) hal ht hx

theorem sfccLex_dead (hr : xb.rest = [0]) (hn : xb.nulledChar) (he : xb.eTagFound = false) : sfccLex xb = .error .lost := by
  have ⟨b, rest, nulled, e, etag⟩ := xb
  replace hr : rest = [0] := hr
  replace hn : nulled = true := hn
  replace he : e = false := he
  subst hr hn he
  have hf : tags.find? (nextEquals [] ·.tag) = some cdataEnd := rfl
  have h47 : ([] : Text).head? ≠ some 47 := nofun
  exact sfccLex_process XmlBuffer.nextTag_nulled rfl h47 rfl hf

theorem sfccLex_end (hr : xb.rest = [60]) (hn : xb.nulledChar = false) (he : xb.eTagFound = false) (hx : sfccLex xb = .ok (t, x)) :
    t = .none :=
  sfccLexN_end hr hn he hx

-- Behind the last tag at most the end of an element that is pending comes out.
theorem Calls.end {x y : XmlBuffer} {ts : List Tok} (hc : Calls xb ts y) (hr : xb.rest = [60]) (hn : xb.nulledChar = false)
    (he : y.eTagFound = false) (hx : sfccLex y = .ok (t, x)) : t = .none := by
  induction hc with
  | nil                                => exact sfccLex_end hr hn he hx
  | @cons xb xb₁ xb₂ t₁ ts call hs _ hi =>
    cases hf : xb.eTagFound with
    | false => exact absurd (sfccLex_end hr hn hf call) hs
    | true  =>
      have hws : xb.skipWS.rest = [60] := by rw [XmlBuffer.skipWS_rest, hr]; rfl
      have hnext : xb.nextTag = (some [], xb.skipWS) := by
        rw [XmlBuffer.nextTag, if_neg (Bool.eq_false_iff.mp hn)]
        simp [hws]
      rw [sfccLex_etag hnext hf] at call
      cases call
      exact hi hws hn he hx

theorem Calls.reached {y : XmlBuffer} {ts : List Tok} {u : Text} (hc : Calls xb ts y)
    (h : xb.Apart (u ++ [62, 60]) (u ++ 62 :: r) xb') (ht : t ≠ .none) (he : y.eTagFound = false) (hx : sfccLex y = .ok (t, x)) :
    ∃ y', Calls xb' ts y' ∧ Reached r t x (sfccLex y') := by
  have hlex {xb xb' x : XmlBuffer} {t : Tok} {u : Text} (h : xb.Apart (u ++ [62, 60]) (u ++ 62 :: r) xb') (ht : t ≠ .none)
      (hx : sfccLex xb = .ok (t, x)) : Reached r t x (sfccLex xb') := by
    have hl : xb.rest.length < xb.rest.length + xb'.rest.length + 1 := by omega
    have hl' : xb'.rest.length < xb.rest.length + xb'.rest.length + 1 := by omega
    rw [← sfccLexN_eq hl] at hx
    rw [← sfccLexN_eq hl']
    exact sfccLexN_reached h ht hx
  induction hc generalizing xb' u with
  | nil                                       => exact ⟨xb', .nil, hlex h ht hx⟩
  | @cons xb xb₁ xb₂ t₁ ts call hs calls hi =>
    have hreached := hlex h hs call
    generalize hl : sfccLex xb' = c at hreached
    cases hreached with
    | text _ hr hn _    => exact absurd (calls.end hr hn he hx) ht
    | gap hg            =>
      obtain ⟨w, rfl | ⟨v, rfl⟩, ha⟩ := hg
      · have hn : xb₁.nulledChar = false := Bool.eq_false_iff.mpr fun hf => absurd (ha.nulled hf) nofun
        exact absurd (calls.end ha.left hn he hx) ht
      · rw [List.append_assoc, List.append_assoc] at ha
        have ⟨y', hc', hr'⟩ := hi ha he hx
        exact ⟨y', .cons hl hs hc', hr'⟩
    | dead hr hn hf     =>
      have hd := sfccLex_dead hr hn hf
      cases calls with
      | nil          => cases hd.symm.trans hx
      | cons call _  => cases hd.symm.trans call

end

-- A text that ends with a tag: the calls up to the one that returns `t` pass it, and nothing behind it.
structure TagEnd (p : Text) (t : Tok) (xb : XmlBuffer) : Prop where
  closed : ∃ u, p = u ++ [62]
  read   : ∃ ts y, Calls (newXmlBuffer (p ++ [60])) ts y ∧ y.eTagFound = false ∧ sfccLex y = .ok (t, xb)
  token  : t ≠ .none
  rest   : xb.rest = [60]

-- A text follows.
def AtText (t : Tok) (xb : XmlBuffer) : Prop :=
  t.isText ∧ xb.eTagFound = false

-- The call that reads the tag, with another text behind it.
inductive Passed (r : Text) (t : Tok) (xb : XmlBuffer) : Except LexEnd (Tok × XmlBuffer) → Prop
  | text {b e} (ho : AtText t xb) (hb : b.head? = some 62) : Passed r t xb do
      let (text, xb) ← XmlBuffer.getContent ⟨b, r, false, false, e⟩
      return (t.withText text, xb)
  | tag {b etag} (ho : ¬ AtText t xb) (he : xb.eTagFound → etag = xb.etag) :
    Passed r t xb (.ok (t, ⟨b, r, false, xb.eTagFound, etag⟩))

theorem TagEnd.passed {p : Text} {t : Tok} {xb : XmlBuffer} (h : TagEnd p t xb) :
    ∃ ts, ∀ r, ∃ y, Calls (newXmlBuffer (p ++ r)) ts y ∧ Passed r t xb (sfccLex y) := by
  obtain ⟨u, rfl⟩ := h.closed
  have ⟨ts, y, hc, he, hx⟩ := h.read
  refine ⟨ts, fun r => ?_⟩
  have ha : (newXmlBuffer (u ++ [62] ++ [60])).Apart (u ++ [62, 60]) (u ++ 62 :: r) (newXmlBuffer (u ++ [62] ++ r)) :=
    ⟨by simp [newXmlBuffer], by simp [newXmlBuffer], rfl, nofun, rfl, nofun⟩
  have ⟨y', hc', hr'⟩ := hc.reached ha h.token he hx
  refine ⟨y', hc', ?_⟩
  generalize sfccLex y' = c at hr'
  cases hr' with
  | text ht _ _ he hb => exact .text ⟨ht, he⟩ hb
  | dead hr           => cases h.rest.symm.trans hr
  | @gap x hg ht      =>
    obtain ⟨w, hw, ha⟩ := hg
    have hwn : w = [] := by
      have hl := congrArg List.length (ha.left.symm.trans h.rest)
      rw [List.length_append] at hl
      exact List.length_eq_zero_iff.mp (Nat.succ.inj hl)
    subst hwn
    have hn : xb.nulledChar = false := Bool.eq_false_iff.mpr fun hf => absurd (ha.nulled hf) nofun
    have ho : ¬ AtText t xb := fun ⟨htext, hf⟩ => absurd ((ht h.rest htext).symm.trans hf) nofun
    have ⟨b, s, nulled, e, etag⟩ := x
    have hs : s = r := ha.right
    have hnulled : nulled = false := ha.nulledChar.trans hn
    have heTag : e = xb.eTagFound := ha.eTagFound
    subst hs hnulled heTag
    exact .tag ho ha.etag

end Sfcc.Xml
