import Sfcc.Theorems.Xml.EmptyTags
import Sfcc.Theorems.Xml.Lookahead

-- Comments between two tags.
namespace Sfcc.Xml

def comment (c : Text) : Text :=
  bytes "<!--" ++ (c ++ bytes "-->")

-- What is read of a comment as if it was behind it: its end is looked for from its first `-` on.
def leftover : Text → Text
  | 62 :: c       => c ++ bytes "-->"
  | 45 :: 62 :: c => c ++ bytes "-->"
  | _             => []

-- Nothing is, or this is a comment again.
def Hidden (c : Text) : Prop :=
  leftover c = [] ∨ bytes "<!--" <+: (leftover c).dropWhile isWS

instance (c : Text) : Decidable (Hidden c) :=
  inferInstanceAs (Decidable (_ ∨ _))

section Search

variable {c r : Text}

theorem strstr_append {s u : Text} (h : strstr s (u ++ c) = none) : strstr s c = none := by
  induction u with
  | nil         => exact h
  | cons d u hi =>
    rw [List.cons_append, strstr] at h
    split at h
    · cases h
    · exact hi h

theorem strstr_close (h : strstr (bytes "-->") c = none) (r : Text) :
    strstr (bytes "-->") (c ++ (bytes "-->" ++ r)) = some (bytes "-->" ++ r) := by
  induction c with
  | nil         => rfl
  | cons d c hi =>
    have hp : (bytes "-->").isPrefixOf (d :: (c ++ (bytes "-->" ++ r))) = false := by
      rw [Bool.eq_false_iff]
      intro hp
      have hd : ¬ (bytes "-->").isPrefixOf (d :: c) := by
        intro hd
        rw [strstr, if_pos hd] at h
        cases h
      -- There is only one `>` in the end of the comment.
      cases c with
      | nil      => simp [bytes, List.isPrefixOf] at hp
      | cons e c =>
        cases c with
        | nil      => simp [bytes, List.isPrefixOf] at hp
        | cons f c => exact hd (by simpa [bytes, List.isPrefixOf] using hp)
    have hc : strstr (bytes "-->") c = none := strstr_append (u := [d]) h
    rw [List.cons_append, strstr, if_neg (Bool.eq_false_iff.mp hp), hi hc]

theorem leftover_none (h : strstr (bytes "-->") c = none) :
    leftover c = [] ∨ ∃ u, leftover c = u ++ bytes "-->" ∧ strstr (bytes "-->") u = none := by
  unfold leftover
  split
  · exact .inr ⟨_, rfl, strstr_append (u := [62]) h⟩
  · exact .inr ⟨_, rfl, strstr_append (u := [45, 62]) h⟩
  · exact .inl rfl

-- The end that is found.
theorem strstr_comment (h : strstr (bytes "-->") c = none) (r : Text) : ∃ i, comment c ++ r = i ++ (bytes "-->" ++ (leftover c ++ r)) ∧
    strstr (bytes "-->") (comment c ++ r) = some (bytes "-->" ++ (leftover c ++ r)) := by
  unfold leftover
  split
  · rename_i c
    exact ⟨[60, 33], by simp [comment, bytes], by simp [comment, bytes, strstr, List.isPrefixOf]⟩
  · rename_i c
    exact ⟨[60, 33, 45], by simp [comment, bytes], by simp [comment, bytes, strstr, List.isPrefixOf]⟩
  · rename_i h₂ h₃
    -- Neither of the two `-` it begins with belongs to an end.
    have hopen : strstr (bytes "-->") (bytes "<!--" ++ c) = none := by
      cases c with
      | nil      => rfl
      | cons d c =>
        have hd : (62 == d) = false := beq_eq_false_iff_ne.mpr fun hd => h₂ c (by rw [hd])
        have hc : ([45, 62] : Text).isPrefixOf (d :: c) = false := by
          rw [Bool.eq_false_iff]
          intro hp
          obtain ⟨t, ht⟩ : [45, 62] <+: d :: c := List.isPrefixOf_iff_prefix.mp hp
          cases ht
          exact h₃ t rfl
        have hs (t : Text) : strstr (bytes "-->") (60 :: t) = strstr (bytes "-->") t := by simp [strstr, bytes, List.isPrefixOf]
        have hs' (t : Text) : strstr (bytes "-->") (33 :: t) = strstr (bytes "-->") t := by simp [strstr, bytes, List.isPrefixOf]
        have h₁ : strstr (bytes "-->") (45 :: d :: c) = none := by
          rw [strstr, if_neg, h]
          exact Bool.eq_false_iff.mp hc
        have h₀ : strstr (bytes "-->") (45 :: 45 :: d :: c) = none := by
          rw [strstr, if_neg, h₁]
          exact fun hp => absurd hp (by simp [bytes, List.isPrefixOf, hd])
        exact (hs _).trans ((hs' _).trans h₀)
    refine ⟨bytes "<!--" ++ c, by simp [comment], ?_⟩
    have hr := strstr_close hopen r
    simpa [comment] using hr

end Search

section Lex

variable {xb : XmlBuffer} {c m q s t : Text}

-- The search for the next tag goes on behind a comment.
theorem sfccLex_comment {i : Text} (hx : Ready (bytes "<!--" ++ m) xb) (hm : bytes "<!--" ++ m = i ++ (bytes "-->" ++ s))
    (hs : strstr (bytes "-->") (bytes "<!--" ++ m) = some (bytes "-->" ++ s)) :
    ∃ b, sfccLex xb = sfccLex ⟨b, s, false, false, xb.etag⟩ := by
  replace hx : Ready (60 :: 33 :: 45 :: 45 :: m) xb := hx
  have ⟨b, hn⟩ := hx.nextTag
  have ⟨b', hc⟩ := @skipComment_eq ⟨b, bytes "<!--" ++ m, false, false, xb.etag⟩ i s hm hs
  have hl : s.length < xb.rest.length := Nat.lt_of_lt_of_le (skipComment_length hc) (nextTag_length hn)
  have h47 : (33 :: 45 :: 45 :: m).head? ≠ some 47 := by simp
  have hp : (bytes "<!--").isPrefixOf (60 :: 33 :: 45 :: 45 :: m) := by simp [bytes, List.isPrefixOf]
  refine ⟨b', ?_⟩
  rw [sfccLex, sfccLexN, hn]
  simp only [Bool.false_eq_true, if_false, h47, hp, if_true]
  replace hc : skipComment ⟨b, 60 :: 33 :: 45 :: 45 :: m, false, false, xb.etag⟩ = .ok ⟨b', s, false, false, xb.etag⟩ := hc
  rw [hc]
  exact sfccLexN_eq hl

theorem Ready.dropped (h : Ready s xb) (ht : t.dropWhile isWS = s.dropWhile isWS) : Ready t xb :=
  { h with rest := h.rest.trans ht.symm }

theorem sfccLex_hidden (hh : Hidden c) (hc : strstr (bytes "-->") c = none) (hx : Ready (comment c ++ s) xb) :
    ∃ xb', Ready s xb' ∧ sfccLex xb = sfccLex xb' := by
  have hopen (c s : Text) : comment c ++ s = bytes "<!--" ++ (c ++ bytes "-->" ++ s) := by simp [comment]
  have ⟨i, hi, hs⟩ := strstr_comment hc s
  rw [hopen] at hi hs hx
  have ⟨b, hb⟩ := sfccLex_comment hx hi hs
  obtain hl | ⟨m, hm⟩ := hh
  · rw [hl] at hb
    exact ⟨_, ⟨rfl, rfl, rfl⟩, hb⟩
  -- What is left of it is one more comment.
  · obtain hl | ⟨u, hl, hu⟩ := leftover_none hc
    · rw [hl] at hm
      cases hm
    have hdrop (s : Text) : (leftover c ++ s).dropWhile isWS = u.dropWhile isWS ++ (bytes "-->" ++ s) := by
      rw [hl, List.append_assoc]
      exact XmlBuffer.dropWhile_append_head fun d hd => by cases hd; rfl
    have hv : strstr (bytes "-->") (u.dropWhile isWS) = none := by
      rw [← List.takeWhile_append_dropWhile (p := isWS) (l := u)] at hu
      exact strstr_append hu
    have hnext : bytes "<!--" ++ (m ++ s) = u.dropWhile isWS ++ (bytes "-->" ++ s) := by
      have hnil := hdrop []
      rw [List.append_nil, List.append_nil, ← hm] at hnil
      rw [← List.append_assoc, hnil, List.append_assoc]
    have hr : Ready (bytes "<!--" ++ (m ++ s)) ⟨b, leftover c ++ s, false, false, xb.etag⟩ := by
      refine ⟨?_, rfl, rfl⟩
      rw [hdrop, ← hnext]
      rfl
    have ⟨b', hb'⟩ := sfccLex_comment hr hnext (by rw [hnext]; exact strstr_close hv s)
    exact ⟨_, ⟨rfl, rfl, rfl⟩, hb.trans hb'⟩

end Lex

-- Behind a text, where the `<` of the next tag was overwritten.
structure Overwritten (q : Text) (xb : XmlBuffer) : Prop where
  rest       : xb.rest = 0 :: q
  nulledChar : xb.nulledChar
  eTagFound  : xb.eTagFound = false

-- Where a tag is next.
def AtTag (q : Text) (xb : XmlBuffer) : Prop :=
  Ready (60 :: q) xb ∨ Overwritten q xb

section AtTag

variable {xb xb' x : XmlBuffer} {q m : Text} {t : Tok}

theorem Overwritten.nextTag (h : Overwritten q xb) : xb.nextTag = (some q, ⟨xb.before, 0 :: q, false, false, xb.etag⟩) := by
  have ⟨b, rest, nulled, e, etag⟩ := xb
  have hr : rest = 0 :: q := h.rest
  have hn : nulled = true := h.nulledChar
  have he : e = false := h.eTagFound
  subst hr hn he
  rfl

namespace XmlBuffer

theorem getWord_none {w : Text} (h : ¬ w <+: xb.rest) : xb.getWord w true = none := by
  rw [getWord, if_neg]
  rintro ⟨hw, _⟩
  exact h (List.prefix_iff_eq_take.mpr (Eq.symm hw))

variable {b b' w : Text} {etag etag' : Tok}

-- In the place of the `<`.
theorem tagEquals_overwritten : tagEquals w ⟨b, 0 :: q, false, false, etag⟩ =
    (getWord w true (skipWS ⟨0 :: b, q, false, false, etag⟩)).elim (.error .lost) fun xb => .ok (some xb) := by
  rw [tagEquals_zero rfl, skipWS_skipWS]
  rfl

theorem tagEquals_open : tagEquals w ⟨b, 60 :: q, false, false, etag⟩ = .ok (getWord w true (skipWS ⟨60 :: b, q, false, false, etag⟩)) := by
  rw [tagEquals_cons (by decide) rfl, skipWS_cons rfl]
  rfl

theorem sameTag_overwritten {o : Option XmlBuffer} (h : tagEquals w ⟨b, 0 :: q, false, false, etag⟩ = .ok o) :
    SameTag w ⟨b, 0 :: q, false, false, etag⟩ ⟨b', 60 :: q, false, false, etag'⟩ := by
  have hu : Alike ⟨0 :: b, q, false, false, etag⟩ ⟨60 :: b', q, false, false, etag'⟩ :=
    ⟨rfl, rfl, rfl, fun hf => absurd hf Bool.false_ne_true⟩
  have hg := hu.skipWS.getWord w true
  rw [tagEquals_overwritten] at h
  rw [SameTag, tagEquals_overwritten, tagEquals_open]
  generalize getWord w true (skipWS ⟨0 :: b, q, false, false, etag⟩) = o, getWord w true (skipWS ⟨60 :: b', q, false, false, etag'⟩) = o' at hg h ⊢
  cases hg with
  | none    => cases h
  | some hu => exact .pure ⟨.some hu, fun hn => absurd hn (Option.some_ne_none _)⟩

theorem skipTag_overwritten : SameEnd Alike (skipTag ⟨b, 0 :: q, false, false, etag⟩) (skipTag ⟨b', 60 :: q, false, false, etag'⟩) := by
  have hw (c : UInt8) (h : c ≠ 62) : (c :: q).takeWhile (· ≠ 62) = c :: q.takeWhile (· ≠ 62) := by simp [h]
  simp only [skipTag, hw 0 (by decide), hw 60 (by decide), List.length_cons]
  split
  · exact .pure ⟨rfl, rfl, rfl, fun hf => absurd hf Bool.false_ne_true⟩
  · exact .error

end XmlBuffer

-- A comment is not seen there.
theorem Overwritten.comment (h : Overwritten (33 :: 45 :: 45 :: m) xb) (hl : sfccLex xb = .ok (t, x)) : t = .none := by
  have hlost {w : Text} (hw : ¬ w <+: 33 :: 45 :: 45 :: m) :
      XmlBuffer.tagEquals w ⟨xb.before, 0 :: 33 :: 45 :: 45 :: m, false, false, xb.etag⟩ = .error .lost := by
    rw [XmlBuffer.tagEquals_overwritten, XmlBuffer.getWord_none]
    · rfl
    · rwa [XmlBuffer.skipWS_rest]
  have h47 : (33 :: 45 :: 45 :: m).head? ≠ some 47 := by simp
  have hp : (bytes "<!--").isPrefixOf (0 :: 33 :: 45 :: 45 :: m) = false := by simp [bytes, List.isPrefixOf]
  rw [sfccLex, sfccLexN, h.nextTag] at hl
  simp only [Bool.false_eq_true, if_false, h47, hp] at hl
  cases hf : tags.find? (nextEquals (33 :: 45 :: 45 :: m) ·.tag) with
  | none   =>
    rw [hf] at hl
    cases hl
    rfl
  | some e =>
    exfalso
    have he : e ∈ elements ++ [cdataTag, cdataEnd] := List.mem_of_find?_eq_some hf
    rw [hf] at hl
    cases List.mem_append.mp he with
    | inl he =>
      obtain ⟨tag, _, _, _, hs⟩ := elements_shape he
      obtain ⟨c, hc, _, _, h33, _⟩ := elements_starts he
      have hw : ¬ bytes tag <+: 33 :: 45 :: 45 :: m := by
        rw [← hs.name]
        generalize e.tag = w at hc
        cases w with
        | nil      => cases hc
        | cons d w =>
          cases hc
          exact fun hw => h33 (List.cons_prefix_cons.mp hw).left
      simp only [hs.process, procTag, hlost hw] at hl
      cases hl
    | inr hc =>
      have hp : e.process = procCdata := by
        cases List.mem_pair.mp hc with
        | inl h => rw [h]; rfl
        | inr h => rw [h]; rfl
      have hw : ¬ bytes "![CDATA[" <+: 33 :: 45 :: 45 :: m := by
        simp [bytes, List.cons_prefix_cons]
      simp only [hp, procCdata, hlost hw] at hl
      cases hl

-- What is returned there is returned at the `<` as well.
theorem Overwritten.same (h : Overwritten q xb) (hx : Ready (60 :: q) xb') (ht : t ≠ .none) (hl : sfccLex xb = .ok (t, x)) :
    ∃ x', sfccLex xb' = .ok (t, x') ∧ x.Alike x' := by
  obtain ⟨b', hn'⟩ := hx.nextTag
  have hcomment : ¬ (bytes "<!--").isPrefixOf (60 :: q) := by
    intro hp
    obtain ⟨m, hm⟩ : [60, 33, 45, 45] <+: 60 :: q := List.isPrefixOf_iff_prefix.mp hp
    cases hm
    exact ht (h.comment hl)
  have hp : (bytes "<!--").isPrefixOf (0 :: q) = false := rfl
  rw [sfccLex, sfccLexN, h.nextTag] at hl
  rw [sfccLex, sfccLexN, hn']
  simp only [Bool.false_eq_true, if_false, hp, hcomment] at hl ⊢
  by_cases h47 : q.head? = some 47
  · rw [if_pos h47] at hl ⊢
    cases hf : tags.find? (nextEquals q.tail ·.tag) with
    | none   =>
      rw [hf] at hl
      cases hl
      exact absurd rfl ht
    | some e =>
      have hs : SameEnd Same (XmlBuffer.skipTag ⟨xb.before, 0 :: q, false, false, xb.etag⟩ >>= fun y => .ok (e.etag, y))
          (XmlBuffer.skipTag ⟨b', 60 :: q, false, false, xb'.etag⟩ >>= fun y => .ok (e.etag, y)) :=
        XmlBuffer.skipTag_overwritten.bind fun _ _ h => .pure ⟨rfl, h⟩
      rw [hf] at hl
      obtain ⟨⟨t', x'⟩, hl', ht', hu⟩ := hs.returns hl
      have ht' : t' = t := ht'
      subst ht'
      exact ⟨x', hl', hu⟩
  · rw [if_neg h47] at hl ⊢
    cases hf : tags.find? (nextEquals q ·.tag) with
    | none   =>
      rw [hf] at hl
      cases hl
      exact absurd rfl ht
    | some e =>
      obtain ⟨w, hsame, herror⟩ := process_same (List.mem_of_find?_eq_some hf)
      rw [hf] at hl
      cases hw : XmlBuffer.tagEquals w ⟨xb.before, 0 :: q, false, false, xb.etag⟩ with
      | error f => cases (herror hw).symm.trans hl
      | ok o    =>
        have hs : SameTag w ⟨xb.before, 0 :: q, false, false, xb.etag⟩ ⟨b', 60 :: q, false, false, xb'.etag⟩ :=
          XmlBuffer.sameTag_overwritten hw
        obtain ⟨⟨t', x'⟩, hl', ht', hu⟩ := (hsame hs).returns hl
        have ht' : t' = t := ht'
        subst ht'
        exact ⟨x', hl', hu⟩

end AtTag

-- A document that makes tokens up to its end.
def Lexed (xb : XmlBuffer) : Prop :=
  ∃ ts xb', Calls xb ts xb' ∧ Ready [] xb'

section Run

variable {xb xb' x x' : XmlBuffer} {ts us : List Tok} {c q s w : Text} {t : Tok}

theorem Lexed.next (h : Lexed xb) (hr : ¬ Ready [] xb) : ∃ t x, sfccLex xb = .ok (t, x) ∧ t ≠ .none ∧ Lexed x := by
  obtain ⟨ts, z, hc, hz⟩ := h
  cases hc with
  | nil                => exact absurd hz hr
  | cons call hs calls => exact ⟨_, _, call, hs, _, z, calls, hz⟩

theorem Calls.lexed_iff (hc : Calls xb ts x) : Lexed xb ↔ Lexed x := by
  refine ⟨fun h => ?_, fun ⟨us, z, hu, hz⟩ => ⟨ts ++ us, z, hc.append hu, hz⟩⟩
  induction hc with
  | nil                => exact h
  | cons call hs _ hi =>
    have hr : ¬ Ready [] _ := fun hr => by
      cases call.symm.trans (sfccLex_none (nextTag_nil hr))
      exact hs rfl
    have ⟨t, y, hl, _, hy⟩ := h.next hr
    cases call.symm.trans hl
    exact hi hy

theorem Calls.results_iff (h : Calls xb ts x) (h' : Calls xb' us x') (hl : ts.length = us.length) :
    (∀ n, results n xb = results n xb') ↔ ts = us ∧ ∀ n, results n x = results n x' := by
  induction h generalizing xb' us with
  | nil                =>
    cases List.length_eq_zero_iff.mp hl.symm
    cases h'
    exact ⟨fun h => ⟨rfl, h⟩, fun h => h.right⟩
  | cons call _ _ hi =>
    cases h' with
    | nil                 => cases hl
    | cons call' _ calls =>
      have hr := Xml.results_iff id call call'
      simp only [List.map_id_fun, Except.map_id, id] at hr
      rw [hr, hi calls (Nat.succ.inj hl), List.cons.injEq, and_assoc]

theorem AtTag.not_ready (h : AtTag q xb) : ¬ Ready [] xb := by
  intro hr
  cases h with
  | inl h => cases h.rest.symm.trans hr.rest
  | inr h => exact absurd (hr.nulledChar.symm.trans h.nulledChar) nofun

theorem AtTag.same (h : AtTag q xb) (hl : Lexed xb) (hx : Ready (60 :: q) xb') (n : ℕ) : results n xb = results n xb' := by
  cases h with
  | inl h => exact results_same (h.same hx) n
  | inr h =>
    have ⟨t, y, hy, ht, _⟩ := hl.next (AtTag.not_ready (.inr h))
    have ⟨y', hy', hu⟩ := h.same hx ht hy
    cases n with
    | zero   => rfl
    | succ n => simp only [results, hy, hy', results_same hu.nextTag n]

-- A comment that is passed is followed by what was there without it.
theorem AtTag.hidden (h : AtTag q xb) (hl : Lexed xb) (hh : Hidden c) (hc : strstr (bytes "-->") c = none) (hw : ∀ d ∈ w, isWS d)
    (hx : Ready (comment c ++ (w ++ 60 :: q)) xb') (n : ℕ) : results n xb = results n xb' := by
  have ⟨y, hy, hl'⟩ := sfccLex_hidden hh hc hx
  have hr : Ready (60 :: q) y := hy.dropped (List.dropWhile_append_of_pos hw).symm
  rw [h.same hl hr]
  cases n with
  | zero   => rfl
  | succ n => simp only [results, hl']

theorem AtTag.stop {e : Tags} (he : Known e) (h : AtTag (47 :: (e.tag ++ 62 :: s)) xb) :
    ∃ b, sfccLex xb = .ok (e.etag, ⟨b, s, false, false, xb.etag⟩) := by
  cases h with
  | inl h => exact sfccLex_stop he ((endTag_append e.tag s).symm ▸ h)
  | inr h => exact sfccLex_endTag he.not_mem (he.find (by decide) s) (by decide) h.nextTag

end Run

section Seen

variable {tag : String} {token : (ℕ → Option Text) → Proc} {xb x : XmlBuffer} {c s : Text} {t : Tok}

theorem TokenKind.not_isEnd (h : TokenKind tag token) {attr : ℕ → Option Text} (hx : token attr xb = .ok (t, x)) : t.isEnd = false := by
  cases h with
  | element token _ hbare      =>
    cases hx
    exact (hbare attr).right
  | content token _ _ htext _  =>
    simp only [bind, Except.bind] at hx
    cases hg : xb.getContent with
    | error e =>
      rw [hg] at hx
      cases hx
    | ok p    =>
      rw [hg] at hx
      cases hx
      exact Tok.not_isEnd (htext attr _)
  | named name token _ hbare   =>
    simp only at hx
    cases ha : attr 0 with
    | none   =>
      rw [ha] at hx
      cases hx
    | some n =>
      rw [ha] at hx
      cases hx
      split
      · exact hbare.right
      · rfl
  | paramValue                 =>
    simp only at hx
    cases ha : attr 2 with
    | none   =>
      rw [ha] at hx
      cases hx
      rfl
    | some a =>
      rw [ha] at hx
      simp only at hx
      split at hx
      · cases hx
        rfl
      · cases hx

-- The end of an element is only returned by its end tag.
theorem process_not_isEnd {e : Tags} (he : e ∈ tags) (hx : e.process xb = .ok (t, x)) : t.isEnd = false := by
  have hm : e ∈ elements ++ [cdataTag, cdataEnd] := he
  cases List.mem_append.mp hm with
  | inl he =>
    have ⟨tag, elm, etag, token, hs⟩ := elements_shape he
    rw [hs.process, procTag] at hx
    cases hy : xb.tagEquals (bytes tag) with
    | error f =>
      rw [hy] at hx
      cases hx
    | ok o    =>
      rw [hy] at hx
      cases o with
      | none   =>
        cases hx
        rfl
      | some y =>
        simp only [bind, Except.bind] at hx
        cases hz : y.attrsOk (elm.map bytes) (bytes tag) etag with
        | error f =>
          rw [hz] at hx
          cases hx
        | ok p    =>
          rw [hz] at hx
          exact hs.kind.not_isEnd hx
  | inr hc =>
    have hp : e.process = procCdata := by
      cases List.mem_pair.mp hc with
      | inl h => rw [h]; rfl
      | inr h => rw [h]; rfl
    rw [hp, procCdata] at hx
    cases hy : xb.tagEquals (bytes "![CDATA[") with
    | error f =>
      rw [hy] at hx
      cases hx
    | ok o    =>
      rw [hy] at hx
      cases o with
      | none   =>
        cases hx
        rfl
      | some y =>
        simp only [bind, Except.bind] at hx
        cases hz : XmlBuffer.attrsOk [] (bytes "![CDATA[") (.Z .CDATA) { y with before := y.before.tail, rest := 62 :: y.rest } with
        | error f =>
          rw [hz] at hx
          cases hx
        | ok p    =>
          rw [hz] at hx
          simp only at hx
          split at hx
          all_goals
            cases hx
            rfl

-- Which end is read of a comment does not depend on what follows it.
theorem seen_end (hh : ¬ Hidden c) (hc : strstr (bytes "-->") c = none) : ∃ k, ∀ {s xb t x}, Ready (comment c ++ s) xb →
    sfccLex xb = .ok (t, x) → t.isEnd → t = k := by
  obtain hl | ⟨u, hl, _⟩ := leftover_none hc
  · exact absurd (.inl hl) hh
  have hpass {s : Text} {xb : XmlBuffer} (hx : Ready (comment c ++ s) xb) : ∃ y, Ready (u ++ (bytes "-->" ++ s)) y ∧ sfccLex xb = sfccLex y := by
    obtain ⟨i, hi, hs⟩ := strstr_comment hc s
    have hopen : comment c ++ s = bytes "<!--" ++ (c ++ bytes "-->" ++ s) := by simp [comment]
    rw [hopen] at hi hs hx
    obtain ⟨b, hb⟩ := sfccLex_comment hx hi hs
    exact ⟨_, ⟨by rw [hl, List.append_assoc], rfl, rfl⟩, hb⟩
  have hdrop (s : Text) : (u ++ (bytes "-->" ++ s)).dropWhile isWS = u.dropWhile isWS ++ (bytes "-->" ++ s) :=
    XmlBuffer.dropWhile_append_head fun d hd => by cases hd; rfl
  have hopen : ¬ bytes "<!--" <+: u.dropWhile isWS ++ bytes "-->" := by
    have hd := hdrop []
    rw [List.append_nil] at hd
    rw [← hd, ← hl]
    exact fun h => hh (.inr h)
  generalize u.dropWhile isWS = v at hdrop hopen
  by_cases hv : v.head? = some 60
  · obtain ⟨v, rfl⟩ : ∃ n, v = 60 :: n := by
      cases v with
      | nil      => cases hv
      | cons d n =>
        cases hv
        exact ⟨n, rfl⟩
    obtain ⟨a, n, hn⟩ := List.exists_cons_of_ne_nil (l := v ++ [45, 45]) (by simp)
    refine ⟨if a = 47 then (tags.find? (nextEquals (n ++ [62]) ·.tag)).elim .none (·.etag) else .none, fun {s xb t x} hx hl he => ?_⟩
    obtain ⟨y, hy, hl'⟩ := hpass hx
    have hrest : 60 :: v ++ (bytes "-->" ++ s) = 60 :: a :: (n ++ 62 :: s) := by
      have h := congrArg (60 :: · ++ 62 :: s) hn
      simpa [bytes] using h
    replace hy : Ready (60 :: a :: (n ++ 62 :: s)) y := hy.dropped (by rw [hdrop, hrest]; rfl)
    obtain ⟨b, hnext⟩ := hy.nextTag
    rw [hl', sfccLex, sfccLexN, hnext] at hl
    simp only [Bool.false_eq_true, if_false, List.head?_cons, Option.some.injEq, List.tail_cons, find_tags] at hl
    by_cases ha : a = 47
    · rw [if_pos ha] at hl ⊢
      cases hf : tags.find? (nextEquals (n ++ [62]) ·.tag) with
      | none   =>
        rw [hf] at hl
        cases hl
        cases he
      | some e =>
        rw [hf] at hl
        cases hs : XmlBuffer.skipTag ⟨b, 60 :: a :: (n ++ 62 :: s), false, false, y.etag⟩ with
        | error f =>
          rw [hs] at hl
          cases hl
        | ok z    =>
          rw [hs] at hl
          cases hl
          rfl
    · rw [if_neg ha] at hl ⊢
      have hp : ¬ (bytes "<!--").isPrefixOf (60 :: a :: (n ++ 62 :: s)) := by
        intro hp
        have hpre : bytes "<!--" <+: (60 :: a :: n) ++ 62 :: s := List.isPrefixOf_iff_prefix.mp hp
        rw [prefix_append_cons (by decide), ← hn] at hpre
        have hend : 60 :: v ++ bytes "-->" = 60 :: (v ++ [45, 45]) ++ [62] := by simp [bytes]
        exact hopen (hend ▸ hpre.trans (List.prefix_append ..))
      rw [if_neg hp] at hl
      exfalso
      cases hf : tags.find? (nextEquals (a :: (n ++ 62 :: s)) ·.tag) with
      | none   =>
        rw [hf] at hl
        cases hl
        cases he
      | some e =>
        rw [hf] at hl
        exact absurd ((process_not_isEnd (List.mem_of_find?_eq_some hf) hl).symm.trans he) Bool.false_ne_true
  · refine ⟨.none, fun {s xb t x} hx hl _ => ?_⟩
    obtain ⟨y, hy, hl'⟩ := hpass hx
    have hs : y.skipWS.rest = v ++ (bytes "-->" ++ s) := by rw [XmlBuffer.skipWS_rest, hy.rest, hdrop]
    have hhead : (v ++ (bytes "-->" ++ s)).head? ≠ some 60 := by
      cases v with
      | nil      => exact fun hd => absurd (Option.some.inj hd) (by decide)
      | cons d v => exact hv
    have hnext : y.nextTag = (none, y.skipWS) := by
      rw [XmlBuffer.nextTag, if_neg (Bool.eq_false_iff.mp hy.nulledChar)]
      simp only [hs, if_neg hhead]
    cases (hl'.trans (sfccLex_none hnext)).symm.trans hl
    rfl

end Seen

section Inserted

variable {p c q₀ t₁ t₂ w : Text} {t : Tok} {xb : XmlBuffer} {ts : List Tok}

theorem Tok.withText_some (h : t.isText) (v : Option Text) : t.withText v ≠ .none := by
  cases t with
  | none   => cases h
  | Z _    => cases h
  | X k a  =>
    cases k
    case VALUE | HOST | KEYVALUE => exact nofun
    all_goals cases h

-- Behind the start of an element with a text.
theorem TagEnd.opens (hp : TagEnd p t xb) (ho : AtText t xb) : ∃ ts, ∀ w q, 60 ∉ w → ∃ x,
    Calls (newXmlBuffer (p ++ (w ++ 60 :: q))) (ts ++ [t.withText (some (trimmed w))]) x ∧
      if w = [] then Ready (60 :: q) x else Overwritten q x := by
  have ⟨ts, h⟩ := hp.passed
  refine ⟨ts, fun w q hw => ?_⟩
  have ⟨y, hc, hy⟩ := h (w ++ 60 :: q)
  generalize hl : sfccLex y = o at hy
  cases hy with
  | tag hn          => exact absurd ho hn
  | @text b e _ hb  =>
    have ⟨b', hg⟩ := @getContent_append b q w e hw ⟨62, hb, rfl⟩
    simp only [hg, bind, Except.bind, pure, Except.pure] at hl
    refine ⟨_, hc.append (.cons hl (Tok.withText_some ho.left _) .nil), ?_⟩
    split
    · exact ⟨rfl, rfl, rfl⟩
    · exact ⟨rfl, rfl, rfl⟩

-- Behind another tag.
theorem TagEnd.bare (hp : TagEnd p t xb) (ho : ¬ AtText t xb) : ∃ ts, ∀ r, ∃ b etag, (xb.eTagFound → etag = xb.etag) ∧
    Calls (newXmlBuffer (p ++ r)) ts ⟨b, r, false, xb.eTagFound, etag⟩ := by
  have ⟨ts, h⟩ := hp.passed
  refine ⟨ts ++ [t], fun r => ?_⟩
  have ⟨y, hc, hy⟩ := h r
  generalize hl : sfccLex y = o at hy
  cases hy with
  | text hn              => exact absurd hn ho
  | @tag b etag _ hetag  => exact ⟨b, etag, hetag, hc.append (.cons hl hp.token .nil)⟩

theorem head_blank {q : Text} (hw : 60 ∉ w) (hh : ((w ++ 60 :: q).dropWhile isWS).head? = some 60) : ∀ d ∈ w, isWS d := by
  rw [XmlBuffer.dropWhile_append_head fun d hd => by cases hd; rfl] at hh
  rw [← List.dropWhile_eq_nil_iff]
  cases hd : w.dropWhile isWS with
  | nil      => rfl
  | cons d u =>
    rw [hd] at hh
    cases hh
    exact absurd (List.dropWhile_subset _ (hd ▸ List.mem_cons_self ..)) hw

theorem TagEnd.next (hp : TagEnd p t xb) (ho : ¬ AtText t xb) (h60 : 60 ∉ w) (hl : Lexed (newXmlBuffer (p ++ (w ++ 60 :: q₀)))) :
    (∀ d ∈ w, isWS d) ∧ ∃ ts, ∀ w q, (∀ d ∈ w, isWS d) → ∃ x, Calls (newXmlBuffer (p ++ (w ++ 60 :: q))) ts x ∧ Ready (60 :: q) x := by
  obtain ⟨ts, h⟩ := hp.bare ho
  obtain ⟨b, etag, hetag, hc⟩ := h (w ++ 60 :: q₀)
  have hz : ¬ Ready [] ⟨b, w ++ 60 :: q₀, false, xb.eTagFound, etag⟩ := by
    intro hr
    have hall := List.dropWhile_eq_nil_iff.mp hr.rest 60 (by simp)
    exact absurd hall (by decide)
  obtain ⟨t', x, hx, ht', _⟩ := (hc.lexed_iff.mp hl).next hz
  have hhead : ((w ++ 60 :: q₀).dropWhile isWS).head? = some 60 := by
    by_contra hh
    have hnext : XmlBuffer.nextTag ⟨b, w ++ 60 :: q₀, false, xb.eTagFound, etag⟩ =
        (none, XmlBuffer.skipWS ⟨b, w ++ 60 :: q₀, false, xb.eTagFound, etag⟩) := by
      rw [← XmlBuffer.skipWS_rest ⟨b, w ++ 60 :: q₀, false, xb.eTagFound, etag⟩] at hh
      simp only [XmlBuffer.nextTag, Bool.false_eq_true, if_false, if_neg hh]
    cases (sfccLex_none hnext).symm.trans hx
    exact ht' rfl
  refine ⟨head_blank h60 hhead, ?_⟩
  have hblank {w : Text} (q : Text) (hw : ∀ d ∈ w, isWS d) : (w ++ 60 :: q).dropWhile isWS = 60 :: q := by
    rw [List.dropWhile_append_of_pos hw]
    rfl
  cases he : xb.eTagFound with
  | false =>
    refine ⟨ts, fun w q hw => ?_⟩
    obtain ⟨b, etag, _, hc⟩ := h (w ++ 60 :: q)
    rw [he] at hc
    exact ⟨_, hc, (hblank q hw).trans rfl, rfl, rfl⟩
  -- The end of the element comes first.
  | true  =>
    obtain ⟨_, hy, _⟩ := lex_pending hhead b etag
    rw [he] at hx
    cases hy.symm.trans hx
    refine ⟨ts ++ [xb.etag], fun w q hw => ?_⟩
    obtain ⟨b, etag₁, hetag₁, hc⟩ := h (w ++ 60 :: q)
    obtain ⟨x, hx, hr⟩ := @lex_pending (w ++ 60 :: q) (by rw [hblank q hw]; rfl) b etag₁
    rw [he] at hc
    rw [hetag he] at ht'
    rw [hetag₁ he] at hx
    exact ⟨x, hc.append (.cons (by rw [hetag₁ he]; exact hx) ht' .nil), hr.dropped (hblank q hw).symm⟩

theorem trimmed_eq_nil (h : trimmed w = []) : ∀ d ∈ w, isWS d := by
  rw [← List.dropWhile_eq_nil_iff]
  rw [trimmed, List.rdropWhile_eq_nil_iff] at h
  by_contra hn
  have hd := List.dropWhile_get_zero_not isWS w (List.length_pos_iff.mpr hn)
  exact hd (h _ (List.getElem_mem _))

-- The tags that are put behind a comment that is seen.
theorem known_cim : Known ⟨bytes "CIM", procCim, .Z .CIM⟩ :=
  known (List.mem_of_getElem? (i := 1) rfl)

theorem known_message : Known ⟨bytes "MESSAGE", procMessage, .Z .MESSAGE⟩ :=
  known (List.mem_of_getElem? (i := 2) rfl)

theorem hidden_iff {f g : Text → XmlBuffer} (ts : List Tok) (hc : strstr (bytes "-->") c = none) (hw : ∀ d ∈ w, isWS d)
    (hf : ∀ q, ∃ x, Calls (f q) ts x ∧ AtTag q x) (hg : ∀ q, ∃ x, Calls (g q) ts x ∧ Ready (comment c ++ (w ++ 60 :: q)) x) :
    (∀ q, 0 ∉ q → Lexed (f q) → ∀ n, results n (f q) = results n (g q)) ↔ Hidden c := by
  have hiff (q : Text) : ∃ x x', AtTag q x ∧ Ready (comment c ++ (w ++ 60 :: q)) x' ∧ (Lexed (f q) ↔ Lexed x) ∧
      ((∀ n, results n (f q) = results n (g q)) ↔ ∀ n, results n x = results n x') := by
    obtain ⟨x, hx, ht⟩ := hf q
    obtain ⟨x', hx', hr⟩ := hg q
    exact ⟨x, x', ht, hr, hx.lexed_iff, (hx.results_iff hx' rfl).trans (and_iff_right rfl)⟩
  constructor
  · intro h
    by_contra hh
    obtain ⟨k, hk⟩ := seen_end hh hc
    have hend {e : Tags} (he : Known e) (h0 : 0 ∉ e.tag) (hend : e.etag.isEnd) : e.etag = k := by
      let q := 47 :: (e.tag ++ 62 :: [])
      obtain ⟨x, x', ht, hr, hlexed, hsame⟩ := hiff q
      obtain ⟨b, hstop⟩ := ht.stop he
      have hq : 0 ∉ q := by simp [q, h0]
      have hne : e.etag ≠ .none := fun hn => by
        rw [hn] at hend
        cases hend
      have hlex : Lexed x := ⟨_, _, .cons hstop hne .nil, rfl, rfl, rfl⟩
      have h1 := hsame.mp (h q hq (hlexed.mpr hlex)) 1
      simp only [results, hstop] at h1
      cases hl : sfccLex x' with
      | error f =>
        rw [hl] at h1
        cases h1
      | ok o    =>
        rw [hl] at h1
        have ht : e.etag = o.1 := Except.ok.inj (List.cons.inj h1).left
        exact ht.trans (hk hr hl (ht ▸ hend))
    have hcim := hend known_cim (by decide) rfl
    have hmessage := hend known_message (by decide) rfl
    cases hcim.trans hmessage.symm
  · intro hh q _ hl
    obtain ⟨x, x', ht, hr, hlexed, hsame⟩ := hiff q
    exact hsame.mpr (ht.hidden (hlexed.mp hl) hh hc hw hr)

-- A comment between two tags changes nothing if and only if it is hidden, and there is no text on one side
-- of it that is read up to it or no longer read.
theorem comment_iff (hp : TagEnd p t xb) (h60 : 60 ∉ t₁ ++ t₂) (hl : Lexed (newXmlBuffer (p ++ (t₁ ++ t₂ ++ 60 :: q₀))))
    (hc : strstr (bytes "-->") c = none) :
    (∀ q, 0 ∉ q → Lexed (newXmlBuffer (p ++ (t₁ ++ t₂ ++ 60 :: q))) →
      ∀ n, results n (newXmlBuffer (p ++ (t₁ ++ t₂ ++ 60 :: q))) = results n (newXmlBuffer (p ++ (t₁ ++ (comment c ++ (t₂ ++ 60 :: q)))))) ↔
        Hidden c ∧ (AtText t xb → t₁ = [] ∧ ∀ d ∈ t₂, isWS d) := by
  obtain ⟨h₁, h₂⟩ : 60 ∉ t₁ ∧ 60 ∉ t₂ := by simpa using h60
  by_cases ho : AtText t xb
  · obtain ⟨ts, h⟩ := hp.opens ho
    have hat {w q : Text} {x : XmlBuffer} (hx : if w = [] then Ready (60 :: q) x else Overwritten q x) : AtTag q x := by
      split at hx
      · exact .inl hx
      · exact .inr hx
    have hiff (ht₁ : t₁ = []) (hw : ∀ d ∈ t₂, isWS d) :=
      hidden_iff (f := fun q => newXmlBuffer (p ++ (t₁ ++ t₂ ++ 60 :: q)))
        (g := fun q => newXmlBuffer (p ++ (t₁ ++ (comment c ++ (t₂ ++ 60 :: q))))) (ts ++ [t.withText (some [])]) hc hw
        (fun q => by
          obtain ⟨x, hx, hif⟩ := h (t₁ ++ t₂) q h60
          rw [ht₁, List.nil_append, trimmed_blank hw] at hx
          rw [ht₁, List.nil_append]
          exact ⟨x, hx, hat hif⟩)
        (fun q => by
          rw [ht₁, List.nil_append]
          exact h [] _ List.not_mem_nil)
    constructor
    · intro hs
      obtain ⟨ht₁, hw⟩ : t₁ = [] ∧ ∀ d ∈ t₂, isWS d := by
        let q := 47 :: (bytes "CIM" ++ 62 :: [])
        obtain ⟨x, hx, hif⟩ := h (t₁ ++ t₂) q h60
        obtain ⟨x', hx', hif'⟩ := h t₁ (33 :: 45 :: 45 :: (c ++ bytes "-->" ++ (t₂ ++ 60 :: q))) h₁
        obtain ⟨b, hstop⟩ := (hat hif).stop known_cim
        have hlex : Lexed x := ⟨_, _, .cons hstop (fun hn => by cases hn) .nil, rfl, rfl, rfl⟩
        have hall := hs q (by decide) (hx.lexed_iff.mpr hlex)
        have hopen : comment c ++ (t₂ ++ 60 :: q) = 60 :: 33 :: 45 :: 45 :: (c ++ bytes "-->" ++ (t₂ ++ 60 :: q)) := by
          simp [comment, bytes]
        rw [hopen] at hall
        obtain ⟨hts, hsame⟩ := (hx.results_iff hx' (by simp)).mp hall
        have htrim : trimmed (t₁ ++ t₂) = trimmed t₁ := by
          have he := List.cons.inj (List.append_cancel_left hts)
          exact Option.some.inj (Tok.withText_inj ho.left he.left)
        -- The comment is not seen behind a text.
        have ht₁ : t₁ = [] := by
          by_contra hn
          rw [if_neg hn] at hif'
          have h1 := hsame 1
          simp only [results, hstop] at h1
          cases hl : sfccLex x' with
          | error f =>
            rw [hl] at h1
            cases h1
          | ok o    =>
            have ho : o.1 = .none := hif'.comment hl
            rw [hl] at h1
            cases (Except.ok.inj (List.cons.inj h1).left).trans ho
        rw [ht₁, List.nil_append] at htrim
        exact ⟨ht₁, trimmed_eq_nil htrim⟩
      exact ⟨(hiff ht₁ hw).mp hs, fun _ => ⟨ht₁, hw⟩⟩
    · rintro ⟨hh, hf⟩
      obtain ⟨ht₁, hw⟩ := hf ho
      exact (hiff ht₁ hw).mpr hh
  · obtain ⟨hw, ts, h⟩ := hp.next ho h60 hl
    have hw₁ : ∀ d ∈ t₁, isWS d := fun d hd => hw d (List.mem_append_left _ hd)
    have hw₂ : ∀ d ∈ t₂, isWS d := fun d hd => hw d (List.mem_append_right _ hd)
    have hiff := hidden_iff (f := fun q => newXmlBuffer (p ++ (t₁ ++ t₂ ++ 60 :: q)))
      (g := fun q => newXmlBuffer (p ++ (t₁ ++ (comment c ++ (t₂ ++ 60 :: q))))) ts hc hw₂
      (fun q => (h (t₁ ++ t₂) q hw).imp fun x hx => hx.imp_right .inl) (fun q => h t₁ _ hw₁)
    rw [hiff]
    exact ⟨fun h => ⟨h, fun h => absurd h ho⟩, fun h => h.left⟩

theorem tagEnd_cim : TagEnd (bytes "<CIM>") (.X .CIM ()) ⟨(bytes "<CIM>").reverse, [60], false, false, .none⟩ where
  closed := ⟨bytes "<CIM", rfl⟩
  read   := ⟨[], _, .nil, rfl, rfl⟩
  token  := nofun
  rest   := rfl

theorem comment_iff_cim : results 3 (newXmlBuffer (bytes "<CIM></CIM>")) = results 3 (newXmlBuffer (bytes "<CIM><!-- note --></CIM>")) := by
  have hl : Lexed (newXmlBuffer (bytes "<CIM>" ++ ([] ++ [] ++ 60 :: bytes "/CIM>"))) :=
    ⟨[.X .CIM (), .Z .CIM], _, .cons rfl nofun (.cons rfl nofun .nil), rfl, rfl, rfl⟩
  have hc : strstr (bytes "-->") (bytes " note ") = none := by decide
  have h60 : 60 ∉ ([] ++ [] : Text) := by decide
  exact (comment_iff tagEnd_cim h60 hl hc).mpr ⟨by decide, nofun⟩ (bytes "/CIM>") (by decide) hl 3

-- A text is followed by a comment that is not seen.
theorem not_comment_value : ¬ ∀ p t₁ t₂ c q t xb, TagEnd p t xb → 60 ∉ t₁ ++ t₂ → Lexed (newXmlBuffer (p ++ (t₁ ++ t₂ ++ 60 :: q))) →
    strstr (bytes "-->") c = none → 0 ∉ p ++ (t₁ ++ (comment c ++ (t₂ ++ 60 :: q))) → ∀ n, results n (newXmlBuffer (p ++ (t₁ ++ t₂ ++ 60 :: q))) =
      results n (newXmlBuffer (p ++ (t₁ ++ (comment c ++ (t₂ ++ 60 :: q))))) := by
  intro h
  have hp : TagEnd (bytes "<VALUE>") (.X .VALUE (some [])) ⟨(bytes "<VALUE>").reverse, [60], false, false, .none⟩ :=
    ⟨⟨bytes "<VALUE", rfl⟩, ⟨[], _, .nil, rfl, rfl⟩, nofun, rfl⟩
  have hl : Lexed (newXmlBuffer (bytes "<VALUE>" ++ (bytes "on" ++ [] ++ 60 :: bytes "/VALUE>"))) :=
    ⟨[.X .VALUE (some (bytes "on")), .Z .VALUE], _, .cons rfl nofun (.cons rfl nofun .nil), rfl, rfl, rfl⟩
  have hs := h _ _ _ (bytes " c ") _ _ _ hp (by decide) hl (by decide) (by decide) 2
  exact absurd (congrArg (List.map fun r => r.toOption.map Tok.kind) hs) (by decide +kernel)

end Inserted

end Sfcc.Xml
