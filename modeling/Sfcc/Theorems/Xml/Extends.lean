import Sfcc.Theorems.Xml.Frame

-- What is read of a text is read of it with something else behind it as well.
namespace Sfcc.Xml

-- Where the first run returns, the second one does.
def Continues {α : Type} (R : α → α → Prop) (x x' : Except LexEnd α) : Prop :=
  ∀ a, x = .ok a → ∃ a', x' = .ok a' ∧ R a a'

namespace Continues

variable {α β : Type} {R : α → α → Prop} {S : β → β → Prop}

theorem pure {a a' : α} (h : R a a') : Continues R (.ok a) (.ok a') :=
  fun _ he => ⟨a', rfl, Except.ok.inj he ▸ h⟩

theorem error {e : LexEnd} {x : Except LexEnd α} : Continues R (.error e) x :=
  nofun

theorem bind {x x' : Except LexEnd α} {f f' : α → Except LexEnd β} (hx : Continues R x x')
    (hf : ∀ a a', R a a' → Continues S (f a) (f' a')) : Continues S (x >>= f) (x' >>= f') := by
  intro b hb
  cases x with
  | error e => cases hb
  | ok a    =>
    have ⟨a', ha', hr⟩ := hx a rfl
    subst ha'
    exact hf a a' hr b hb

end Continues

namespace XmlBuffer

variable {xb xb' : XmlBuffer} {s t w : Text} {c : UInt8}

-- A byte that ends an attribute list.
def Ends (c : UInt8) : Prop :=
  c = 47 ∨ c = 62

theorem Ends.not_isWS (h : Ends c) : isWS c = false := by
  cases h with
  | inl h => rw [h]; rfl
  | inr h => rw [h]; rfl

theorem Ends.not_isalnum (h : Ends c) : isalnum c = false := by
  cases h with
  | inl h => rw [h]; rfl
  | inr h => rw [h]; rfl

theorem Ends.ne (h : Ends c) : c ≠ 0 ∧ c ≠ 34 ∧ c ≠ 39 ∧ c ≠ 60 ∧ c ≠ 61 := by
  cases h with
  | inl h => rw [h]; decide
  | inr h => rw [h]; decide

-- What follows a text on both sides. There is no attribute in it.
structure Parted (s t : Text) : Prop where
  left   : ∀ c ∈ s.head?, Ends c
  right  : ∀ c ∈ t.head?, Ends c
  quotes : 34 ∉ s ∧ 39 ∉ s

-- Inside of a tag, and with the same ahead up to there.
structure Extends (s t : Text) (xb xb' : XmlBuffer) : Prop where
  text       : ∃ w, xb.rest = w ++ s ∧ xb'.rest = w ++ t
  nulledChar : xb.nulledChar = false ∧ xb'.nulledChar = false
  eTagFound  : xb.eTagFound = false ∧ xb'.eTagFound = false

theorem Extends.advance (h : Extends s t xb xb') {n : ℕ} (hs : xb.rest = w ++ s) (ht : xb'.rest = w ++ t) (hn : n ≤ w.length) :
    Extends s t (xb.advance n) (xb'.advance n) where
  text       := by
    refine ⟨w.drop n, ?_, ?_⟩
    · rw [XmlBuffer.advance, hs]
      exact List.drop_append_of_le_length hn
    · rw [XmlBuffer.advance, ht]
      exact List.drop_append_of_le_length hn
  nulledChar := h.nulledChar
  eTagFound  := h.eTagFound

theorem dropWhile_append_head (h : ∀ c ∈ s.head?, isWS c = false) : (w ++ s).dropWhile isWS = w.dropWhile isWS ++ s := by
  rw [List.dropWhile_append]
  split
  · have he : w.dropWhile isWS = [] := List.isEmpty_iff.mp ‹_›
    rw [he, List.nil_append]
    cases s with
    | nil      => rfl
    | cons c s => exact List.dropWhile_cons_of_neg (Bool.eq_false_iff.mp (h c rfl))
  · rfl

theorem dropWhile_parted (h : ∀ c ∈ s.head?, Ends c) : (w ++ s).dropWhile isWS = w.dropWhile isWS ++ s :=
  dropWhile_append_head fun c hc => (h c hc).not_isWS

theorem Extends.skipWS (h : Extends s t xb xb') (hp : Parted s t) : Extends s t xb.skipWS xb'.skipWS where
  text       := by
    have ⟨w, hs, ht⟩ := h.text
    refine ⟨w.dropWhile isWS, ?_, ?_⟩
    · rw [skipWS_rest, hs, dropWhile_parted hp.left]
    · rw [skipWS_rest, ht, dropWhile_parted hp.right]
  nulledChar := h.nulledChar
  eTagFound  := h.eTagFound

theorem head_parted (h : ∀ c ∈ s.head?, Ends c) (p : UInt8 → Bool) (hp : ∀ c, Ends c → p c = false) :
    (w ++ s).head?.any p = w.head?.any p := by
  cases w with
  | nil      =>
    cases s with
    | nil      => rfl
    | cons c s => exact hp c (h c rfl)
  | cons _ _ => rfl

-- A word does not go on in what follows.
def Word (w : Text) : Bool → Prop
  | true  => ∀ c ∈ w, ¬ Ends c
  | false => w.all isalnum

theorem Word.not_short {xCase : Bool} {n : Text} (h : ∀ c ∈ s.head?, Ends c) (hw : Word w xCase) (hl : n.length < w.length) :
    ¬ (if xCase then (n ++ s).take w.length = w else sameIgnoringCase ((n ++ s).take w.length) w) := by
  cases s with
  | nil      =>
    intro he
    have hlen : ((n ++ []).take w.length).length = w.length := by
      cases xCase with
      | true  => exact congrArg _ he
      | false => exact length_of_same he
    rw [List.append_nil, List.length_take] at hlen
    omega
  | cons c s =>
    have hc := h c rfl
    cases xCase with
    | true  =>
      intro he
      have hm : c ∈ (n ++ c :: s).take w.length := by
        have ⟨k, hk⟩ : ∃ k, w.length - n.length = k + 1 := ⟨w.length - n.length - 1, by omega⟩
        rw [List.take_append, hk, List.take_succ_cons]
        exact List.mem_append_right _ (List.mem_cons_self ..)
      rw [if_pos rfl] at he
      exact hw c (he ▸ hm) hc
    | false => exact not_same_take hc.not_isalnum hw hl

theorem Extends.getWord {xCase : Bool} (h : Extends s t xb xb') (hp : Parted s t) (hw : Word w xCase) :
    Option.Rel (Extends s t) (xb.getWord w xCase) (xb'.getWord w xCase) := by
  have ⟨n, hs, ht⟩ := h.text
  by_cases hl : w.length ≤ n.length
  · have hd (s : Text) (h : ∀ c ∈ s.head?, Ends c) :
        ((n ++ s).drop w.length).head?.any isalnum = (n.drop w.length).head?.any isalnum := by
      rw [List.drop_append_of_le_length hl]
      exact head_parted h isalnum fun _ hc => hc.not_isalnum
    simp only [XmlBuffer.getWord, hs, ht, List.take_append_of_le_length hl, hd s hp.left, hd t hp.right]
    exact rel_ite (h.advance hs ht hl)
  · have hlt := Nat.lt_of_not_le hl
    simp only [XmlBuffer.getWord, hs, ht, hw.not_short hp.left hlt, hw.not_short hp.right hlt, false_and, if_false]
    exact .none

theorem isPrefixOf_parted (h : ∀ c ∈ s.head?, Ends c) (hc : ¬ Ends c) : [c].isPrefixOf (w ++ s) = [c].isPrefixOf w := by
  cases w with
  | nil      =>
    cases s with
    | nil      => rfl
    | cons d s =>
      have he : (c == d) = false := beq_eq_false_iff_ne.mpr fun he => hc (he ▸ h d rfl)
      simp [List.isPrefixOf, he]
  | cons _ _ => simp [List.isPrefixOf]

theorem Extends.getChar (h : Extends s t xb xb') (hp : Parted s t) (hc : ¬ Ends c) :
    Option.Rel (Extends s t) (xb.getChars [c]) (xb'.getChars [c]) := by
  have ⟨w, hs, ht⟩ := h.text
  simp only [XmlBuffer.getChars, hs, ht, isPrefixOf_parted hp.left hc, isPrefixOf_parted hp.right hc]
  split
  · have hw : [c] <+: w := List.isPrefixOf_iff_prefix.mp ‹_›
    exact .some (h.advance hs ht hw.length_le)
  · exact .none

-- A value that ends somewhere ends before what follows.
theorem value_parted {d : UInt8} (hd : d ∉ s) (h : ((w ++ s).takeWhile (· ≠ d)).length < (w ++ s).length) :
    (w.takeWhile (· ≠ d)).length < w.length := by
  rw [List.takeWhile_append] at h
  split at h
  · have hs : s.takeWhile (· ≠ d) = s := by
      rw [List.takeWhile_eq_self_iff]
      intro c hc
      have hne : c ≠ d := fun he => hd (he ▸ hc)
      simpa using hne
    rw [hs] at h
    exact absurd h (Nat.lt_irrefl _)
  · have hle : (w.takeWhile (· ≠ d)).length ≤ w.length := (List.takeWhile_prefix _).length_le
    exact Nat.lt_of_le_of_ne hle ‹_›

-- With the same value.
abbrev More (s t : Text) {α : Type} (p p' : α × XmlBuffer) : Prop :=
  p'.1 = p.1 ∧ p.2.Extends s t p'.2

theorem getValue_none (h : ∀ c ∈ xb.skipWS.rest.head?, Ends c) : xb.getValue = .ok (none, xb.skipWS) := by
  simp only [XmlBuffer.getValue]
  generalize xb.skipWS = ys at h
  cases hr : ys.rest with
  | nil      => rfl
  | cons c s =>
    rw [hr] at h
    obtain ⟨_, h34, h39, _⟩ := (h c rfl).ne
    simp [h34, h39, pure, Except.pure]

theorem Extends.getValue (h : Extends s t xb xb') (hp : Parted s t) : Continues (More s t) xb.getValue xb'.getValue := by
  have h := h.skipWS hp
  have ⟨w, hs, ht⟩ := h.text
  cases w with
  | nil           =>
    rw [getValue_none (hs.symm ▸ hp.left), getValue_none (ht.symm ▸ hp.right)]
    exact .pure ⟨rfl, h⟩
  | cons dlm rest =>
    simp only [XmlBuffer.getValue, hs, ht, List.cons_append]
    split
    · have hd : dlm ∉ s := by
        cases ‹dlm = 34 ∨ dlm = 39› with
        | inl hd => exact hd ▸ hp.quotes.left
        | inr hd => exact hd ▸ hp.quotes.right
      split
      · have hlt : (rest.takeWhile (· ≠ dlm)).length < rest.length := value_parted hd ‹_›
        have htake (t : Text) : (rest ++ t).takeWhile (· ≠ dlm) = rest.takeWhile (· ≠ dlm) := by
          rw [List.takeWhile_append]
          exact if_neg (Nat.ne_of_lt hlt)
        have hlt' : (rest.takeWhile (· ≠ dlm)).length < (rest ++ t).length := by
          rw [List.length_append]
          omega
        rw [htake, htake, if_pos hlt']
        refine .pure ⟨rfl, ⟨rest.drop ((rest.takeWhile (· ≠ dlm)).length + 1), ?_, ?_⟩, h.nulledChar, h.eTagFound⟩
        · exact List.drop_append_of_le_length hlt
        · exact List.drop_append_of_le_length hlt
      · exact .error
    · exact .pure ⟨rfl, h⟩

theorem Extends.attrOk (h : Extends s t xb xb') (hp : Parted s t) {as : List XmlAttr} (has : ∀ a ∈ as, a.name.all isalnum) :
    Continues (More s t) (xb.attrOk as) (xb'.attrOk as) := by
  induction as with
  | nil          => exact .error
  | cons a as hi =>
    obtain ⟨ha, has⟩ := List.forall_mem_cons.mp has
    have hw : Option.Rel (Extends s t) (if a.seen then none else xb.getWord a.name false)
        (if a.seen then none else xb'.getWord a.name false) := by
      split
      · exact .none
      · exact @Extends.getWord _ _ _ _ _ false h hp ha
    rw [XmlBuffer.attrOk, XmlBuffer.attrOk]
    generalize (if a.seen then none else xb.getWord a.name false) = w,
      (if a.seen then none else xb'.getWord a.name false) = w' at hw
    cases hw with
    | none   => exact (hi has).bind fun p p' hp => .pure ⟨by rw [hp.left], hp.right⟩
    | some h =>
      have h61 : ¬ Ends 61 := by rw [Ends]; decide
      have hg := (h.skipWS hp).getChar hp h61
      simp only
      generalize XmlBuffer.getChars [61] _ = w at hg ⊢
      generalize XmlBuffer.getChars [61] _ = w' at hg ⊢
      cases hg with
      | none   => exact .error
      | some h => exact (h.getValue hp).bind fun p p' hp => .pure ⟨by rw [hp.left], hp.right⟩

theorem attrOk_names {as as' : List XmlAttr} (h : xb.attrOk as = .ok (as', xb')) : as'.map (·.name) = as.map (·.name) := by
  induction as generalizing as' with
  | nil          => cases h
  | cons a as hi =>
    rw [XmlBuffer.attrOk] at h
    split at h
    · split at h
      · cases hv : XmlBuffer.getValue _ with
        | error e =>
          rw [hv] at h
          cases h
        | ok p    =>
          rw [hv] at h
          cases h
          rfl
      · cases h
    · cases ha : xb.attrOk as with
      | error e =>
        rw [ha] at h
        cases h
      | ok p    =>
        obtain ⟨as₁, xb₁⟩ := p
        rw [ha] at h
        cases h
        rw [List.map_cons, List.map_cons, hi ha]

theorem Extends.isalpha (h : Extends s t xb xb') (hp : Parted s t) : xb'.rest.head?.any isalpha = xb.rest.head?.any isalpha := by
  have ⟨w, hs, ht⟩ := h.text
  have ha (c : UInt8) (hc : Ends c) : Sfcc.isalpha c = false := by
    cases hc with
    | inl hc => rw [hc]; rfl
    | inr hc => rw [hc]; rfl
  rw [hs, ht, head_parted hp.left _ ha, head_parted hp.right _ ha]

theorem Extends.attributes (h : Extends s t xb xb') (hp : Parted s t) (n : ℕ) {as : List XmlAttr}
    (has : ∀ a ∈ as, a.name.all isalnum) : Continues (More s t) (xb.attributes n as) (xb'.attributes n as) := by
  induction n generalizing xb xb' as with
  | zero      =>
    have h := h.skipWS hp
    simp only [XmlBuffer.attributes, h.isalpha hp]
    split
    · exact .error
    · exact .pure ⟨rfl, h⟩
  | succ n hi =>
    have h := h.skipWS hp
    simp only [XmlBuffer.attributes, h.isalpha hp]
    split
    · intro b hb
      cases ha : xb.skipWS.attrOk as with
      | error e =>
        rw [ha] at hb
        cases hb
      | ok p    =>
        obtain ⟨as₁, xb₁⟩ := p
        obtain ⟨⟨as₁', xb₁'⟩, ha', he, hu⟩ := h.attrOk hp has _ ha
        replace he : as₁' = as₁ := he
        subst he
        have has₁ : ∀ a ∈ as₁', a.name.all isalnum := by
          have hn := attrOk_names ha
          intro a hm
          have hm : a.name ∈ as₁'.map (·.name) := List.mem_map_of_mem hm
          rw [hn] at hm
          obtain ⟨a', hm', he⟩ := List.mem_map.mp hm
          exact he ▸ has a' hm'
        rw [ha] at hb
        obtain ⟨b', hb', hu⟩ := hi hu has₁ b hb
        exact ⟨b', by rw [ha']; exact hb', hu⟩
    · exact .pure ⟨rfl, h⟩

end XmlBuffer

end Sfcc.Xml
