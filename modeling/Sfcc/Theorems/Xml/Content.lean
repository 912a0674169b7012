import Sfcc.Theorems.Xml.Lexer

-- The text of an element.
namespace Sfcc.Xml

def isBlank (b : UInt8) : Bool :=
  1 ≤ b ∧ b ≤ 32

-- A text without the blanks at both ends, and the blanks at its end.
def stripped (s : Text) : Text :=
  (s.dropWhile isBlank).rdropWhile isBlank

def trailing (s : Text) : Text :=
  s.rtakeWhile isBlank

section Frame

variable {p : UInt8 → Bool} {l u t : Text}

-- What is left of a text is cut out by all predicates that hold of what is around it.
theorem rdropWhile_framed (ht : ∀ c ∈ t, p c) (hu : ∀ c ∈ u.getLast?, p c = false) :
    (u ++ t).rdropWhile p = u := by
  have hr : ∀ c ∈ t.reverse, p c := fun c hc => ht c (List.mem_reverse.mp hc)
  rw [List.rdropWhile, List.reverse_append, List.dropWhile_append_of_pos hr]
  have hd : u.reverse.dropWhile p = u.reverse := by
    cases hx : u.reverse with
    | nil      => rfl
    | cons c v =>
      have hc := hu c (by rw [← List.head?_reverse, hx]; rfl)
      simp [hc]
  rw [hd, List.reverse_reverse]

theorem dropWhile_framed (hl : ∀ c ∈ l, p c) (ht : ∀ c ∈ t, p c) (hu : ∀ c ∈ u.head?, p c = false) :
    (l ++ u ++ t).dropWhile p = if u = [] then [] else u ++ t := by
  rw [List.append_assoc, List.dropWhile_append_of_pos hl]
  cases u with
  | nil      => simpa using ht
  | cons c u => simp [hu c rfl]

theorem trimmed_framed (hl : ∀ c ∈ l, p c) (ht : ∀ c ∈ t, p c) (hh : ∀ c ∈ u.head?, p c = false)
    (hu : ∀ c ∈ u.getLast?, p c = false) : ((l ++ u ++ t).dropWhile p).rdropWhile p = u := by
  rw [dropWhile_framed hl ht hh]
  split
  case isTrue h  => rw [h]; rfl
  case isFalse h => exact rdropWhile_framed ht hu

end Frame

-- What is cut off a text at both ends. If nothing is left, it all was at its end.
theorem exists_framing (p : UInt8 → Bool) (s : Text) : ∃ l u t, s = l ++ u ++ t ∧ (∀ c ∈ l, p c) ∧ (∀ c ∈ t, p c) ∧
    (∀ c ∈ u.head?, p c = false) ∧ (∀ c ∈ u.getLast?, p c = false) ∧ (u = [] → l = []) := by
  by_cases hs : ∀ c ∈ s, p c
  · exact ⟨[], [], s, rfl, nofun, hs, nofun, nofun, fun _ => rfl⟩
  · refine ⟨s.takeWhile p, (s.dropWhile p).rdropWhile p, (s.dropWhile p).rtakeWhile p, ?_, ?_, ?_, ?_, ?_, ?_⟩
    · rw [List.append_assoc, List.rdropWhile_append_rtakeWhile, List.takeWhile_append_dropWhile]
    · exact fun c hc => List.mem_takeWhile_imp hc
    · intro c hc
      exact List.mem_takeWhile_imp (List.mem_reverse.mp hc)
    · intro c hc
      have ⟨r, hr⟩ := List.rdropWhile_prefix p (s.dropWhile p)
      have hd : c ∈ (s.dropWhile p).head? := by
        rw [← hr, List.head?_append, show (List.rdropWhile p (s.dropWhile p)).head? = some c from hc]
        rfl
      have h := List.head?_dropWhile_not p s
      rw [show (s.dropWhile p).head? = some c from hd] at h
      simpa using h
    · intro c hc
      have hne : (s.dropWhile p).rdropWhile p ≠ [] := by
        intro h
        rw [h] at hc
        cases hc
      have h := List.rdropWhile_last_not p (s.dropWhile p) hne
      rw [List.getLast?_eq_some_getLast hne] at hc
      cases hc
      exact Bool.eq_false_iff.mpr h
    · intro h
      rw [List.rdropWhile_eq_nil_iff] at h
      have hn := List.head?_dropWhile_not p s
      exfalso
      apply hs
      rw [← List.dropWhile_eq_nil_iff]
      cases hd : s.dropWhile p with
      | nil      => rfl
      | cons c d =>
        rw [hd] at h hn
        have hc := h c (List.mem_cons_self ..)
        simp [hc] at hn

-- What `getContent` returns and overwrites, in front of a `<` and behind the `>` of a start tag.
structure ReadsContent (s b r : Text) (etag : Tok) (xb : XmlBuffer) : Prop where
  content : XmlBuffer.getContent ⟨62 :: b, s ++ 60 :: r, false, false, etag⟩ = .ok (some (stripped s), xb)
  before  : xb.before = (trailing s).map (fun _ => 0) ++ (s.rdropWhile isBlank).reverse ++ 62 :: b
  rest    : xb.rest = (if s = [] then 60 else 0) :: r
  resumes : (xb.nextTag).1 = some r ∧ (xb.nextTag).2.rest = xb.rest

-- The bytes at the ends of what is left are no part of a character of more than one byte.
def AsciiEnds (s : Text) : Prop :=
  (∀ c ∈ (stripped s).head?, c < 128) ∧ ∀ c ∈ (stripped s).getLast?, c < 128

theorem isWS_iff {c : UInt8} (hc : c ≠ 0) : isWS c = false ↔ isBlank c = false ∧ c < 128 := by
  simp only [isWS, isBlank, decide_eq_false_iff_not, UInt8.le_iff_toNat_le, UInt8.lt_iff_toNat_lt,
    ← UInt8.toNat_inj, ne_eq] at *
  simp at *
  omega

theorem nullWS_blank {w : Text} (hw : ∀ c ∈ w, c ≠ 0 ∧ isWS c) {c : UInt8} (hc : isWS c = false) (b : Text) :
    XmlBuffer.nullWS (w ++ c :: b) = .ok (w.map (fun _ => 0) ++ c :: b) := by
  induction w with
  | nil         => simp [XmlBuffer.nullWS, hc, pure, Except.pure]
  | cons d w hi =>
    obtain ⟨hd, hw⟩ := List.forall_mem_cons.mp hw
    rw [List.cons_append, XmlBuffer.nullWS, if_pos hd, hi hw]
    rfl

-- Every text is read by what a signed `char` makes of it.
theorem getContent_eq {l u t b r : Text} {etag : Tok} (h60 : 60 ∉ l ++ u ++ t) (h0 : 0 ∉ l ++ u ++ t)
    (hl : ∀ c ∈ l, isWS c) (ht : ∀ c ∈ t, isWS c) (hh : ∀ c ∈ u.head?, isWS c = false)
    (hu : ∀ c ∈ u.getLast?, isWS c = false) (hn : u = [] → l = []) :
    XmlBuffer.getContent ⟨62 :: b, l ++ u ++ t ++ 60 :: r, false, false, etag⟩ = .ok (some u,
      if l ++ u ++ t = [] then ⟨62 :: b, 60 :: r, false, false, etag⟩
      else ⟨t.map (fun _ => 0) ++ (l ++ u).reverse ++ 62 :: b, 0 :: r, true, false, etag⟩) := by
  have htake := @takeWhile_ne (l ++ u ++ t) r 60 h60
  have htrim : trimmed (l ++ u ++ t) = u := trimmed_framed hl ht hh hu
  by_cases hs : l ++ u ++ t = []
  · rw [hs] at htrim
    have hu : u = [] := htrim.symm
    rw [if_pos hs, hs, hu]
    simp [XmlBuffer.getContent, pure, Except.pure]
  · have ha := @XmlBuffer.advance_append (62 :: b) (60 :: r) (l ++ u ++ t) false false etag
    have htr : ∀ c ∈ t.reverse, c ≠ 0 ∧ isWS c := by
      intro c hc
      have hc := List.mem_reverse.mp hc
      exact ⟨fun he => h0 (he ▸ List.mem_append_right _ hc), ht c hc⟩
    have hnull : XmlBuffer.nullWS ((l ++ u ++ t).reverse ++ 62 :: b) =
        .ok (t.map (fun _ => 0) ++ (l ++ u).reverse ++ 62 :: b) := by
      rw [List.reverse_append, List.append_assoc]
      have hmap : t.reverse.map (fun _ => (0 : UInt8)) = t.map fun _ => 0 := by
        simp [List.map_const']
      cases hr : (l ++ u).reverse with
      | nil      =>
        have h := nullWS_blank htr (show isWS 62 = false by decide) b
        simpa [hmap] using h
      | cons c v =>
        have hc : isWS c = false := by
          cases u with
          | nil      =>
            rw [hn rfl] at hr
            cases hr
          | cons d u =>
            apply hu c
            rw [Option.mem_def, ← List.head?_reverse]
            rw [List.reverse_append] at hr
            cases hx : (d :: u).reverse with
            | nil      => simp at hx
            | cons e w =>
              rw [hx] at hr
              cases hr
              rfl
        have h := nullWS_blank htr hc (v ++ 62 :: b)
        simpa [hmap] using h
    rw [if_neg hs]
    simp only [XmlBuffer.getContent, ne_eq, decide_not, htake, hs, if_false, ha, hnull, htrim, bind, Except.bind]
    rfl

theorem ReadsContent.asciiEnds {s b r : Text} {etag : Tok} {xb : XmlBuffer} (h60 : 60 ∉ s) (h0 : 0 ∉ s)
    (h : ReadsContent s b r etag xb) : AsciiEnds s := by
  have ⟨l, u, t, hs, hl, ht, hh, hu, _⟩ := exists_framing isWS s
  have htrim : trimmed s = u := by
    rw [hs]
    exact trimmed_framed hl ht hh hu
  have hmem : ∀ c ∈ u, c ≠ 0 := by
    intro c hc he
    apply h0
    rw [hs, ← he]
    exact List.mem_append_left _ (List.mem_append_right _ hc)
  have ⟨b', hg⟩ := @getContent_append (62 :: b) r s etag h60 ⟨62, rfl, rfl⟩
  have he : trimmed s = stripped s := by
    have hc := hg.symm.trans h.content
    simp only [Except.ok.injEq, Prod.mk.injEq, Option.some.injEq] at hc
    exact hc.left
  rw [AsciiEnds, ← he, htrim]
  constructor
  · intro c hc
    exact ((isWS_iff (hmem c (List.mem_of_mem_head? hc))).mp (hh c hc)).right
  · intro c hc
    exact ((isWS_iff (hmem c (List.mem_of_getLast? hc))).mp (hu c hc)).right

-- A byte from 0x80 on is white space to the lexer.
theorem readsContent_iff {s : Text} (h60 : 60 ∉ s) (h0 : 0 ∉ s) (b r : Text) (etag : Tok) :
    (∃ xb, ReadsContent s b r etag xb) ↔ AsciiEnds s := by
  obtain ⟨l, u, t, hs, hl, ht, hh, hu, hn⟩ := exists_framing isBlank s
  have hstrip : stripped s = u := by
    rw [hs]
    exact trimmed_framed hl ht hh hu
  have hmem : ∀ c ∈ u, c ≠ 0 := by
    intro c hc he
    apply h0
    rw [hs, ← he]
    exact List.mem_append_left _ (List.mem_append_right _ hc)
  constructor
  · rintro ⟨xb, h⟩
    exact h.asciiEnds h60 h0
  · rintro ⟨hfirst, hlast⟩
    rw [hstrip] at hfirst hlast
    have hws {w : Text} (h : ∀ c ∈ w, isBlank c) : ∀ c ∈ w, isWS c := by
      intro c hc
      have hb := h c hc
      simp only [isBlank, isWS, decide_eq_true_eq] at *
      exact .inl hb.right
    have hh' : ∀ c ∈ u.head?, isWS c = false := fun c hc =>
      (isWS_iff (hmem c (List.mem_of_mem_head? hc))).mpr ⟨hh c hc, hfirst c hc⟩
    have hu' : ∀ c ∈ u.getLast?, isWS c = false := fun c hc =>
      (isWS_iff (hmem c (List.mem_of_getLast? hc))).mpr ⟨hu c hc, hlast c hc⟩
    have hkept : s.rdropWhile isBlank = l ++ u := by
      rw [hs]
      apply rdropWhile_framed ht
      cases u with
      | nil      => simp [hn rfl]
      | cons c u => simpa [List.getLast?_append] using hu
    have htrail : trailing s = t := by
      have h := @List.rdropWhile_append_rtakeWhile _ isBlank s
      rw [hkept] at h
      nth_rewrite 2 [hs] at h
      exact List.append_cancel_left h
    have hg := @getContent_eq l u t b r etag (hs ▸ h60) (hs ▸ h0) (hws hl) (hws ht) hh' hu' hn
    rw [← hs] at hg
    by_cases he : s = []
    · rw [if_pos he] at hg
      obtain ⟨hlu, ht₀⟩ := List.append_eq_nil_iff.mp (hs.symm.trans he)
      refine ⟨_, hg.trans (by rw [hstrip]), ?_, by simp [he], ?_⟩
      · rw [htrail, hkept, hlu, ht₀]
        rfl
      · exact ⟨rfl, rfl⟩
    · rw [if_neg he] at hg
      refine ⟨_, hg.trans (by rw [hstrip]), ?_, by simp [he], ?_⟩
      · rw [htrail, hkept]
      · exact ⟨rfl, rfl⟩

theorem readsContent_iff_word : (∃ xb, ReadsContent (bytes " a\n") [] [47] .none xb) ↔ AsciiEnds (bytes " a\n") :=
  readsContent_iff (by decide) (by decide) [] [47] .none

theorem not_readsContent_umlaut : ¬ ∀ s b r etag, 60 ∉ s → 0 ∉ s → ∃ xb, ReadsContent s b r etag xb := by
  intro h
  have ⟨xb, hr⟩ := h [195, 164] [] [47] .none (by decide) (by decide)
  have ha := hr.asciiEnds (by decide) (by decide)
  exact absurd (ha.left 195 rfl) (by decide)

end Sfcc.Xml
