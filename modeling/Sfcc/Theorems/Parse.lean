import Sfcc.Theorems.InBuf
import Sfcc.Theorems.Payload

-- What is read from the buffer byte by byte is what is read from its text.
namespace Sfcc.Listener

variable {t x h z pre rest hdr : Text} {s s' : Conn} {v v' : Buffer} {turns n : ℕ} {p : UInt8 → Bool}

theorem once_bind {α β : Type} (a : α) (f : α → Turns β) : (once (.ok a) >>= f) = f a :=
  rfl

theorem once_throw {α β : Type} (e : Fault) (f : α → Turns β) : (once (.error e) >>= f) = once (.error e) :=
  rfl

-- A connection whose buffer was read up to `rest`, with what it was read to.
structure Sim (s : Conn) (v : Buffer) (pre rest : Text) : Prop where
  holds          : s.buf.Holds (pre ++ rest)
  ptr            : s.buf.ptr = pre.length
  protocol       : s.protocol = none ∧ v.protocol = bytes "HTTP/1.1" ∨
    ∃ x y, s.protocol = some x.length ∧ pre = x ++ (v.protocol ++ 0 :: y) ∧ 0 ∉ v.protocol
  content_length : s.content_length = v.content_length
  discardInput   : s.discardInput = v.discardInput
  responses      : s.responses = v.responses

-- A text in the buffer with a NUL behind it.
theorem string_nul {b : InBuf} (hb : b.Holds (x ++ (h ++ 0 :: z))) (hn : 0 ∉ h) : b.string x.length = .ok h := by
  rw [InBuf.string_eq hb, InBuf.cstr_append, cstr_eq hn]

namespace Sim

theorem protocolText (hs : Sim s v pre rest) : s.protocolText = .ok v.protocol := by
  cases hs.protocol with
  | inl hp =>
    rw [Conn.protocolText, hp.left, hp.right]
    rfl
  | inr hp =>
    have ⟨x, y, he, hpre, hn⟩ := hp
    have hb := hs.holds
    rw [hpre, List.append_assoc, List.append_assoc] at hb
    rw [Conn.protocolText, he]
    exact string_nul hb hn

theorem genError (hs : Sim s v pre rest) (status : ℕ) :
    ∃ s', s.genError status = .ok s' ∧ Sim s' (v.genError status) pre rest ∧ s'.buf = s.buf := by
  refine ⟨{ s with responses := s.responses ++ [(v.protocol, status)] }, ?_, ?_, rfl⟩
  · rw [Conn.genError, hs.protocolText]
    rfl
  · exact { hs with responses := congrArg (· ++ _) hs.responses }

theorem refuse (hs : Sim s v pre rest) (status : ℕ) :
    ∃ s', s.refuse status = .ok s' ∧ Sim s' (v.refuse status) pre rest := by
  rw [Conn.refuse, Buffer.refuse, hs.discardInput]
  split
  · have ⟨s', h', hs', _⟩ := hs.genError status
    refine ⟨{ s' with discardInput := 2 }, ?_, { hs' with discardInput := rfl }⟩
    rw [h']
    rfl
  · exact ⟨s, rfl, hs⟩

end Sim

-- A header.

theorem drop_takeWhile (l : Text) : l.drop (l.takeWhile p).length = l.dropWhile p := by
  have he : l.takeWhile p ++ l.dropWhile p = l := List.takeWhile_append_dropWhile
  exact (congrArg _ he.symm).trans List.drop_left

theorem value_eq (hb : s.buf.Holds (x ++ (h ++ 0 :: z))) (hn : 0 ∉ h) (hl : n ≤ h.length) :
    s.value (x.length + n) = .ok ((h.drop n).dropWhile isBlank) := by
  have hstring {i : ℕ} (hi : i ≤ h.length) : s.buf.string (x.length + i) = .ok (h.drop i) := by
    have he : x ++ (h ++ 0 :: z) = (x ++ h.take i) ++ (h.drop i ++ 0 :: z) := by
      rw [List.append_assoc, ← List.append_assoc (h.take i), List.take_append_drop]
    have hlen : (x ++ h.take i).length = x.length + i := by
      rw [List.length_append, List.length_take_of_le hi]
    rw [he] at hb
    rw [← hlen]
    exact string_nul hb fun h0 => hn (List.mem_of_mem_drop h0)
  have hw := (List.takeWhile_prefix isBlank (l := h.drop n)).length_le
  rw [List.length_drop] at hw
  rw [Conn.value, hstring hl]
  simp only [bind, Except.bind]
  rw [Nat.add_assoc, hstring (by omega), ← List.drop_drop]
  exact congrArg _ (drop_takeWhile _)

theorem begins_length {lit : Text} (hb : begins lit h) : lit.length ≤ h.length := by
  have hl := congrArg List.length (sameIgnoringCase_iff.mp hb)
  simp only [Text.lower, List.length_map, List.length_take] at hl
  omega

-- No text begins with two texts that do not begin alike.
theorem begins_unlike {lit : Text} (lit' : Text) (k : ℕ) (hne : (Text.lower lit).take k ≠ (Text.lower lit').take k)
    (hk : k ≤ lit.length ∧ k ≤ lit'.length) (hb : begins lit h) : begins lit' h = false := by
  by_contra hb'
  have h₁ : Text.lower (h.take lit.length) = Text.lower lit := sameIgnoringCase_iff.mp hb
  rw [Bool.not_eq_false] at hb'
  have h₂ : Text.lower (h.take lit'.length) = Text.lower lit' := sameIgnoringCase_iff.mp hb'
  apply hne
  rw [← h₁, ← h₂]
  simp only [Text.lower, ← List.map_take, List.take_take]
  rw [Nat.min_eq_left hk.left, Nat.min_eq_left hk.right]

namespace Sim

-- A header is read where it begins.
theorem header (hs : Sim s v (x ++ (h ++ 0 :: z)) rest) (hn : 0 ∉ h) :
    ∃ s', s.header x.length = .ok s' ∧ Sim s' (v.header h) (x ++ (h ++ 0 :: z)) rest := by
  have hb := hs.holds
  rw [List.append_assoc, List.append_assoc] at hb
  have hvalue {lit : Text} (hlit : begins lit h) :
      s.value (x.length + lit.length) = .ok ((h.drop lit.length).dropWhile isBlank) :=
    value_eq hb hn (begins_length hlit)
  have hskip {lit : Text} (hlit : begins lit h) :
      (do let _ ← s.value (x.length + lit.length); return s) = (.ok s : Except Fault Conn) := by
    rw [hvalue hlit]
    rfl
  rw [Conn.header, string_nul hb hn, Buffer.header]
  simp only [bind, Except.bind] at hskip ⊢
  by_cases ha : begins (bytes "Authorization:") h
  · have hc := begins_unlike (bytes "Content-Length:") 1 (by decide) (by decide) ha
    have ho := begins_unlike (bytes "Host:") 1 (by decide) (by decide) ha
    have he := begins_unlike (bytes "Expect:") 1 (by decide) (by decide) ha
    simp only [ha, hc, ho, he, if_true, Bool.false_eq_true, if_false]
    exact ⟨s, hskip ha, hs⟩
  · rw [if_neg ha]
    by_cases hc : begins (bytes "Content-Length:") h
    · rw [if_pos hc, if_pos hc]
      have hv := hvalue hc
      refine ⟨{ s with content_length := Xml.atoi ((h.drop 15).dropWhile isBlank) }, ?_, { hs with content_length := rfl }⟩
      simp only [show 15 = (bytes "Content-Length:").length from rfl, hv]
      rfl
    · rw [if_neg hc, if_neg hc]
      by_cases ht : begins (bytes "Content-Type:") h
      · have ho := begins_unlike (bytes "Host:") 1 (by decide) (by decide) ht
        have he := begins_unlike (bytes "Expect:") 1 (by decide) (by decide) ht
        simp only [ht, ho, he, if_true, Bool.false_eq_true, if_false]
        exact ⟨s, hskip ht, hs⟩
      · rw [if_neg ht]
        by_cases ho : begins (bytes "Host:") h
        · rw [if_pos ho, if_pos ho]
          have hv := hvalue ho
          simp only [show 5 = (bytes "Host:").length from rfl, hv]
          split
          · exact hs.refuse 400
          · exact ⟨s, rfl, hs⟩
        · rw [if_neg ho, if_neg ho]
          by_cases hu : begins (bytes "User-Agent:") h
          · have he := begins_unlike (bytes "Expect:") 1 (by decide) (by decide) hu
            simp only [hu, he, if_true, Bool.false_eq_true, if_false]
            exact ⟨s, hskip hu, hs⟩
          · rw [if_neg hu]
            by_cases hte : begins (bytes "TE:") h
            · have he := begins_unlike (bytes "Expect:") 1 (by decide) (by decide) hte
              simp only [hte, he, if_true, Bool.false_eq_true, if_false]
              exact ⟨s, hskip hte, hs⟩
            · rw [if_neg hte]
              split
              · exact hs.refuse 417
              · exact ⟨s, rfl, hs⟩

end Sim

-- The next line.

theorem cut_first {p : UInt8 → Bool} (l : Text) :
    (∀ c ∈ l, p c = false) ∨ ∃ m c q, l = m ++ c :: q ∧ (∀ d ∈ m, p d = false) ∧ p c = true := by
  induction l with
  | nil       => exact .inl nofun
  | cons c l hi =>
    by_cases hc : p c
    · exact .inr ⟨[], c, l, rfl, nofun, hc⟩
    · rw [Bool.not_eq_true] at hc
      cases hi with
      | inl hl => exact .inl (List.forall_mem_cons.mpr ⟨hc, hl⟩)
      | inr hl =>
        have ⟨m, d, q, he, hm, hd⟩ := hl
        exact .inr ⟨c :: m, d, q, by rw [he]; rfl, List.forall_mem_cons.mpr ⟨hc, hm⟩, hd⟩

theorem dropWhile_none {p : UInt8 → Bool} {l : Text} (hl : ∀ c ∈ l, p c = false) :
    l.dropWhile (¬ p ·) = [] := by
  apply List.dropWhile_eq_nil_iff.mpr
  intro c hc
  simp [hl c hc]

theorem dropWhile_some {p : UInt8 → Bool} {m q : Text} {c : UInt8} (hm : ∀ d ∈ m, p d = false) (hc : p c = true) :
    (m ++ c :: q).dropWhile (¬ p ·) = c :: q ∧ (m ++ c :: q).takeWhile (¬ p ·) = m := by
  have hm' : ∀ d ∈ m, (¬ p d) = true := by
    intro d hd
    simp [hm d hd]
  constructor
  · rw [List.dropWhile_append_of_pos (by simpa using hm')]
    simp [hc]
  · rw [List.takeWhile_append_of_pos (by simpa using hm')]
    simp [hc]

-- Behind a text there is a NUL, whatever else.
theorem cstr_nul (l u : Text) : ∃ y, l ++ 0 :: u = cstr l ++ 0 :: y := by
  induction l with
  | nil       => exact ⟨u, rfl⟩
  | cons c l hi =>
    by_cases hc : c = 0
    · exact ⟨l ++ 0 :: u, by simp [cstr, hc]⟩
    · obtain ⟨y, hy⟩ := hi
      refine ⟨y, ?_⟩
      simp only [cstr] at hy
      simp [cstr, hc, hy]

theorem cstr_no_nul (l : Text) : 0 ∉ cstr l := by
  intro h
  simpa using List.mem_takeWhile_imp h

namespace Sim

-- What is read is read still.
theorem grow {y : Text} {buf : InBuf} (hs : Sim s v pre rest) (hb : buf.Holds ((pre ++ z) ++ y))
    (hp : buf.ptr = (pre ++ z).length) : Sim { s with buf } v (pre ++ z) y where
  holds          := hb
  ptr            := hp
  protocol       := by
    cases hs.protocol with
    | inl h => exact .inl h
    | inr h =>
      have ⟨x, w, he, hpre, hn⟩ := h
      exact .inr ⟨x, w ++ z, he, by simp [hpre], hn⟩
  content_length := hs.content_length
  discardInput   := hs.discardInput
  responses      := hs.responses

theorem nextHdr_none (hs : Sim s v pre rest) (h : getNextHdr rest = none) :
    ∃ buf, s.buf.getNextHdr = .ok (none, buf) ∧ Sim { s with buf } v (pre ++ rest) [] := by
  have hl : ∀ c ∈ rest, isEol c = false := by
    cases cut_first rest with
    | inl hl => exact hl
    | inr hl =>
      have ⟨m, c, q, he, hm, hc⟩ := hl
      rw [he, getNextHdr, (dropWhile_some hm hc).left] at h
      cases h
  refine ⟨_, InBuf.nextHdr_none hs.holds hs.ptr hl, hs.grow ?_ rfl⟩
  rw [List.append_nil]
  exact ⟨hs.holds.length, hs.holds.cells⟩

theorem nextHdr_some {rest' : Text} (hs : Sim s v pre rest) (h : getNextHdr rest = some (hdr, rest')) :
    ∃ buf y, s.buf.getNextHdr = .ok (some pre.length, buf) ∧ 0 ∉ hdr ∧
      Sim { s with buf } v (pre ++ (hdr ++ 0 :: y)) rest' := by
  cases cut_first rest with
  | inl hl =>
    rw [getNextHdr, dropWhile_none hl] at h
    cases h
  | inr hl =>
    obtain ⟨m, c, q, he, hm, hc⟩ := hl
    have hd := dropWhile_some (q := q) hm hc
    rw [he, getNextHdr, hd.left, hd.right] at h
    obtain ⟨hhdr, hrest⟩ := Prod.mk.inj (Option.some.inj h)
    have hb := hs.holds
    rw [he] at hb
    obtain ⟨buf, hn, hh, hp⟩ := InBuf.nextHdr_some (i := pre.length) hb hs.ptr hm hc
    obtain ⟨y, hy⟩ : ∃ y, m ++ (InBuf.cut c q).1 = hdr ++ 0 :: y := by
      rw [← hhdr, InBuf.cut]
      split
      · exact cstr_nul m [0]
      · exact cstr_nul m []
    have hr : (InBuf.cut c q).2 = rest' := by
      rw [← hrest, InBuf.cut]
      split <;> rfl
    rw [hy, hr] at hh
    rw [hy] at hp
    refine ⟨buf, y, ?_, hhdr ▸ cstr_no_nul m, hs.grow hh hp⟩
    rw [InBuf.getNextHdr, hs.ptr, hn]

-- The headers are read in as many turns as there are bytes.
theorem headerLoop (hs : Sim s v pre rest) (ht : rest.length < turns) :
    ∃ s' pre', Conn.headerLoop turns s = once (.ok s') ∧ Sim s' (readLines v rest).1 pre' (readLines v rest).2 := by
  induction turns generalizing s v pre rest with
  | zero          => exact absurd ht (Nat.not_lt_zero _)
  | succ turns hi =>
    rw [Conn.headerLoop, readLines]
    split
    · have ⟨buf, hn, hs'⟩ := hs.nextHdr_none ‹_›
      rw [hn]
      exact ⟨_, _, rfl, hs'⟩
    · rename_i hdr rest' hg
      have ⟨buf, y, hn, h0, hs'⟩ := hs.nextHdr_some hg
      have hb := hs'.holds
      rw [List.append_assoc, List.append_assoc] at hb
      rw [hn]
      simp only [once_bind]
      cases hdr with
      | nil        =>
        rw [InBuf.get_eq hb, once_bind]
        exact ⟨_, _, rfl, hs'⟩
      | cons c hdr =>
        have hc : c ≠ 0 := fun hc => h0 (hc ▸ List.mem_cons_self ..)
        have hlt := getNextHdr_length_lt hg
        have ⟨s₁, hh, hs₁⟩ := hs'.header h0
        rw [List.cons_append, List.cons_append] at hb
        rw [InBuf.get_eq hb, once_bind, if_neg hc, if_neg (List.cons_ne_nil c hdr), hh, once_bind]
        exact hi hs₁ (by omega)

end Sim

-- The request line.

theorem findIdx_none {p : UInt8 → Bool} {l : Text} (hl : ∀ c ∈ l, p c = false) : l.findIdx? p = none :=
  List.findIdx?_eq_none_iff.mpr hl

theorem findIdx_some {p : UInt8 → Bool} {m q : Text} {c : UInt8} (hm : ∀ d ∈ m, p d = false) (hc : p c = true) :
    (m ++ c :: q).findIdx? p = some m.length := by
  simp [List.findIdx?_append, findIdx_none hm, List.findIdx?_cons, hc]

theorem requestLine_eq (h : Text) : v.requestLine h =
    match h.dropWhile (¬ isSeparator ·) with
    | []        => some v
    | _ :: path => match (path.dropWhile isSeparator).dropWhile (¬ isSeparator ·) with
      | []            => none
      | _ :: protocol => some { v with protocol } := by
  simp only [Buffer.requestLine, isSeparator, decide_eq_true_eq]
  rfl

-- A word is cut off where it ends.
theorem word_cut {b : InBuf} {m q : Text} {c : UInt8} (hb : b.Holds (x ++ (m ++ c :: q ++ 0 :: z)))
    (hn : 0 ∉ m ++ c :: q) (hm : ∀ d ∈ m, isSeparator d = false) (hc : isSeparator c = true) :
    ∃ b', b.string x.length = .ok (m ++ c :: q) ∧ (m ++ c :: q).findIdx? isSeparator = some m.length ∧
      b.set (x.length + m.length) 0 = .ok b' ∧ b'.ptr = b.ptr ∧ b'.Holds (x ++ (m ++ [0]) ++ (q ++ 0 :: z)) := by
  have hs := string_nul hb hn
  have he : x ++ (m ++ c :: q ++ 0 :: z) = (x ++ m) ++ c :: (q ++ 0 :: z) := by simp
  rw [he] at hb
  have ⟨b', hset, hb', hp⟩ := InBuf.set_eq hb 0
  have he' : (x ++ m) ++ 0 :: (q ++ 0 :: z) = x ++ (m ++ [0]) ++ (q ++ 0 :: z) := by simp
  rw [he'] at hb'
  rw [List.length_append] at hset
  exact ⟨b', hs, findIdx_some hm hc, hset, hp, hb'⟩

namespace Sim

-- A word alone ends the loop.
theorem lineTurn_last (hs : Sim s v (x ++ (h ++ 0 :: z)) rest) (hn : 0 ∉ h) (hl : ∀ c ∈ h, isSeparator c = false) :
    s.lineTurn x.length = .ok (false, s) ∧ v.requestLine h = some v := by
  have hb : s.buf.Holds (x ++ (h ++ 0 :: (z ++ rest))) := by simpa using hs.holds
  rw [Conn.lineTurn, string_nul hb hn, requestLine_eq, dropWhile_none hl]
  simp only [bind, Except.bind, findIdx_none hl]
  exact ⟨rfl, trivial⟩

-- Of two words or more the first one is left, when there is something behind the second one.
theorem lineTurn_next {m q : Text} {c : UInt8} (hs : Sim s v (x ++ (h ++ 0 :: z)) rest) (hn : 0 ∉ h)
    (he : h = m ++ c :: q) (hm : ∀ d ∈ m, isSeparator d = false) (hc : isSeparator c = true) :
    s.lineTurn x.length = .error .null ∧ v.requestLine h = none ∨
    ∃ s' v' m z', s.lineTurn x.length = .ok (true, s') ∧ v.requestLine h = some v' ∧
      (∀ c ∈ m, isSeparator c = false) ∧ 0 ∉ m ∧ Sim s' v' (x ++ (m ++ 0 :: z')) rest := by
  have hb : s.buf.Holds (x ++ (h ++ 0 :: (z ++ rest))) := by simpa using hs.holds
  rw [Conn.lineTurn, string_nul hb hn, requestLine_eq]
  simp only [bind, Except.bind]
  rw [he] at hb hn ⊢
  have ⟨b, _, hfind, hset, hptr, hb₁⟩ := word_cut hb hn hm hc
  have hq : 0 ∉ q := fun h0 => hn (List.mem_append_right _ (List.mem_cons_of_mem _ h0))
  have hpath : x.length + m.length + 1 = (x ++ (m ++ [0])).length := by simp [Nat.add_assoc]
  have hg : (x ++ (m ++ [0])).length + (q.takeWhile isSeparator).length =
      (x ++ (m ++ [0]) ++ q.takeWhile isSeparator).length := (List.length_append ..).symm
  have hskip : x ++ (m ++ [0]) ++ (q ++ 0 :: (z ++ rest)) =
      x ++ (m ++ [0]) ++ q.takeWhile isSeparator ++ (q.dropWhile isSeparator ++ 0 :: (z ++ rest)) := by
    rw [List.append_assoc (x ++ (m ++ [0])), ← List.append_assoc (q.takeWhile isSeparator),
      List.takeWhile_append_dropWhile]
  have hw : 0 ∉ q.dropWhile isSeparator := fun h0 => hq ((List.dropWhile_sublist _).subset h0)
  have hstring := string_nul hb₁ hq
  rw [hskip] at hb₁
  rw [(dropWhile_some hm hc).left, hfind]
  simp only [hset, hpath, hstring, hg]
  rw [string_nul hb₁ hw]
  cases cut_first (p := isSeparator) (q.dropWhile isSeparator) with
  | inl hl =>
    simp only [findIdx_none hl, dropWhile_none hl]
    exact .inl ⟨rfl, trivial⟩
  | inr hl =>
    have ⟨p, d, r, he', hp, hd⟩ := hl
    rw [he'] at hb₁ hw ⊢
    have ⟨b', _, hfind', hset', hptr', hb₂⟩ := word_cut hb₁ hw hp hd
    have hr : 0 ∉ r := fun h0 => hw (List.mem_append_right _ (List.mem_cons_of_mem _ h0))
    have hm0 : 0 ∉ m := fun h0 => hn (List.mem_append_left _ h0)
    simp only [(dropWhile_some hp hd).left, hfind', hset']
    refine .inr ⟨_, _, m, q.takeWhile isSeparator ++ (p ++ [0] ++ (r ++ 0 :: z)), rfl, rfl, hm, hm0, ?_⟩
    have hpre : x ++ (m ++ [0]) ++ q.takeWhile isSeparator ++ (p ++ [0]) ++ (r ++ 0 :: (z ++ rest)) =
        x ++ (m ++ 0 :: (q.takeWhile isSeparator ++ (p ++ [0] ++ (r ++ 0 :: z)))) ++ rest := by
      simp
    constructor
    · exact hpre ▸ hb₂
    · have hq' := congrArg List.length (q.takeWhile_append_dropWhile (p := isSeparator))
      rw [hptr', hptr, hs.ptr, he]
      rw [he'] at hq'
      simp only [List.length_append, List.length_cons, List.length_nil] at hq' ⊢
      omega
    · refine .inr ⟨x ++ (m ++ [0]) ++ q.takeWhile isSeparator ++ (p ++ [0]), z, ?_, ?_, hr⟩
      · apply congrArg some
        simp only [List.length_append, List.length_cons, List.length_nil]
        omega
      · simp
    · exact hs.content_length
    · exact hs.discardInput
    · exact hs.responses

-- The loop ends with its second turn.
theorem lineLoop (hs : Sim s v (x ++ (h ++ 0 :: z)) rest) (hn : 0 ∉ h) :
    (v.requestLine h = none ∧ ∀ turns, Conn.lineLoop (turns + 1) x.length s = once (.error .null)) ∨
    ∃ s' v' pre, v.requestLine h = some v' ∧ Sim s' v' pre rest ∧
      ∀ turns, Conn.lineLoop (turns + 2) x.length s = once (.ok s') := by
  cases cut_first (p := isSeparator) h with
  | inl hl =>
    have ⟨ht, hv⟩ := hs.lineTurn_last hn hl
    refine .inr ⟨s, v, _, hv, hs, ?_⟩
    intro turns
    rw [Conn.lineLoop, ht]
    rfl
  | inr hl =>
    have ⟨m, c, q, he, hm, hc⟩ := hl
    cases hs.lineTurn_next hn he hm hc with
    | inl h =>
      refine .inl ⟨h.right, ?_⟩
      intro turns
      rw [Conn.lineLoop, h.left]
      rfl
    | inr h =>
      have ⟨s', v', m, z', ht, hv, hm, h0, hs'⟩ := h
      have ht' := (hs'.lineTurn_last h0 hm).left
      refine .inr ⟨s', v', _, hv, hs', ?_⟩
      intro turns
      rw [Conn.lineLoop, ht, once_bind]
      simp only
      rw [Conn.lineLoop, ht']
      rfl

end Sim

-- The whole of it.

-- What the first responses leave.
def started (rc : ℕ) : Buffer :=
  let b : Buffer := {}
  let b := if rc = 1 then { b.genError 501 with discardInput := 1 } else b
  if rc = 2 then { b.genError 400 with discardInput := 2 } else b

theorem Sim.started {buf : InBuf} (h : buf.Holds t) (hp : buf.ptr = 0) (rc : ℕ) :
    ∃ s, Sim s (started rc) [] t ∧ s.buf = buf ∧ ∀ turns, Conn.parse turns rc buf = (do
      let (httpHdr, buf) ← once buf.getNextHdr
      let s ← httpHdr.elim (pure { s with buf }) (Conn.lineLoop turns · { s with buf })
      let s ← Conn.headerLoop turns s
      if s.content_length < 0 then once (s.refuse 411) else return s) := by
  have hs : Sim { buf } {} [] t := ⟨h, hp, .inl ⟨rfl, rfl⟩, rfl, rfl, rfl⟩
  have ⟨s₁, h₁, hs₁, hb₁⟩ := hs.genError 501
  have ⟨s₂, h₂, hs₂, hb₂⟩ := hs.genError 400
  by_cases hr₁ : rc = 1
  · have hr₂ : ¬ rc = 2 := by omega
    refine ⟨{ s₁ with discardInput := 1 }, ?_, hb₁, ?_⟩
    · rw [Listener.started, if_pos hr₁, if_neg hr₂]
      exact { hs₁ with discardInput := rfl }
    · intro turns
      simp only [Conn.parse, if_pos hr₁, if_neg hr₂, h₁, once_bind, pure_bind, hb₁]
  · by_cases hr₂ : rc = 2
    · refine ⟨{ s₂ with discardInput := 2 }, ?_, hb₂, ?_⟩
      · rw [Listener.started, if_neg hr₁, if_pos hr₂]
        exact { hs₂ with discardInput := rfl }
      · intro turns
        simp only [Conn.parse, if_neg hr₁, if_pos hr₂, h₂, once_bind, pure_bind, hb₂]
    · refine ⟨{ buf }, ?_, rfl, ?_⟩
      · rwa [Listener.started, if_neg hr₁, if_neg hr₂]
      · intro turns
        simp only [Conn.parse, if_neg hr₁, if_neg hr₂, pure_bind]

-- The test of the length.
def Buffer.lengthRequired (v : Buffer) : Buffer :=
  if v.content_length < 0 then v.refuse 411 else v

theorem Sim.lengthRequired (hs : Sim s v pre rest) :
    ∃ s', (if s.content_length < 0 then once (s.refuse 411) else pure s) = once (.ok s') ∧ Sim s' v.lengthRequired pre rest := by
  rw [Buffer.lengthRequired, hs.content_length]
  split
  · have ⟨s', h, hs'⟩ := hs.refuse 411
    exact ⟨s', by rw [h], hs'⟩
  · exact ⟨s, rfl, hs⟩

-- The first line of the data, and what follows it.
def firstLine (t : Text) : Text × Text :=
  (getNextHdr t).getD ([], [])

theorem parse_eq {buf : InBuf} (h : buf.Holds t) (hp : buf.ptr = 0) (rc : ℕ) :
    ((started rc).requestLine (firstLine t).1 = none ∧
      ∀ turns, Conn.parse (turns + 1) rc buf = once (.error .null)) ∨
    ∃ v, (started rc).requestLine (firstLine t).1 = some v ∧
      ∀ turns, t.length + 2 ≤ turns → ∃ s pre, Conn.parse turns rc buf = once (.ok s) ∧
        Sim s (readLines v (firstLine t).2).1.lengthRequired pre (readLines v (firstLine t).2).2 := by
  have ⟨s, hs, hbuf, hparse⟩ := Sim.started h hp rc
  rw [firstLine]
  cases hg : getNextHdr t with
  | none   =>
    have ⟨b, hn, hs'⟩ := hs.nextHdr_none hg
    rw [hbuf] at hn
    refine .inr ⟨started rc, rfl, ?_⟩
    intro turns ht
    have hlt : ([] : Text).length < turns := by
      rw [List.length_nil]
      omega
    have ⟨s₁, pre, hh, hs₁⟩ := hs'.headerLoop hlt
    have ⟨s₂, hl, hs₂⟩ := hs₁.lengthRequired
    refine ⟨s₂, pre, ?_, hs₂⟩
    rw [hparse, hn, once_bind]
    simp only [Option.elim_none, pure_bind, hh, once_bind, hl]
  | some l =>
    have ⟨b, y, hn, h0, hs'⟩ := hs.nextHdr_some hg
    have hlt := getNextHdr_length_lt hg
    rw [hbuf] at hn
    rw [List.nil_append] at hs'
    cases Sim.lineLoop (x := []) hs' h0 with
    | inl hl =>
      refine .inl ⟨hl.left, ?_⟩
      intro turns
      rw [hparse, hn, once_bind]
      simp only [Option.elim_some, hl.right, once_throw]
    | inr hl =>
      have ⟨s₁, v, pre, hv, hs₁, hline⟩ := hl
      refine .inr ⟨v, hv, ?_⟩
      intro turns ht
      have ⟨s₂, pre, hh, hs₂⟩ := hs₁.headerLoop (by omega : l.2.length < turns)
      have ⟨s₃, hlen, hs₃⟩ := hs₂.lengthRequired
      refine ⟨s₃, pre, ?_, hs₃⟩
      have ⟨k, hk⟩ : ∃ k, turns = k + 2 := ⟨turns - 2, by omega⟩
      rw [hparse, hn, once_bind]
      simp only [Option.elim_some, hk, hline, once_bind]
      simp only [← hk, hh, once_bind, hlen]

-- What is left for `getPayload` was read byte by byte.
theorem parse_payload {stale data : Text} {conn conn' conn'' : List Text} {rc : ℕ} {buf : InBuf} {b : Buffer}
    (hg : getHdrs stale conn (bytes "POST ") = (rc, t, conn')) (h : buf.Holds t) (hp : buf.ptr = 0)
    (hb : beforePayload stale conn = some (b, data, conn'')) (ht : t.length + 2 ≤ turns) :
    ∃ s pre, Conn.parse turns rc buf = once (.ok s) ∧ Sim s b pre data := by
  rw [beforePayload, hg] at hb
  simp only at hb
  split at hb
  · cases hb
  · split at hb
    · cases hb
    · rename_i v hv
      cases parse_eq h hp rc with
      | inl h =>
        rw [started, firstLine] at h
        simp only [hv] at h
        cases h.left
      | inr h =>
        obtain ⟨v', hv', hs⟩ := h
        rw [started, firstLine] at hv'
        simp only [hv] at hv'
        cases hv'
        obtain ⟨s, pre, hparse, hsim⟩ := hs turns ht
        split at hb
        · cases hb
        · rename_i hc
          cases hb
          rw [Buffer.lengthRequired, firstLine, if_neg hc] at hsim
          exact ⟨s, pre, hparse, hsim⟩

-- Where it breaks.

-- It ends, on a connection that is there still.
def Safe (rc : ℕ) (buf : InBuf) : Prop :=
  ∃ n, ∀ turns, n ≤ turns → ∃ s, Conn.parse turns rc buf = once (.ok s)

-- A word, and not the first one, has blanks behind it, if there are blanks at all.
def Framed (hdr : Text) : Prop :=
  true ∈ hdr.map isSeparator → [true, false, true].Sublist (hdr.map isSeparator)

instance (hdr : Text) : Decidable (Framed hdr) :=
  inferInstanceAs (Decidable (_ → _))

-- What is unlike the first one is skipped.
theorem sublist_skip {a : Bool} {as m l : List Bool} (hm : ∀ b ∈ m, b ≠ a) :
    (a :: as).Sublist (m ++ l) ↔ (a :: as).Sublist l := by
  induction m with
  | nil       => rfl
  | cons b m hi =>
    have ⟨hb, hm⟩ := List.forall_mem_cons.mp hm
    rw [List.cons_append, List.cons_sublist_cons', hi hm]
    simp [Ne.symm hb]

theorem word_sublist (q : Text) : [false, true].Sublist (q.map isSeparator) ↔
    ∃ c ∈ q.dropWhile isSeparator, isSeparator c := by
  have hq : q.map isSeparator = (q.takeWhile isSeparator).map isSeparator ++ (q.dropWhile isSeparator).map isSeparator := by
    rw [← List.map_append, List.takeWhile_append_dropWhile]
  have hm : ∀ b ∈ (q.takeWhile isSeparator).map isSeparator, b ≠ false := by
    intro b hb
    have ⟨c, hc, he⟩ := List.mem_map.mp hb
    rw [← he, List.mem_takeWhile_imp hc]
    decide
  have htrue (l : Text) : [true].Sublist (l.map isSeparator) ↔ ∃ c ∈ l, isSeparator c := by
    rw [List.singleton_sublist, List.mem_map]
  rw [hq, sublist_skip hm]
  cases hw : q.dropWhile isSeparator with
  | nil      => simp
  | cons d w =>
    have hd : isSeparator d = false := by
      have := List.head?_dropWhile_not isSeparator q
      rw [hw] at this
      simpa using this
    rw [List.map_cons, hd, List.cons_sublist_cons', htrue]
    constructor
    · intro h
      cases h with
      | inl h =>
        have ⟨c, hc, hs⟩ := (htrue w).mp ((List.sublist_cons_self ..).trans h)
        exact ⟨c, List.mem_cons_of_mem _ hc, hs⟩
      | inr h =>
        have ⟨c, hc, hs⟩ := h.right
        exact ⟨c, List.mem_cons_of_mem _ hc, hs⟩
    · intro ⟨c, hc, hs⟩
      cases List.mem_cons.mp hc with
      | inl he => simp [he, hd] at hs
      | inr hc => exact .inr ⟨rfl, c, hc, hs⟩

theorem requestLine_eq_none_iff : v.requestLine h = none ↔ ¬ Framed h := by
  rw [requestLine_eq]
  cases cut_first (p := isSeparator) h with
  | inl hl =>
    have hm : true ∉ h.map isSeparator := by simpa using hl
    rw [dropWhile_none hl]
    simp [Framed, hm]
  | inr hl =>
    have ⟨m, c, q, he, hm, hc⟩ := hl
    have hm' : ∀ b ∈ m.map isSeparator, b ≠ true := by simpa using hm
    have hf : Framed h ↔ ∃ c ∈ q.dropWhile isSeparator, isSeparator c := by
      have ht : true ∈ h.map isSeparator := by simp [he, hc]
      rw [Framed, imp_iff_right ht, he, List.map_append, List.map_cons, hc, sublist_skip hm', ← word_sublist]
      exact List.cons_sublist_cons
    rw [he, (dropWhile_some hm hc).left, ← he, hf]
    simp only
    cases cut_first (p := isSeparator) (q.dropWhile isSeparator) with
    | inl hl =>
      rw [dropWhile_none hl]
      simpa using hl
    | inr hl =>
      have ⟨p, d, r, he', hp, hd⟩ := hl
      have hex : ∃ c ∈ p ++ d :: r, isSeparator c := ⟨d, by simp, hd⟩
      rw [he', (dropWhile_some hp hd).left]
      simpa using hex

theorem framed_firstLine_iff : Framed (firstLine t).1 ↔
    ((∃ c ∈ t, isEol c) → Framed (cstr (t.takeWhile (¬ isEol ·)))) := by
  rw [firstLine, getNextHdr]
  cases cut_first (p := isEol) t with
  | inl hl =>
    have hne : ¬ ∃ c ∈ t, isEol c := by simpa using hl
    rw [dropWhile_none hl]
    simp only [hne, false_implies, iff_true]
    exact fun hm => absurd hm List.not_mem_nil
  | inr hl =>
    obtain ⟨m, c, q, he, hm, hc⟩ := hl
    have hex : ∃ c ∈ t, isEol c := ⟨c, by simp [he], hc⟩
    rw [imp_iff_right hex, he, (dropWhile_some hm hc).left]
    rfl

theorem safe_iff {buf : InBuf} (h : buf.Holds t) (hp : buf.ptr = 0) (rc : ℕ) : Safe rc buf ↔ Framed (firstLine t).1 := by
  cases parse_eq h hp rc with
  | inl h =>
    have hn := requestLine_eq_none_iff.mp h.left
    constructor
    · intro ⟨n, hs⟩
      have ⟨s, he⟩ := hs (n + 1) (Nat.le_succ n)
      rw [h.right n] at he
      cases he
    · intro hf
      exact absurd hf hn
  | inr h =>
    have ⟨v, hv, hs⟩ := h
    have hf : Framed (firstLine t).1 := by
      by_contra hn
      rw [requestLine_eq_none_iff.mpr hn] at hv
      cases hv
    refine iff_of_true ⟨t.length + 2, ?_⟩ hf
    intro turns ht
    have ⟨s, _, he, _⟩ := hs turns ht
    exact ⟨s, he⟩

section Parse

variable {stale data : Text} {conn conn' : List Text} {rc : ℕ}

theorem built (blocks : List Text) (hg : getHdrs stale conn (bytes "POST ") = (rc, data, conn')) (hne : data ≠ [])
    (hb : blocks.flatten = data) : ∃ buf, blocks.foldlM InBuf.add2buffer {} = .ok buf ∧ buf.Holds data ∧ buf.ptr = 0 := by
  have hl := getHdrs_length stale conn (bytes "POST ")
  have hs : hdrLimmit + hdrBufsize = 10000 := rfl
  have hblocks : blocks ≠ [] := by
    intro he
    rw [he] at hb
    exact hne hb.symm
  rw [hg, ← hb] at hl
  have hgrows : InBuf.Grows 0 0 blocks := InBuf.grows_short (by simp only at hl; omega)
  have ⟨buf, h, hh, hp⟩ := (InBuf.add2buffer_iff blocks).mpr ⟨hblocks, hgrows⟩
  exact ⟨buf, h, hb ▸ hh, hp⟩

-- What was received is read safely if the first line is one word, or has blanks behind the word that
-- follows it.
theorem parse_safe_iff {blocks : List Text} (hg : getHdrs stale conn (bytes "POST ") = (rc, data, conn'))
    (hne : data ≠ []) (hb : blocks.flatten = data) :
    ∃ buf, blocks.foldlM InBuf.add2buffer {} = .ok buf ∧
      (Safe rc buf ↔ ((∃ c ∈ data, isEol c) → Framed (cstr (data.takeWhile (¬ isEol ·))))) := by
  have ⟨buf, h, hh, hp⟩ := built blocks hg hne hb
  exact ⟨buf, h, (safe_iff hh hp rc).trans framed_firstLine_iff⟩

theorem parse_safe_iff_root : ∃ buf, [bytes "POST / HTTP/1.1\r\n\r\n"].foldlM InBuf.add2buffer {} = .ok buf ∧
    (Safe 0 buf ↔ ((∃ c ∈ bytes "POST / HTTP/1.1\r\n\r\n", isEol c) →
      Framed (cstr ((bytes "POST / HTTP/1.1\r\n\r\n").takeWhile (¬ isEol ·))))) :=
  have hg : getHdrs [] [bytes "POST / HTTP/1.1\r\n\r\n"] (bytes "POST ") = (0, bytes "POST / HTTP/1.1\r\n\r\n", []) :=
    getHdrs_whole [] (by decide) (by decide) (by decide) (by decide) (by decide)
  parse_safe_iff hg (by decide) rfl

-- There is no protocol.
theorem not_safe_path : ¬ ∀ (stale : Text) (conn : List Text) (rc : ℕ) (data : Text) (conn' blocks : List Text),
    getHdrs stale conn (bytes "POST ") = (rc, data, conn') → rc ≤ 1 → data ≠ [] → blocks.flatten = data →
      ∃ buf, blocks.foldlM InBuf.add2buffer {} = .ok buf ∧ Safe rc buf := by
  intro h
  have hg : getHdrs [] [bytes "POST /\r\n\r\n"] (bytes "POST ") = (0, bytes "POST /\r\n\r\n", []) :=
    getHdrs_whole [] (by decide) (by decide) (by decide) (by decide) (by decide)
  have hne : bytes "POST /\r\n\r\n" ≠ [] := by decide
  have ⟨buf, hb, hs⟩ := h _ _ _ _ _ [bytes "POST /\r\n\r\n"] hg (by decide) hne rfl
  have ⟨buf', hb', hh, hp⟩ := built [bytes "POST /\r\n\r\n"] hg hne rfl
  cases hb.symm.trans hb'
  exact absurd ((safe_iff hh hp 0).mp hs) (by decide)

end Parse
end Sfcc.Listener
