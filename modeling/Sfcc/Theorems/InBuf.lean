import Mathlib.Data.List.Forall2
import Sfcc.InBuf
import Sfcc.Theorems.Listener

namespace Sfcc.Listener

variable {data data' : List (Option UInt8)} {size i : ℕ} {t str : Text} {b b' : InBuf}

theorem realloc_eq (h : size < 2 ^ 31) (data : List (Option UInt8)) :
    realloc data size = .ok (Cells.resize data size) := by
  have hm : size % 2 ^ 32 = size := Nat.mod_eq_of_lt (by omega)
  rw [realloc, hm, if_pos h]
  rfl

theorem store_eq (h : Cells.store data i t = some data') : store data i t = .ok data' := by
  rw [store, h]
  rfl

namespace InBuf

-- The bytes of the buffer, with a NUL behind them.
structure Holds (b : InBuf) (t : Text) : Prop where
  length : b.length = t.length
  cells  : Cells.Holds b.data (t ++ [0])

-- Adding blocks.

theorem store_end (h : Cells.Holds data t) (hl : (t ++ str ++ [0]).length ≤ data.length) :
    ∃ data₁ data', store data t.length str = .ok data₁ ∧ store data₁ (t.length + str.length) [0] = .ok data' ∧
      Cells.Holds data' (t ++ str ++ [0]) ∧ data'.length = data.length := by
  have hl₁ : (t ++ str).length ≤ data.length := by
    rw [List.length_append, List.length_singleton] at hl
    omega
  have ⟨data₁, h₁, hlen, hh⟩ := h.store hl₁
  have hl₂ : (t ++ str ++ [0]).length ≤ data₁.length := hlen ▸ hl
  have ⟨data', h', hlen', hh'⟩ := hh.store hl₂
  rw [List.length_append] at h'
  exact ⟨data₁, data', store_eq h₁, store_eq h', hh', hlen'.trans hlen⟩

-- Where blocks are written to, the first of which may still have to come.
structure Begun (b : InBuf) (t : Text) : Prop where
  length : b.length = t.length
  cells  : Cells.Holds b.data t

theorem Holds.begun (h : b.Holds t) : b.Begun t :=
  ⟨h.length, h.cells.left⟩

-- The size behind `add2buffer`, with which the buffer has so many bytes.
def grown (size length : ℕ) : ℕ :=
  if length < size then size else length + 500

theorem Begun.add2buffer_eq (h : b.Begun t) (str : Text) :
    b.add2buffer str = (if (t ++ str).length < b.data.length then pure b.data
      else realloc b.data ((t ++ str).length + 500)) >>= fun data => store data t.length str >>= fun data =>
        store data (t ++ str).length [0] >>= fun data => pure { b with data, length := (t ++ str).length } := by
  have hle := h.cells.length_le
  rw [add2buffer, List.length_append]
  by_cases h0 : b.data.length = 0
  · have ht : t.length = 0 := by omega
    have hlt : ¬ t.length + str.length < b.data.length := by omega
    have hd : b.data = [] := List.length_eq_zero_iff.mp h0
    rw [if_pos h0, if_neg hlt, hd, ht, Nat.zero_add]
    cases realloc [] (str.length + 500) <;> simp [bind, Except.bind, pure, Except.pure]
  · rw [if_neg h0, h.length]
    by_cases hlt : t.length + str.length < b.data.length
    · rw [if_neg (not_le.mpr hlt), if_pos hlt]
      simp [h.length, bind, Except.bind, pure, Except.pure]
    · rw [if_pos (not_lt.mp hlt), if_neg hlt]
      cases realloc b.data (t.length + str.length + 500) <;> simp [bind, Except.bind, pure, Except.pure]

-- The block fits behind the other ones, or there is an `int` for the size that it asks for.
theorem Begun.add2buffer_ok (h : b.Begun t)
    (hs : (t ++ str).length < b.data.length ∨ (t ++ str).length + 500 < 2 ^ 31) :
    ∃ b', b.add2buffer str = .ok b' ∧ b'.Holds (t ++ str) ∧ b'.ptr = b.ptr ∧
      b'.data.length = grown b.data.length (t ++ str).length := by
  have hle : t.length ≤ (t ++ str).length := by simp
  have hdata : ∃ data, (if (t ++ str).length < b.data.length then pure b.data
      else realloc b.data ((t ++ str).length + 500)) = .ok data ∧ Cells.Holds data t ∧
        data.length = grown b.data.length (t ++ str).length := by
    rw [grown]
    by_cases hl : (t ++ str).length < b.data.length
    · rw [if_pos hl, if_pos hl]
      exact ⟨b.data, rfl, h.cells, rfl⟩
    · rw [if_neg hl, if_neg hl, realloc_eq (hs.resolve_left hl)]
      exact ⟨_, rfl, h.cells.resize (by omega), Cells.resize_length ..⟩
  obtain ⟨data, hd, hc, hlen⟩ := hdata
  have hroom : (t ++ str ++ [0]).length ≤ data.length := by
    have hlast : (t ++ str ++ [0]).length = (t ++ str).length + 1 := by rw [List.length_append, List.length_singleton]
    rw [hlast, hlen, grown]
    split <;> omega
  obtain ⟨data₁, data', h₁, h', hh, hlen'⟩ := store_end hc hroom
  rw [← List.length_append] at h'
  refine ⟨{ b with data := data', length := (t ++ str).length }, ?_, ⟨rfl, hh⟩, rfl, hlen'.trans hlen⟩
  rw [h.add2buffer_eq, hd]
  simp only [bind, Except.bind, pure, Except.pure, h₁, h']

-- There is none, so that nothing is allocated, or too little.
theorem Begun.add2buffer_refused (h : b.Begun t)
    (hs : ¬ ((t ++ str).length < b.data.length ∨ (t ++ str).length + 500 < 2 ^ 31)) :
    ∃ e, b.add2buffer str = .error e := by
  obtain ⟨hl, hsize⟩ := not_or.mp hs
  rw [h.add2buffer_eq, if_neg hl, realloc]
  split
  · have hlen : ¬ t.length + str.length ≤
        (Cells.resize b.data (((t ++ str).length + 500) % 2 ^ 32)).length := by
      rw [Cells.resize_length, ← List.length_append]
      omega
    exact ⟨.wild, by simp only [store, Cells.store, if_neg hlen, bind, Except.bind, pure, Except.pure]; rfl⟩
  · exact ⟨.null, rfl⟩

-- Whenever blocks ask for more than there is, the size stays an `int`.
def Grows : ℕ → ℕ → List Text → Prop
  | _, _, []                     => True
  | size, length, str :: blocks =>
    (length + str.length < size ∨ length + str.length + 500 < 2 ^ 31) ∧
      Grows (grown size (length + str.length)) (length + str.length) blocks

theorem grows_short {size length : ℕ} {blocks : List Text} (h : length + blocks.flatten.length + 500 < 2 ^ 31) :
    Grows size length blocks := by
  induction blocks generalizing size length with
  | nil                => trivial
  | cons str blocks hi =>
    rw [List.flatten_cons, List.length_append] at h
    exact ⟨.inr (by omega), hi (by omega)⟩

theorem Begun.add2buffer_blocks (h : b.Begun t) (blocks : List Text) (hg : Grows b.data.length t.length blocks) :
    ∃ b', blocks.foldlM add2buffer b = .ok b' ∧ b'.Begun (t ++ blocks.flatten) ∧ b'.ptr = b.ptr ∧
      (blocks ≠ [] → b'.Holds (t ++ blocks.flatten)) := by
  induction blocks generalizing b t with
  | nil                => exact ⟨b, rfl, by simpa using h, rfl, fun hne => absurd rfl hne⟩
  | cons str blocks hi =>
    rw [Grows, ← List.length_append] at hg
    obtain ⟨b₁, h₁, hb₁, hp₁, hlen⟩ := h.add2buffer_ok hg.left
    obtain ⟨b', h', hb', hp', hh'⟩ := hi hb₁.begun (hlen ▸ hg.right)
    have he : t ++ (str :: blocks).flatten = t ++ str ++ blocks.flatten := by simp
    rw [he]
    refine ⟨b', ?_, hb', hp'.trans hp₁, fun _ => ?_⟩
    · rw [List.foldlM_cons, h₁]
      exact h'
    · by_cases hne : blocks = []
      · subst hne
        cases h'
        simpa using hb₁
      · exact hh' hne

theorem Begun.add2buffer_lost (h : b.Begun t) (blocks : List Text)
    (hg : ¬ Grows b.data.length t.length blocks) : ∃ e, blocks.foldlM add2buffer b = .error e := by
  induction blocks generalizing b t with
  | nil                => exact absurd trivial hg
  | cons str blocks hi =>
    rw [Grows, ← List.length_append] at hg
    rw [List.foldlM_cons]
    by_cases hs : (t ++ str).length < b.data.length ∨ (t ++ str).length + 500 < 2 ^ 31
    · obtain ⟨b₁, h₁, hb₁, _, hlen⟩ := h.add2buffer_ok hs
      rw [h₁]
      exact hi hb₁.begun fun hn => hg ⟨hs, hlen ▸ hn⟩
    · obtain ⟨e, he⟩ := h.add2buffer_refused hs
      exact ⟨e, by rw [he]; rfl⟩

theorem begun_nil : ({} : InBuf).Begun [] :=
  ⟨rfl, .nil []⟩

theorem add2buffer_iff (blocks : List Text) :
    (∃ b, blocks.foldlM add2buffer {} = .ok b ∧ b.Holds blocks.flatten ∧ b.ptr = 0) ↔
      blocks ≠ [] ∧ Grows 0 0 blocks := by
  constructor
  · rintro ⟨b, h, hh, _⟩
    constructor
    · rintro rfl
      cases h
      have hle := hh.cells.length_le
      simp at hle
    · by_contra hg
      obtain ⟨e, he⟩ := begun_nil.add2buffer_lost blocks hg
      cases h.symm.trans he
  · rintro ⟨hne, hg⟩
    obtain ⟨b, h, _, hp, hh⟩ := begun_nil.add2buffer_blocks blocks hg
    exact ⟨b, h, hh hne, hp⟩

-- Looking at the bytes.

section Look

variable {pre l r : Text} {c c' : UInt8}

theorem since_eq (h : b.Holds t) (i : ℕ) : b.since i = ((t ++ [0]).drop i).map some := by
  have hc := h.cells
  rw [Cells.Holds, List.length_append, List.length_singleton, ← h.length] at hc
  rw [since, hc, List.map_drop]

theorem cstr_append (t u : Text) : cstr (t ++ 0 :: u) = cstr t := by
  induction t with
  | nil         => rfl
  | cons c t hi =>
    simp only [cstr, List.cons_append, List.takeWhile_cons] at hi ⊢
    rw [hi]

theorem string_eq (h : b.Holds (pre ++ t)) : b.string pre.length = .ok (cstr t) := by
  have hs : b.since pre.length = (t ++ [0]).map some := by
    rw [since_eq h, List.append_assoc, List.drop_left]
  rw [string, hs, Cells.upTo_map 0 (t ++ [0]) (by simp)]
  exact congrArg _ (cstr_append t [])

theorem get_eq (h : b.Holds (pre ++ c :: t)) : b.get pre.length = .ok c := by
  have hs : b.since pre.length = some c :: (t ++ [0]).map some := by
    rw [since_eq h, List.append_assoc, List.drop_left]
    rfl
  rw [get, hs]
  rfl

theorem set_eq (h : b.Holds (pre ++ c :: t)) (c' : UInt8) :
    ∃ b', b.set pre.length c' = .ok b' ∧ b'.Holds (pre ++ c' :: t) ∧ b'.ptr = b.ptr := by
  have hc := h.cells
  rw [List.append_assoc] at hc
  have ⟨data', hs, _, hh⟩ := hc.set c'
  refine ⟨{ b with data := data' }, ?_, ⟨by simp [h.length], by simpa using hh⟩, rfl⟩
  rw [set, if_pos (by simp [h.length]), store_eq hs]
  rfl

theorem nextHdr_none (h : b.Holds (pre ++ t)) (hp : b.ptr = pre.length) (ht : ∀ c ∈ t, isEol c = false) :
    b.nextHdr i = .ok (none, { b with ptr := (pre ++ t).length }) := by
  induction t generalizing pre b with
  | nil         =>
    rw [List.append_nil] at h ⊢
    rw [nextHdr, dif_neg (by rw [h.length, hp]; exact Nat.lt_irrefl _), ← hp]
    rfl
  | cons c t hi =>
    have ⟨hc, ht⟩ := List.forall_mem_cons.mp ht
    have hlt : b.ptr < b.length := by
      rw [h.length, hp]
      simp
    have hg : b.get b.ptr = .ok c := hp ▸ get_eq h
    have h' : InBuf.Holds { b with ptr := b.ptr + 1 } ((pre ++ [c]) ++ t) := by
      rw [List.append_assoc]
      exact ⟨h.length, h.cells⟩
    have hn := hi h' (by simp [hp]) ht
    rw [List.append_assoc] at hn
    rw [nextHdr, dif_pos hlt, hg]
    simp only [bind, Except.bind, hc, Bool.false_eq_true, if_false]
    exact hn

-- What the end of a line is overwritten with, and what is behind it.
def cut (c : UInt8) (r : Text) : Text × Text :=
  if c = 13 ∧ r.head? = some 10 then ([0, 0], r.tail) else ([0], r)

theorem nextHdr_some (h : b.Holds (pre ++ (l ++ c :: r))) (hp : b.ptr = pre.length)
    (hl : ∀ c ∈ l, isEol c = false) (hc : isEol c) :
    ∃ b', b.nextHdr i = .ok (some i, b') ∧ b'.Holds (pre ++ (l ++ (cut c r).1) ++ (cut c r).2) ∧
      b'.ptr = (pre ++ (l ++ (cut c r).1)).length := by
  induction l generalizing pre b with
  | nil         =>
    have hlt : b.ptr < b.length := by
      rw [h.length, hp]
      simp
    have hg : b.get b.ptr = .ok c := hp ▸ get_eq h
    have ⟨b₁, hs₁, h₁, hp₁⟩ := set_eq h 0
    have h₁' : InBuf.Holds { b₁ with ptr := b₁.ptr + 1 } ((pre ++ [0]) ++ r) := by
      rw [List.append_assoc]
      exact ⟨h₁.length, h₁.cells⟩
    have hptr : b₁.ptr + 1 = (pre ++ [0]).length := by simp [hp₁, hp]
    rw [← hp] at hs₁
    rw [nextHdr, dif_pos hlt, hg, cut]
    simp only [bind, Except.bind, hc, if_true, hs₁]
    cases r with
    | nil      =>
      have hend : ¬ (c = 13 ∧ b₁.ptr + 1 < b₁.length) := by
        rw [h₁.length, hptr]
        simp
      rw [if_neg hend, if_neg (by simp)]
      exact ⟨_, rfl, h₁', hptr⟩
    | cons d r =>
      have hmore : b₁.ptr + 1 < b₁.length := by
        rw [h₁.length, hptr]
        simp
      by_cases hc13 : c = 13
      · have hg₁ : InBuf.get { b₁ with ptr := b₁.ptr + 1 } (b₁.ptr + 1) = .ok d := by
          have := get_eq h₁'
          rwa [← hptr] at this
        rw [if_pos ⟨hc13, hmore⟩, hg₁]
        simp only
        by_cases hd : d = 10
        · have ⟨b₂, hs₂, h₂, hp₂⟩ := set_eq h₁' 0
          rw [← hptr] at hs₂
          rw [if_pos hd, if_pos ⟨hc13, by rw [hd]; rfl⟩, hs₂]
          refine ⟨_, rfl, ?_, ?_⟩
          · have he : (pre ++ [0]) ++ 0 :: r = pre ++ ([] ++ [0, 0]) ++ r := by simp
            exact ⟨he ▸ h₂.length, he ▸ h₂.cells⟩
          · simp only [hp₂]
            rw [hptr]
            simp
        · have hne : ¬ (c = 13 ∧ (d :: r).head? = some 10) := by
            simp [hd]
          rw [if_neg hd, if_neg hne]
          exact ⟨_, rfl, h₁', hptr⟩
      · rw [if_neg fun h => hc13 h.left, if_neg fun h => hc13 h.left]
        exact ⟨_, rfl, h₁', hptr⟩
  | cons d l hi =>
    have ⟨hd, hl⟩ := List.forall_mem_cons.mp hl
    have hlt : b.ptr < b.length := by
      rw [h.length, hp]
      simp
    have hg : b.get b.ptr = .ok d := hp ▸ get_eq h
    have h' : InBuf.Holds { b with ptr := b.ptr + 1 } ((pre ++ [d]) ++ (l ++ c :: r)) := by
      rw [List.append_assoc]
      exact ⟨h.length, h.cells⟩
    have ⟨b', hn, hh, hp'⟩ := hi h' (by simp [hp]) hl
    have he : pre ++ (d :: l ++ (cut c r).1) = (pre ++ [d]) ++ (l ++ (cut c r).1) := by
      simp
    refine ⟨b', ?_, he ▸ hh, he ▸ hp'⟩
    rw [nextHdr, dif_pos hlt, hg]
    simp only [bind, Except.bind, hd, Bool.false_eq_true, if_false]
    exact hn

end Look

-- Splitting into lines.

-- The end of a line, which is CRLF or LF.
def eol (crlf : Bool) : Text :=
  if crlf then [13, 10] else [10]

def ended (ls : List (Text × Bool)) : Text :=
  ls.flatMap fun l => l.1 ++ eol l.2

theorem getNextHdr_line {pre l r : Text} (hl : Line l) (crlf : Bool) (h : b.Holds (pre ++ (l ++ (eol crlf ++ r))))
    (hp : b.ptr = pre.length) : ∃ gap b', b.getNextHdr = .ok (some pre.length, b') ∧
      (0 :: gap).length = (eol crlf).length ∧ b'.Holds (pre ++ (l ++ 0 :: gap) ++ r) ∧
      b'.ptr = (pre ++ (l ++ 0 :: gap)).length := by
  have hl' : ∀ c ∈ l, isEol c = false := fun c hc => (hl c hc).left
  rw [getNextHdr, hp]
  cases crlf with
  | true  =>
    have ⟨b', hn, hh, hp'⟩ := nextHdr_some (i := pre.length) (c := 13) (r := 10 :: r) h hp hl' (by decide)
    rw [cut, if_pos ⟨rfl, rfl⟩] at hh hp'
    exact ⟨[0], b', hn, rfl, hh, hp'⟩
  | false =>
    have ⟨b', hn, hh, hp'⟩ := nextHdr_some (i := pre.length) (c := 10) (r := r) h hp hl' (by decide)
    rw [cut, if_neg fun h => absurd h.left (by decide)] at hh hp'
    exact ⟨[], b', hn, rfl, hh, hp'⟩

-- A line is found again after the others.
theorem nextHdrs_lines {ls : List (Text × Bool)} (hl : ∀ l ∈ ls, Line l.1) {pre r : Text}
    (h : b.Holds (pre ++ (ended ls ++ r))) (hp : b.ptr = pre.length) :
    ∃ hdrs gone b', b.nextHdrs ls.length = .ok (hdrs.map some, b') ∧ gone.length = (ended ls).length ∧
      b'.Holds (pre ++ gone ++ r) ∧ b'.ptr = (pre ++ gone).length ∧
      List.Forall₂ (fun hdr (l : Text × Bool) => b'.string hdr = .ok l.1) hdrs ls := by
  induction ls generalizing b pre with
  | nil          => exact ⟨[], [], b, rfl, rfl, by simpa [ended] using h, by simpa using hp, .nil⟩
  | cons l ls hi =>
    have ⟨hl₁, hls⟩ := List.forall_mem_cons.mp hl
    have he : ended (l :: ls) = l.1 ++ (eol l.2 ++ ended ls) := by simp [ended]
    rw [he, List.append_assoc, List.append_assoc] at h
    have ⟨gap, b₁, hn, hgap, h₁, hp₁⟩ := getNextHdr_line hl₁ l.2 h hp
    have ⟨hdrs, gone, b', hns, hgone, h', hp', hs⟩ := hi hls h₁ hp₁
    have ha : pre ++ (l.1 ++ 0 :: gap) ++ gone = pre ++ (l.1 ++ 0 :: gap ++ gone) := List.append_assoc ..
    refine ⟨pre.length :: hdrs, l.1 ++ 0 :: gap ++ gone, b', ?_, ?_, ha ▸ h', ha ▸ hp', .cons ?_ hs⟩
    · rw [List.length_cons, nextHdrs, hn]
      simp only [bind, Except.bind, hns]
      rfl
    · rw [he]
      simp only [List.length_append, hgap, hgone]
      omega
    · have h₂ : b'.Holds (pre ++ (l.1 ++ 0 :: (gap ++ (gone ++ r)))) := by simpa using h'
      have hz : 0 ∉ l.1 := fun h0 => (hl₁ 0 h0).right rfl
      rw [string_eq h₂, cstr_append, cstr_eq hz]

end InBuf

theorem readHdrs_length {cmd stale data : Text} {state : ℕ} {first : Bool} {conn : List Text}
    (h : data.length < hdrLimmit) :
    (readHdrs cmd stale state first data conn).2.1.length < hdrLimmit + hdrBufsize := by
  generalize hm : conn.flatten.length = m
  induction m using Nat.strong_induction_on generalizing state first data conn with
  | _ m hi =>
    have hlt := @Segments.read_length_lt _ hdrBufsize conn
    have hle := Segments.read_length_le hdrBufsize conn
    have hl : (data ++ (Segments.read hdrBufsize conn).1).length < hdrLimmit + hdrBufsize := by
      rw [List.length_append]
      omega
    rw [readHdrs]
    generalize (if first ∧ ¬ begins cmd ((Segments.read hdrBufsize conn).1 ++
      stale.drop (Segments.read hdrBufsize conn).1.length) then 1 else state) = state'
    split
    · simp only
      omega
    · simp only
      split
      · exact hl
      · split
        · exact hl
        · exact hi _ (hm ▸ hlt ‹_›) (by omega) rfl

theorem getHdrs_length (stale : Text) (conn : List Text) (cmd : Text) :
    (getHdrs stale conn cmd).2.1.length < hdrLimmit + hdrBufsize :=
  readHdrs_length (by decide)

-- Successive calls return the lines, each terminated where it ends, and then the empty line. The body is
-- where the buffer is read next.
def InBuf.Splits (b : InBuf) (ls : List (Text × Bool)) (crlf : Bool) (body : Text) : Prop :=
  ∃ hdrs b', b.nextHdrs (ls.length + 1) = .ok (hdrs.map some, b') ∧
    List.Forall₂ (fun hdr l => b'.string hdr = .ok l) hdrs (ls.map Prod.fst ++ [[]]) ∧
    b'.length = b.length ∧ b'.ptr = (InBuf.ended (ls ++ [([], crlf)])).length ∧
    b'.since b'.ptr = (body ++ [0]).map some

-- What the buffer of a connection is for, with the blocks that are added to it.
structure HeaderLines (blocks : List Text) : Prop where
  added : ∃ b, blocks.foldlM InBuf.add2buffer {} = .ok b ∧ b.Holds blocks.flatten ∧ b.ptr = 0
  split : ∀ (ls : List (Text × Bool)) (crlf : Bool) (body : Text) (b : InBuf), (∀ l ∈ ls, Line l.1) →
    b.Holds (InBuf.ended (ls ++ [([], crlf)]) ++ body) → b.ptr = 0 → b.Splits ls crlf body

theorem InBuf.Holds.splits {ls : List (Text × Bool)} {crlf : Bool} {body : Text} {b : InBuf} (hl : ∀ l ∈ ls, Line l.1)
    (h : b.Holds (InBuf.ended (ls ++ [([], crlf)]) ++ body)) (hp : b.ptr = 0) : b.Splits ls crlf body := by
  have hl' : ∀ l ∈ ls ++ [([], crlf)], Line l.1 := by
    intro l hm
    cases List.mem_append.mp hm with
    | inl hm => exact hl l hm
    | inr hm =>
      cases List.mem_singleton.mp hm
      exact nofun
  have h' : b.Holds ([] ++ (InBuf.ended (ls ++ [([], crlf)]) ++ body)) := h
  have ⟨hdrs, gone, b', hn, hgone, hh, hp', hs⟩ := InBuf.nextHdrs_lines hl' h' hp
  rw [List.nil_append] at hh hp'
  refine ⟨hdrs, b', by simpa using hn, ?_, ?_, hp'.trans hgone, ?_⟩
  · have hmap : ls.map Prod.fst ++ [[]] = (ls ++ [([], crlf)]).map Prod.fst := by simp
    rw [hmap]
    exact List.forall₂_map_right_iff.mpr hs
  · rw [hh.length, h.length, List.length_append, List.length_append, hgone]
  · rw [InBuf.since_eq hh, hp', List.append_assoc, List.drop_left]

-- Lines are always taken apart, and blocks are put together unless the sum of the bytes and 500 more is
-- negative as an `int`. It is not for what is read of a connection.
theorem headerLines_iff (blocks : List Text) : (HeaderLines blocks ↔ blocks ≠ [] ∧ InBuf.Grows 0 0 blocks) ∧
    ∀ stale conn cmd, blocks.flatten = (getHdrs stale conn cmd).2.1 → InBuf.Grows 0 0 blocks := by
  refine ⟨⟨fun h => (InBuf.add2buffer_iff blocks).mp h.added, fun h => ?_⟩, fun stale conn cmd h => ?_⟩
  · exact ⟨(InBuf.add2buffer_iff blocks).mpr h, fun _ _ _ _ => InBuf.Holds.splits⟩
  · have hl := getHdrs_length stale conn cmd
    have hs : hdrLimmit + hdrBufsize = 10000 := rfl
    exact InBuf.grows_short (by rw [h]; omega)

-- The `int` is negative.
theorem not_headerLines_long : ¬ ∀ blocks : List Text, blocks ≠ [] → HeaderLines blocks := by
  intro h
  have hb := (h [List.replicate (2 ^ 31 - 500) 97] (List.cons_ne_nil _ _)).added
  have hg := ((InBuf.add2buffer_iff _).mp hb).right
  rw [InBuf.Grows, List.length_replicate] at hg
  omega

end Sfcc.Listener
