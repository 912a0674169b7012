import Mathlib.Data.List.Infix
import Mathlib.Data.List.TakeWhile
import Sfcc.Listener
import Sfcc.Theorems.Cmpi.Named

namespace Sfcc.Listener

-- Finding the end of the headers.

def crlf : Text := [13, 10]

-- A line, without its end.
def Line (l : Text) : Prop :=
  ∀ c ∈ l, isEol c = false ∧ c ≠ 0

-- Lines and the blank line after them.
def lines (ls : List Text) : Text :=
  ls.flatMap (· ++ crlf) ++ crlf

@[simp]
theorem lines_cons (l : Text) (ls : List Text) : lines (l :: ls) = l ++ (13 :: 10 :: lines ls) := by
  simp [lines, crlf]

def ends (t : Text) : Bool :=
  strstr t [13, 10, 13, 10] || strstr t [10, 10]

section Find

variable {s t : Text} {c : UInt8}

theorem strstr_cons (t s : Text) (c : UInt8) :
    strstr (c :: t) s = (s.isPrefixOf (c :: t) || strstr t s) := by
  simp [strstr]

-- Bytes that the text does not begin with are passed.
theorem strstr_append {l : Text} (h : ∀ c ∈ l, s.head? ≠ some c) (hs : s ≠ []) :
    strstr (l ++ t) s = strstr t s := by
  induction l with
  | nil         => rfl
  | cons c l hi =>
    have ⟨hc, hl⟩ := List.forall_mem_cons.mp h
    have hp : s.isPrefixOf (c :: (l ++ t)) = false := by
      cases s with
      | nil      => exact absurd rfl hs
      | cons d s =>
        have hd : d ≠ c := fun he => hc (congrArg some he)
        simp [List.isPrefixOf, hd]
    rw [List.cons_append, strstr_cons, hp, hi hl, Bool.false_or]

theorem strstr_of_infix (a s b : Text) : strstr (a ++ (s ++ b)) s := by
  have hm : s ++ b ∈ (a ++ (s ++ b)).tails := (List.mem_tails _ _).mpr (List.suffix_append _ _)
  apply List.any_eq_true.mpr
  exact ⟨s ++ b, hm, by simp⟩

theorem ends_append {l : Text} (h : Line l) (t : Text) : ends (l ++ t) = ends t := by
  have hc : ∀ c ∈ l, c ≠ 13 ∧ c ≠ 10 := by
    intro c hm
    have he := (h c hm).left
    simp only [isEol, decide_eq_false_iff_not, not_or] at he
    exact he.symm
  have h₁ : ∀ c ∈ l, ([13, 10, 13, 10] : Text).head? ≠ some c := by
    simpa [eq_comm] using fun c hm => (hc c hm).left
  have h₂ : ∀ c ∈ l, ([10, 10] : Text).head? ≠ some c := by
    simpa [eq_comm] using fun c hm => (hc c hm).right
  rw [ends, strstr_append h₁ (by simp), strstr_append h₂ (by simp)]
  rfl

-- What is cut off before the end of the lines does not begin with the end of a line.
theorem take_lines_prefix {ls : List Text} (h : ∀ l ∈ ls, l ≠ [] ∧ Line l) {n : ℕ}
    (hn : n < (lines ls).length) :
    ([13, 10] : Text).isPrefixOf ((lines ls).take n) = false ∧
      ([10] : Text).isPrefixOf ((lines ls).take n) = false := by
  cases ls with
  | nil       =>
    have h2 : n < 2 := hn
    match n, h2 with
    | 0, _ | 1, _ => decide
  | cons l ls =>
    have ⟨hl, _⟩ := List.forall_mem_cons.mp h
    cases l with
    | nil      => exact absurd rfl hl.left
    | cons c l =>
      have he := (hl.right c (List.mem_cons_self ..)).left
      simp only [isEol, decide_eq_false_iff_not, not_or] at he
      cases n with
      | zero   => simp
      | succ n => simp [List.isPrefixOf, Ne.symm he.left, Ne.symm he.right]

theorem ends_take_lines {ls : List Text} (h : ∀ l ∈ ls, l ≠ [] ∧ Line l) {n : ℕ}
    (hn : n < (lines ls).length) : ends ((lines ls).take n) = false := by
  induction ls generalizing n with
  | nil          =>
    have h2 : n < 2 := hn
    match n, h2 with
    | 0, _ | 1, _ => decide
  | cons l ls hi =>
    have ⟨hl, hls⟩ := List.forall_mem_cons.mp h
    have ht : Line (l.take n) := fun c hc => hl.right c (List.mem_of_mem_take hc)
    rw [lines_cons] at hn ⊢
    rw [List.take_append, ends_append ht]
    rw [List.length_append] at hn
    match hm : n - l.length with
    | 0     => simp [ends, strstr]
    | 1     => simp [ends, strstr, List.isPrefixOf]
    | k + 2 =>
      have hk : k < (lines ls).length := by
        simp only [List.length_cons] at hn
        omega
      have ⟨h₁, h₂⟩ := take_lines_prefix hls hk
      have he := hi hls hk
      simp only [ends, Bool.or_eq_false_iff] at he
      simp [ends, strstr_cons, List.isPrefixOf, he, h₁, h₂]

theorem ends_lines (l : Text) (ls : List Text) (t : Text) : ends (lines (l :: ls) ++ t) := by
  have ⟨a, ha⟩ : ∃ a, lines (l :: ls) = a ++ [13, 10, 13, 10] := by
    induction ls generalizing l with
    | nil           => exact ⟨l, by simp [lines, crlf]⟩
    | cons l' ls hi =>
      have ⟨a, ha⟩ := hi l'
      exact ⟨l ++ 13 :: 10 :: a, by rw [lines_cons, ha]; simp⟩
  rw [ha, List.append_assoc, ends, strstr_of_infix]
  rfl

end Find

theorem cstr_eq {t : Text} (h : 0 ∉ t) : cstr t = t := by
  apply List.takeWhile_eq_self_iff.mpr
  intro c hc
  have hne : c ≠ 0 := by
    intro he
    exact h (he ▸ hc)
  simpa using hne

theorem hdrsEnd_eq {t : Text} (h : 0 ∉ t) : hdrsEnd t = ends t := by
  rw [hdrsEnd, cstr_eq h]
  rfl

-- Reading the headers.

section Read

variable {cmd stale head body : Text}

-- However the text arrives, it is read until the headers are complete.
theorem readHdrs_eq (hn : 0 ∉ head ++ body) (hs : head.length < hdrLimmit)
    (hcut : ∀ n < head.length, ends (head.take n) = false) (hend : ∀ t, ends (head ++ t))
    {first : Bool} {data : Text} {conn : List Text}
    (hc : ∀ s ∈ conn, s ≠ []) (hd : data ++ conn.flatten = head ++ body)
    (hl : data.length < head.length)
    (hf : first → begins cmd ((Segments.read hdrBufsize conn).1 ++
      stale.drop (Segments.read hdrBufsize conn).1.length)) :
    ∃ t conn', readHdrs cmd stale 0 first data conn = (0, head ++ t, conn') ∧
      t ++ conn'.flatten = body ∧ ∀ s ∈ conn', s ≠ [] := by
  generalize hm : conn.flatten.length = m
  induction m using Nat.strong_induction_on generalizing first data conn with
  | _ m hi =>
    have ha := Segments.read_append hdrBufsize conn
    have hr := @Segments.read_rest _ hdrBufsize conn hc
    have hne : conn.flatten ≠ [] := by
      intro he
      have hlen := congrArg List.length hd
      rw [he] at hlen
      simp at hlen
      omega
    have hrn := @Segments.read_ne_nil _ hdrBufsize conn (by decide) hc hne
    have hlt := Segments.read_length_lt hrn
    rw [readHdrs]
    generalize Segments.read hdrBufsize conn = r at ha hr hrn hlt hf
    have hpre : (data ++ r.1) ++ r.2.flatten = head ++ body := by rw [List.append_assoc, ha, hd]
    have hnul : 0 ∉ data ++ r.1 := by
      intro h0
      exact hn (hpre ▸ List.mem_append_left _ h0)
    have hstate : (if first ∧ ¬ begins cmd (r.1 ++ stale.drop r.1.length) then 1 else 0) = 0 := by
      rw [if_neg]
      exact fun h => h.right (hf h.left)
    simp only [if_neg hrn, hdrsEnd_eq hnul, hstate]
    cases List.append_eq_append_iff.mp hpre with
    | inr h =>
      have ⟨t, ht, hb⟩ := h
      exact ⟨t, r.2, by rw [ht, if_pos (hend t)], hb.symm, hr⟩
    | inl h =>
      have ⟨u, hu, hb⟩ := h
      cases u with
      | nil      =>
        rw [List.append_nil] at hu
        have he : ends head := by simpa using hend []
        exact ⟨[], r.2, by rw [← hu, if_pos he, List.append_nil], hb, hr⟩
      | cons c u =>
        have hlen : (data ++ r.1).length < head.length := by
          rw [hu]
          simp
        have htake : head.take (data ++ r.1).length = data ++ r.1 := by
          rw [hu]
          exact List.take_left
        have hcut' := hcut _ hlen
        rw [htake] at hcut'
        rw [if_neg (by simp [hcut']), if_neg (by omega)]
        exact hi r.2.flatten.length (hm ▸ hlt) hr hpre hlen nofun rfl

theorem getNextHdr_line {l : Text} (h : Line l) (t : Text) :
    getNextHdr (l ++ 13 :: 10 :: t) = some (l, t) := by
  have hc : ∀ c ∈ l, (¬ isEol c) = true := by
    intro c hc
    simp [(h c hc).left]
  have hn : 0 ∉ l := fun h0 => (h 0 h0).right rfl
  have he : isEol 13 = true := by decide
  have hd : (l ++ 13 :: 10 :: t).dropWhile (¬ isEol ·) = 13 :: 10 :: t := by
    rw [List.dropWhile_append_of_pos (by simpa using hc)]
    simp [he]
  have ht : (l ++ 13 :: 10 :: t).takeWhile (¬ isEol ·) = l := by
    rw [List.takeWhile_append_of_pos (by simpa using hc)]
    simp [he]
  rw [getNextHdr, hd, ht, cstr_eq hn]
  rfl

theorem readLines_lines {ls : List Text} (h : ∀ l ∈ ls, l ≠ [] ∧ Line l) (b : Buffer) (t : Text) :
    readLines b (lines ls ++ t) = (ls.foldl Buffer.header b, t) := by
  induction ls generalizing b with
  | nil          =>
    have hl : Line [] := fun _ hc => absurd hc List.not_mem_nil
    have hg : getNextHdr (lines [] ++ t) = some ([], t) := getNextHdr_line hl t
    rw [readLines]
    split
    · simp_all
    · simp_all
  | cons l ls hi =>
    obtain ⟨hl, hls⟩ := List.forall_mem_cons.mp h
    have hg : getNextHdr (lines (l :: ls) ++ t) = some (l, lines ls ++ t) := by
      simpa using getNextHdr_line hl.right (lines ls ++ t)
    rw [readLines]
    split
    · simp_all
    · rename_i hdr rest hs
      rw [hg] at hs
      cases hs
      rw [if_neg hl.left, hi hls]
      rfl

end Read

-- A request, with its lines and its body.
structure Request where
  path    : Text
  headers : List Text
  body    : Text

namespace Request

def head (r : Request) : Text :=
  lines ((bytes "POST " ++ r.path ++ bytes " HTTP/1.1") :: r.headers)

def value (name hdr : Text) : Text :=
  (hdr.drop name.length).dropWhile isBlank

structure Valid (r : Request) : Prop where
  path    : r.path ≠ [] ∧ ∀ c ∈ r.path, isBlank c = false ∧ isEol c = false ∧ c ≠ 0
  headers : ∀ h ∈ r.headers, h ≠ [] ∧ Line h
  length  : ∃ h, r.headers.filter (begins (bytes "Content-Length:")) = [h] ∧
    scanNumber (value (bytes "Content-Length:") h) = some (false, r.body.length)
  expect  : ∀ h ∈ r.headers, begins (bytes "Expect:") h = false
  host    : ∀ h ∈ r.headers, begins (bytes "Host:") h →
    47 ∉ value (bytes "Host:") h ∧ (value (bytes "Host:") h).head? ≠ some 46
  short   : r.head.length < 5000
  body    : 0 ∉ r.body

end Request

theorem foldl_header {hs : List Text} (he : ∀ h ∈ hs, begins (bytes "Expect:") h = false)
    (hh : ∀ h ∈ hs, begins (bytes "Host:") h → 47 ∉ Request.value (bytes "Host:") h ∧
      (Request.value (bytes "Host:") h).head? ≠ some 46) (b : Buffer) :
    hs.foldl Buffer.header b =
      (hs.filter (begins (bytes "Content-Length:"))).foldl Buffer.header b := by
  induction hs generalizing b with
  | nil          => rfl
  | cons h hs hi =>
    have ⟨he₁, he₂⟩ := List.forall_mem_cons.mp he
    have ⟨hh₁, hh₂⟩ := List.forall_mem_cons.mp hh
    rw [List.foldl_cons, hi he₂ hh₂]
    by_cases hc : begins (bytes "Content-Length:") h
    · rw [List.filter_cons_of_pos hc, List.foldl_cons]
    · have hb : b.header h = b := by
        rw [Buffer.header, if_neg hc]
        by_cases ho : begins (bytes "Host:") h
        · have hv := hh₁ ho
          rw [if_pos ho]
          exact if_neg (not_or.mpr hv)
        · rw [if_neg ho, if_neg (by simp [he₁])]
      rw [List.filter_cons_of_neg hc, hb]

theorem atoi_eq {t : Text} {n : ℕ} (h : scanNumber t = some (false, n)) (hn : n < 2 ^ 31) :
    (Xml.atoi t).toInt = n := by
  have hs : strtoll false n = n := by
    simp only [strtoll, Bool.false_eq_true, if_false]
    omega
  rw [Xml.atoi, h, Option.elim_some, hs]
  apply Int32.toInt_ofInt_of_le <;> omega

-- The length of what is processed fits.
theorem getPayload_length {b : Buffer} {data content : Text} {conn : List Text}
    (h : getPayload b data conn = .ok (some content)) : content.length + 8 < 2 ^ 31 := by
  simp only [getPayload] at h
  split at h
  · cases h
  · have ⟨⟨u, conn'⟩, _, he⟩ := Option.map_eq_some_iff.mp (Except.ok.inj h)
    have hl : content.length ≤ b.content_length.toInt.toNat := by
      rw [← he]
      exact (List.takeWhile_prefix _).length_le.trans (List.length_take_le ..)
    omega

theorem processes_length {stale xml : Text} {conn : List Text} {rs : List (Text × ℕ)}
    (h : handleConnection stale conn = .processes rs xml) : xml.length + 8 < 2 ^ 31 := by
  simp only [handleConnection] at h
  split at h
  · cases h
  · split at h
    · cases h
    · split at h
      · cases h
      · split at h
        · cases h
        · cases h
        · split at h
          · cases h
          · cases h
            exact getPayload_length ‹_›

theorem getPayload_eq {b : Buffer} {data : Text} {conn : List Text}
    (hc : ∀ s ∈ conn, s ≠ []) (hn : 0 ∉ data ++ conn.flatten)
    (hb : b.content_length.toInt = (data ++ conn.flatten).length)
    (hl : (data ++ conn.flatten).length + 8 < 2 ^ 31) :
    getPayload b data conn = .ok (some (data ++ conn.flatten)) := by
  have hd : (data ++ conn.flatten).length - data.length = conn.flatten.length := by
    rw [List.length_append, Nat.add_sub_cancel_left]
  have hdl : data.length ≤ (data ++ conn.flatten).length := by simp
  have ⟨conn', hr⟩ := Segments.readAll_eq hc (le_refl conn.flatten.length)
  rw [List.take_length] at hr
  simp only [getPayload, hb, Int.toNat_natCast, hd, hr, Option.map_some, List.take_length, cstr_eq hn]
  rw [if_neg (by omega)]
  rfl

theorem handleConnection_eq {stale data hdr rest t content : Text} {conn conn' : List Text}
    {b b' : Buffer} (hg : getHdrs stale conn (bytes "POST ") = (0, data, conn')) (hne : data ≠ [])
    (hn : getNextHdr data = some (hdr, rest)) (hr : Buffer.requestLine {} hdr = some b)
    (hl : readLines b rest = (b', t)) (hc : ¬ b'.content_length < 0)
    (hp : getPayload b' t conn' = .ok (some content)) (hd : b'.discardInput = 0) :
    handleConnection stale conn = .processes (b'.genError 200).responses content := by
  have h1 : ¬ (0 : ℕ) = 1 := by decide
  have h2 : ¬ (0 : ℕ) = 2 := by decide
  rw [handleConnection, hg]
  simp only [if_neg h1, if_neg h2, if_neg hne, hn, Option.getD_some, hr, hl, if_neg hc, hp]
  exact if_neg (not_not.mpr hd)

-- A state that is not 0 stays.
theorem readHdrs_ne_zero {cmd stale data : Text} {state : ℕ} (h : state ≠ 0) {conn : List Text} :
    (readHdrs cmd stale state false data conn).1 ≠ 0 := by
  generalize hm : conn.flatten.length = m
  induction m using Nat.strong_induction_on generalizing data conn with
  | _ m hi =>
    have hlt := @Segments.read_length_lt _ hdrBufsize conn
    rw [readHdrs]
    simp only [Bool.false_eq_true, false_and, if_false]
    split
    · exact h
    · split
      · exact h
      · split
        · simp
        · exact hi _ (hm ▸ hlt ‹_›) rfl

-- What was in the buffer is taken for the method if less than its length was read at first.
theorem getHdrs_ne_zero {s : Text} {conn : List Text} (hs : s ≠ []) (hl : s.length < 5) :
    (getHdrs (List.replicate hdrBufsize 0) (s :: conn) (bytes "POST ")).1 ≠ 0 := by
  have hle : s.length ≤ hdrBufsize := by
    simp only [hdrBufsize]
    omega
  have hr : Segments.read hdrBufsize (s :: conn) = (s, conn) := by rw [Segments.read, if_pos hle]
  have hb : ¬ begins (bytes "POST ") (s ++ (List.replicate hdrBufsize 0).drop s.length) := by
    intro h
    have hlower : Text.lower ((s ++ (List.replicate hdrBufsize 0).drop s.length).take 5) =
        Text.lower (bytes "POST ") := sameIgnoringCase_iff.mp h
    have h0 : (0 : UInt8) ∈ (s ++ (List.replicate hdrBufsize 0).drop s.length).take 5 := by
      rw [List.take_append, List.drop_replicate, List.take_replicate]
      apply List.mem_append_right
      simp only [List.mem_replicate, hdrBufsize, and_true]
      omega
    have hm : (0 : UInt8) ∈ Text.lower (bytes "POST ") := by
      rw [← hlower]
      exact List.mem_map.mpr ⟨0, h0, by decide⟩
    exact absurd hm (by decide)
  rw [getHdrs, readHdrs]
  simp only [hr, if_neg hs, hb]
  split
  · simp
  · split
    · simp
    · exact readHdrs_ne_zero (by simp)

theorem lines_nul {ls : List Text} (h : ∀ l ∈ ls, Line l) : 0 ∉ lines ls := by
  induction ls with
  | nil          => decide
  | cons l ls hi =>
    have ⟨hl, hls⟩ := List.forall_mem_cons.mp h
    have hn : 0 ∉ l := fun h0 => (hl 0 h0).right rfl
    simp [hn, hi hls]

theorem post : bytes "POST " = [80, 79, 83, 84, 32] := by
  decide

theorem http : bytes " HTTP/1.1" = 32 :: bytes "HTTP/1.1" := by
  decide

namespace Request

variable {r : Request}

theorem Valid.line (hv : r.Valid) : Line (bytes "POST " ++ r.path ++ bytes " HTTP/1.1") := by
  have h₁ : Line (bytes "POST ") := by unfold Line; decide
  have h₂ : Line (bytes " HTTP/1.1") := by unfold Line; decide
  intro c hc
  simp only [List.mem_append] at hc
  cases hc with
  | inl hc =>
    cases hc with
    | inl hc => exact h₁ c hc
    | inr hc => exact (hv.path.right c hc).right
  | inr hc => exact h₂ c hc

theorem Valid.lines (hv : r.Valid) :
    ∀ l ∈ (bytes "POST " ++ r.path ++ bytes " HTTP/1.1") :: r.headers, l ≠ [] ∧ Line l := by
  simp only [List.forall_mem_cons]
  refine ⟨⟨?_, hv.line⟩, hv.headers⟩
  simp [post]

theorem Valid.nul (hv : r.Valid) : 0 ∉ r.head ++ r.body := by
  have hh : 0 ∉ r.head := lines_nul fun l hl => (hv.lines l hl).right
  simp [hh, hv.body]

theorem Valid.requestLine (hv : r.Valid) (b : Buffer) :
    b.requestLine (bytes "POST " ++ r.path ++ bytes " HTTP/1.1") =
      some { b with protocol := bytes "HTTP/1.1" } := by
  have ⟨hp, hc⟩ := hv.path
  have hw : ∀ c ∈ r.path, (decide ¬ (isBlank c ∨ isEol c)) = true := by
    intro c hm
    have ⟨hb, he, _⟩ := hc c hm
    simp [hb, he]
  have h₁ : isBlank 32 = true := by decide
  have h₂ : ∀ c ∈ ([80, 79, 83, 84] : Text), (decide ¬ (isBlank c ∨ isEol c)) = true := by decide
  have hpost : (bytes "POST " ++ r.path ++ bytes " HTTP/1.1").dropWhile
      (fun c => ¬ (isBlank c ∨ isEol c)) = 32 :: (r.path ++ bytes " HTTP/1.1") := by
    have he : bytes "POST " ++ r.path ++ bytes " HTTP/1.1" =
        [80, 79, 83, 84] ++ 32 :: (r.path ++ bytes " HTTP/1.1") := by simp [post]
    rw [he, List.dropWhile_append_of_pos h₂]
    simp [h₁]
  have hpath : (r.path ++ bytes " HTTP/1.1").dropWhile (fun c => isBlank c ∨ isEol c) =
      r.path ++ bytes " HTTP/1.1" := by
    cases hr : r.path with
    | nil      => exact absurd hr hp
    | cons c t =>
      have ⟨hb, he, _⟩ := hc c (hr ▸ List.mem_cons_self ..)
      simp [hb, he]
  simp only [Buffer.requestLine, hpost, hpath]
  rw [List.dropWhile_append_of_pos hw, http]
  simp [h₁]

-- The header that counts.
theorem Valid.foldl_header (hv : r.Valid) (hl : r.body.length < 2 ^ 31) (b : Buffer) :
    ∃ n : Int32, n.toInt = r.body.length ∧
      r.headers.foldl Buffer.header b = { b with content_length := n } := by
  have ⟨h, hf, hn⟩ := hv.length
  have hh : begins (bytes "Content-Length:") h := by
    have hm : h ∈ r.headers.filter (begins (bytes "Content-Length:")) := by simp [hf]
    exact (List.mem_filter.mp hm).right
  refine ⟨_, atoi_eq hn hl, ?_⟩
  rw [Listener.foldl_header hv.expect hv.host, hf, List.foldl_cons, List.foldl_nil, Buffer.header,
    if_pos hh]
  rfl

theorem Valid.getHdrs (hv : r.Valid) {conn : List Text} (hc : ∀ s ∈ conn, s ≠ [])
    (hf : conn.flatten = r.head ++ r.body) (h5 : 5 ≤ (conn.headD []).length) (stale : Text) :
    ∃ t conn', Listener.getHdrs stale conn (bytes "POST ") = (0, r.head ++ t, conn') ∧
      t ++ conn'.flatten = r.body ∧ ∀ s ∈ conn', s ≠ [] := by
  have hcut : ∀ n < r.head.length, ends (r.head.take n) = false := fun n => ends_take_lines hv.lines
  have hpos : ([] : Text).length < r.head.length := by simp [head, post]
  apply readHdrs_eq hv.nul hv.short hcut (ends_lines _ _) hc hf hpos
  intro _
  have ha := Segments.read_append hdrBufsize conn
  have hle : 5 ≤ (Segments.read hdrBufsize conn).1.length := by
    cases conn with
    | nil       => simp at h5
    | cons s ss =>
      rw [Segments.read]
      split
      · exact h5
      · simp only [hdrBufsize, List.length_take] at *
        omega
  generalize Segments.read hdrBufsize conn = s at ha hle
  have htake : s.1.take 5 = bytes "POST " := by
    have hs : (r.head ++ r.body).take 5 = bytes "POST " := by simp [head, post]
    rw [← hs, ← hf, ← ha, List.take_append_of_le_length hle]
  have hlen : (bytes "POST ").length = 5 := by simp [post]
  rw [begins, hlen, List.take_append_of_le_length hle, htake]
  decide

end Request

theorem handled_eq {r : Request} (hv : r.Valid) {conn : List Text} (hc : ∀ s ∈ conn, s ≠ [])
    (hf : conn.flatten = r.head ++ r.body) (h5 : 5 ≤ (conn.headD []).length) (hl : r.body.length + 8 < 2 ^ 31)
    (stale : Text) : (getHdrs stale conn (bytes "POST ")).1 = 0 ∧
      handleConnection stale conn = .processes [(bytes "HTTP/1.1", 200)] r.body := by
  obtain ⟨t, conn', hg, ht, hc'⟩ := hv.getHdrs hc hf h5 stale
  obtain ⟨n, hn, hb⟩ := hv.foldl_header (by omega) { protocol := bytes "HTTP/1.1" }
  have hline : getNextHdr (r.head ++ t) =
      some (bytes "POST " ++ r.path ++ bytes " HTTP/1.1", lines r.headers ++ t) := by
    rw [Request.head, lines_cons, List.append_assoc]
    exact getNextHdr_line hv.line _
  have hne : r.head ++ t ≠ [] := by simp [Request.head, post]
  have hpos : ¬ n < 0 := by
    rw [Int32.lt_iff_toInt_lt, hn]
    simp
  have hp : getPayload { protocol := bytes "HTTP/1.1", content_length := n } t conn' =
      .ok (some r.body) := by
    rw [← ht]
    exact getPayload_eq hc' (ht ▸ hv.body) (ht ▸ hn) (ht ▸ hl)
  refine ⟨by rw [hg], ?_⟩
  have hread := readLines_lines hv.headers { protocol := bytes "HTTP/1.1" } t
  rw [hb] at hread
  exact handleConnection_eq hg hne hline (hv.requestLine {}) hread hpos hp rfl

-- Every request is answered and processed, however it is delivered, if what is read first is long
-- enough for the method and its body is not too long.
theorem processes_iff {r : Request} {conn : List Text} (hv : r.Valid) (hc : ∀ s ∈ conn, s ≠ [])
    (hf : conn.flatten = r.head ++ r.body) :
    (∀ stale : Text, stale.length = hdrBufsize → (getHdrs stale conn (bytes "POST ")).1 = 0 ∧
      handleConnection stale conn = .processes [(bytes "HTTP/1.1", 200)] r.body) ↔
    5 ≤ (conn.headD []).length ∧ r.body.length + 8 < 2 ^ 31 := by
  constructor
  · intro h
    have hz := h (List.replicate hdrBufsize 0) List.length_replicate
    refine ⟨?_, processes_length hz.right⟩
    by_contra hl
    cases conn with
    | nil         =>
      have hlen := congrArg List.length hf
      simp [Request.head, post] at hlen
    | cons s conn =>
      have hs := hc s (List.mem_cons_self ..)
      exact getHdrs_ne_zero hs (by simpa using hl) hz.left
  · intro ⟨h5, hl⟩ stale _
    exact handled_eq hv hc hf h5 hl stale

def Request.ping : Request where
  path    := bytes "/"
  headers := [bytes "Content-Length: 1"]
  body    := bytes "x"

theorem Request.ping_valid : ping.Valid where
  path    := by decide
  headers := by unfold Line; decide
  length  := ⟨bytes "Content-Length: 1", by decide⟩
  expect  := by decide
  host    := by decide
  short   := by decide
  body    := by decide

-- The request in three parts, one cut in its first line and one between the line ends behind its headers.
def Request.parts : List Text :=
  let text := ping.head ++ ping.body
  [text.take 9, (text.drop 9).take (ping.head.length - 11), text.drop (ping.head.length - 2)]

theorem processes_iff_ping :
    handleConnection (List.replicate hdrBufsize 0) Request.parts =
      .processes [(bytes "HTTP/1.1", 200)] Request.ping.body :=
  ((processes_iff Request.ping_valid (by decide) (by decide)).mpr (by decide) _ List.length_replicate).right

-- The method is cut, and the buffer held zeros.
theorem not_processes_cut :
    Request.ping.Valid ∧
      (let text := Request.ping.head ++ Request.ping.body
       let cut := [text.take 2, text.drop 2]
       cut.flatten = text ∧ (∀ s ∈ cut, s ≠ []) ∧
        (getHdrs (List.replicate hdrBufsize 0) cut (bytes "POST ")).1 ≠ 0) := by
  refine ⟨Request.ping_valid, by decide, by decide, ?_⟩
  exact getHdrs_ne_zero (by decide) (by decide)

end Sfcc.Listener
