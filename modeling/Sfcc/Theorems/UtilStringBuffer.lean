import Mathlib.Tactic.Linarith
import Mathlib.Tactic.Positivity
import Sfcc.UtilStringBuffer

namespace Sfcc

theorem checked_eq {n : ℤ} (hl : -(2 ^ 31) ≤ n) (hu : n < 2 ^ 31) : checked n = .ok n :=
  if_pos ⟨hl, hu⟩

theorem memcpy_holds {m : List (Option UInt8)} {t s : Text} (h : Cells.Holds m t) (hl : (t ++ s).length ≤ m.length)
    (r : Text) : ∃ m', memcpy m t.length (s ++ r) s.length = .ok m' ∧ m'.length = m.length ∧ Cells.Holds m' (t ++ s) := by
  have ⟨m', hs, hlen, hh⟩ := h.store hl
  have hn : 0 ≤ (t.length : ℤ) ∧ (s.length : ℤ) ≤ (s ++ r).length := by
    rw [List.length_append]
    omega
  refine ⟨m', ?_, hlen, hh⟩
  rw [memcpy, if_pos hn, Int.toNat_natCast, Int.toNat_natCast, List.take_left, hs]
  rfl

namespace UtilStringBuffer

variable {sb sb' : UtilStringBuffer} {need m total sl : ℤ} {t s : Text}

-- The loop ends, behind the number or at the end of what an `int` can be.
theorem doubled_cases (need : ℤ) (hm : 0 < m) (hi : m < 2 ^ 31) :
    (∃ k, doubled need m = .ok (m * 2 ^ k) ∧ need < m * 2 ^ k ∧ m * 2 ^ k < 2 ^ 31 ∧ (k = 0 ∨ m * 2 ^ k ≤ 2 * need)) ∨
    ∃ k, doubled need m = .error .overflow ∧ m * 2 ^ k ≤ need ∧ 2 ^ 30 ≤ m * 2 ^ k ∧ m * 2 ^ k < 2 ^ 31 := by
  fun_induction doubled need m with
  | case1 m hlt          => exact .inl ⟨0, by rw [pow_zero, mul_one]; rfl, by omega, by omega, .inl rfl⟩
  | case2 hlt            => omega
  | case3 m hlt h0 hr hi' =>
    have ⟨_, hr'⟩ := hr
    have hp (k : ℕ) : m * 2 * 2 ^ k = m * 2 ^ (k + 1) := by rw [pow_succ', mul_assoc]
    rcases hi' (by omega) hr' with ⟨k, he, hn, hk, hle⟩ | ⟨k, he, hn, hk, hle⟩
    · refine .inl ⟨k + 1, ?_, ?_, ?_, .inr ?_⟩
      · rw [he, hp]
      · rwa [← hp]
      · rwa [← hp]
      · rcases hle with rfl | hle
        · omega
        · rwa [← hp]
    · exact .inr ⟨k + 1, he, by rwa [← hp], by rwa [← hp], by rwa [← hp]⟩
  | case4 m hlt h0 hr    =>
    have hr' : ¬ (-(2 ^ 31) ≤ m * 2 ∧ m * 2 < 2 ^ 31) := hr
    exact .inr ⟨0, rfl, by omega, by omega, by omega⟩

-- Room for a text can be made. The doubling passes over `2 ^ 30`, and two bytes more can be counted.
def Fits (max total : ℤ) : Prop :=
  ¬ (total = 2 ^ 30 - 1 ∧ (max = 0 ∨ max ∣ 2 ^ 30)) ∧ ¬ (max = 2 ^ 30 - 1 ∧ 2 ^ 30 - 2 ≤ total)

theorem Fits.mono {total' : ℤ} (h : Fits m total') (hle : total ≤ total') (ht : total' < 2 ^ 30) : Fits m total := by
  obtain ⟨h₁, h₂⟩ := h
  exact ⟨fun ⟨he, hd⟩ => h₁ ⟨by omega, hd⟩, fun ⟨he, hd⟩ => h₂ ⟨he, by omega⟩⟩

-- What the loop begins with.
def start (max : ℤ) : ℤ :=
  if max = 0 then 8 else max

theorem start_cases (h0 : 0 ≤ m) (hm : m < 2 ^ 31) : 0 < start m ∧ start m < 2 ^ 31 ∧ (m = 0 ∧ start m = 8 ∨ start m = m) := by
  rw [start]
  split <;> omega

theorem Fits.grown (h0 : 0 ≤ m) (hm : m < 2 ^ 31) {k : ℕ} (h : Fits m total) : Fits (start m * 2 ^ k) total := by
  obtain ⟨h₁, h₂⟩ := h
  have ⟨hp, _, hs⟩ := start_cases h0 hm
  refine ⟨fun ⟨ht, hd⟩ => h₁ ⟨ht, ?_⟩, fun ⟨he, ht⟩ => ?_⟩
  · rcases hs with ⟨hz, -⟩ | hs
    · exact .inl hz
    · rcases hd with hd | hd
      · have hpow : (0 : ℤ) < start m * 2 ^ k := by positivity
        omega
      · exact .inr (hs ▸ (dvd_mul_right ..).trans hd)
  · cases k with
    | zero   =>
      rw [pow_zero, mul_one] at he
      exact h₂ ⟨by omega, ht⟩
    | succ k =>
      rw [pow_succ, ← mul_assoc] at he
      omega

theorem doubled_fits (h0 : 0 ≤ m) (hm : m < 2 ^ 31) (ht : need < 2 ^ 30 + 1) (hn : need ≥ m) (hf : Fits m (need - 1)) :
    ∃ k, doubled need (start m) = .ok (start m * 2 ^ k) ∧ need < start m * 2 ^ k ∧ start m * 2 ^ k < 2 ^ 31 - 2 := by
  have ⟨hp, hlt, hs⟩ := start_cases h0 hm
  obtain ⟨h₁, h₂⟩ := hf
  rcases doubled_cases need hp hlt with ⟨k, he, hn', hk, hle⟩ | ⟨k, he, hle, hge, hk⟩
  · refine ⟨k, he, hn', ?_⟩
    by_contra hbig
    cases k with
    | zero   =>
      rw [pow_zero, mul_one] at hn' hbig
      omega
    | succ k =>
      rw [pow_succ, ← mul_assoc] at hk hle hbig
      have hhalf : start m * 2 ^ k = 2 ^ 30 - 1 := by omega
      cases k with
      | zero   =>
        rw [pow_zero, mul_one] at hhalf
        exact h₂ ⟨by omega, by omega⟩
      | succ k =>
        rw [pow_succ, ← mul_assoc] at hhalf
        omega
  · have hpow : start m * 2 ^ k = 2 ^ 30 := by omega
    refine absurd ⟨by omega, hs.imp And.left fun hs => ?_⟩ h₁
    exact Dvd.intro _ (hs ▸ hpow)

theorem reserve_eq (hl : 0 ≤ sl + sb.len) (hu : sl + sb.len + 1 < 2 ^ 31) : sb.reserve sl =
    if sl + sb.len + 1 ≥ sb.max then do
      let max ← doubled (sl + sb.len + 1) (start sb.max)
      let size := size_t (← checked (max + 2))
      return { sb with max, hdl := Cells.resize sb.hdl size.toNat }
    else return sb := by
  rw [reserve, checked_eq (by omega) (by omega)]
  show (checked (sl + sb.len + 1) >>= _) = _
  rw [checked_eq (by omega) (by omega)]
  rfl

theorem reserve_fits (h0 : 0 ≤ sb.max) (hm : sb.max < 2 ^ 31) (hs : 0 ≤ sl) (hl : 0 ≤ sb.len) (ht : sl + sb.len < 2 ^ 30)
    (hf : Fits sb.max (sl + sb.len)) : ∃ sb', sb.reserve sl = .ok sb' ∧ sb'.len = sb.len ∧
      sl + sb.len + 1 < sb'.max ∧ sb'.max < 2 ^ 31 ∧ (∀ total, Fits sb.max total → Fits sb'.max total) ∧
      (sb' = sb ∨ sb'.hdl = Cells.resize sb.hdl (sb'.max + 2).toNat) := by
  rw [reserve_eq (by omega) (by omega)]
  by_cases hn : sl + sb.len + 1 ≥ sb.max
  · have ⟨k, he, hlt, hmax⟩ := doubled_fits h0 hm (by omega) hn (by rwa [add_sub_cancel_right])
    have hpos : 0 ≤ start sb.max * 2 ^ k := by omega
    have hsize : size_t (start sb.max * 2 ^ k + 2) = start sb.max * 2 ^ k + 2 := size_t_eq (by omega) (by omega)
    rw [if_pos hn, he]
    refine ⟨{ sb with max := start sb.max * 2 ^ k, hdl := Cells.resize sb.hdl (start sb.max * 2 ^ k + 2).toNat },
      ?_, rfl, hlt, by show start sb.max * 2 ^ k < _; omega, fun total => Fits.grown h0 hm, .inr rfl⟩
    show (checked (start sb.max * 2 ^ k + 2) >>= _) = _
    rw [checked_eq (by omega) (by omega)]
    show Except.ok _ = _
    rw [hsize]
  · rw [if_neg hn]
    exact ⟨sb, rfl, rfl, by omega, hm, fun _ => id, .inl rfl⟩

theorem fits_small (ht : total < 2 ^ 30 - 2) : Fits m total :=
  ⟨fun ⟨he, _⟩ => by omega, fun ⟨_, hle⟩ => by omega⟩

-- The block holds some bytes and a NUL behind them, and as many bytes as `max` says.
structure Filled (sb : UtilStringBuffer) (t : Text) : Prop where
  holds : Cells.Holds sb.hdl (t ++ [0])
  len   : sb.len = t.length
  few   : t.length < 2 ^ 30
  pos   : 0 ≤ sb.max
  small : sb.max < 2 ^ 31
  room  : sb.max ≤ sb.hdl.length
  empty : sb.max = 0 → t = []

-- The bytes are a text.
structure Holding (sb : UtilStringBuffer) (t : Text) : Prop extends Filled sb t where
  clean : 0 ∉ t

-- Room behind the bytes, for some more and a NUL.
theorem Filled.reserve (h : sb.Filled t) {n : ℕ} (ht : t.length + n < 2 ^ 30) (hf : Fits sb.max (t.length + n)) :
    ∃ sb', sb.reserve n = .ok sb' ∧ sb'.Filled t ∧ sb'.max ≠ 0 ∧ t.length + n + 1 < sb'.hdl.length ∧
      ∀ total, Fits sb.max total → Fits sb'.max total := by
  have hl := h.len
  have hle := h.holds.length_le
  rw [List.length_append, List.length_singleton] at hle
  have ⟨sb', he, hlen, hmax, hint, hmono, hhdl⟩ := reserve_fits h.pos h.small (Int.natCast_nonneg n) (by omega) (by omega)
    (by rwa [hl, add_comm])
  rcases hhdl with rfl | hhdl
  · have hroom := h.room
    exact ⟨sb', he, h, by omega, by omega, hmono⟩
  · have hnew : sb'.hdl.length = (sb'.max + 2).toNat := by rw [hhdl, Cells.resize_length]
    have hfit : (t ++ [0]).length ≤ (sb'.max + 2).toNat := by
      rw [List.length_append, List.length_singleton]
      omega
    refine ⟨sb', he, ⟨?_, hlen.trans hl, h.few, by omega, hint, by omega, by omega⟩, by omega, by omega, hmono⟩
    rw [hhdl]
    exact h.holds.resize hfit

-- What is copied behind the bytes, with the NUL that stands behind it then.
theorem Filled.copy {hdl : List (Option UInt8)} (h : sb.Filled t) (h0 : sb.max ≠ 0) (ht : t.length + s.length < 2 ^ 30)
    (hh : Cells.Holds hdl (t ++ s ++ [0])) (hl : hdl.length = sb.hdl.length) :
    ∃ len, checked (sb.len + s.length) = .ok len ∧ Filled { sb with hdl, len } (t ++ s) := by
  have hlen := h.len
  refine ⟨sb.len + s.length, checked_eq (by omega) (by omega), hh, ?_, ?_, h.pos, h.small, ?_, (absurd · h0)⟩
  · rw [List.length_append, Nat.cast_add, hlen]
  · rwa [List.length_append]
  · show sb.max ≤ hdl.length
    rw [hl]
    exact h.room

theorem appendChars_eq (h : sb.reserve (int s.length) = .ok sb') : sb.appendChars (some s) = do
    let size ← checked (int s.length + 1)
    let hdl ← memcpy sb'.hdl sb'.len (s ++ [0]) (size_t size)
    let len ← checked (sb'.len + int s.length)
    return { sb' with hdl, len } := by
  rw [UtilStringBuffer.appendChars, h]
  exact pure_bind sb' _

theorem Filled.appendChars (h : sb.Filled t) (ht : t.length + s.length < 2 ^ 30)
    (hf : Fits sb.max (t.length + s.length)) : ∃ sb', sb.appendChars (some s) = .ok sb' ∧ sb'.Filled (t ++ s) ∧
      ∀ total, Fits sb.max total → Fits sb'.max total := by
  have ⟨sb₁, he, h₁, hmax, hroom, hmono⟩ := h.reserve ht hf
  have hsl : int s.length = s.length := int_eq (by omega) (by omega)
  have hsize : size_t (s.length + 1) = (s ++ [0]).length := by
    rw [List.length_append]
    exact size_t_eq (by omega) (by omega)
  have hfit : (t ++ (s ++ [0])).length ≤ sb₁.hdl.length := by
    rw [List.length_append, List.length_append, List.length_singleton]
    omega
  have ⟨hdl, hm, hlen, hh⟩ := memcpy_holds h₁.holds.left hfit []
  rw [← List.append_assoc] at hh
  rw [List.append_nil, ← hsize, ← h₁.len] at hm
  have ⟨len, hc, hnew⟩ := h₁.copy hmax ht hh hlen
  refine ⟨{ sb₁ with hdl, len }, ?_, hnew, hmono⟩
  rw [appendChars_eq (hsl.symm ▸ he), hsl, checked_eq (by omega) (by omega)]
  show (memcpy sb₁.hdl sb₁.len (s ++ [0]) (size_t (s.length + 1)) >>= _) = _
  rw [hm]
  show (checked (sb₁.len + s.length) >>= _) = _
  rw [hc]
  rfl

theorem Holding.appendChars (h : sb.Holding t) (hs : 0 ∉ s) (ht : t.length + s.length < 2 ^ 30)
    (hf : Fits sb.max (t.length + s.length)) : ∃ sb', sb.appendChars (some s) = .ok sb' ∧ sb'.Holding (t ++ s) ∧
      ∀ total, Fits sb.max total → Fits sb'.max total := by
  have ⟨sb', he, h', hmono⟩ := h.toFilled.appendChars ht hf
  exact ⟨sb', he, ⟨h', List.not_mem_append h.clean hs⟩, hmono⟩

theorem Filled.appendBlock (h : sb.Filled t) (r : Text) (ht : t.length + s.length < 2 ^ 30)
    (hf : Fits sb.max (t.length + s.length)) : ∃ sb', sb.appendBlock (some (s ++ r)) s.length = .ok sb' ∧
      sb'.Filled (t ++ s) := by
  have ⟨sb₁, he, h₁, hmax, hroom, _⟩ := h.reserve ht hf
  have hsl : int s.length = s.length := int_eq (by omega) (by omega)
  have hsize : size_t s.length = s.length := size_t_eq (by omega) (by omega)
  have hfit₁ : (t ++ s).length ≤ sb₁.hdl.length := by
    rw [List.length_append]
    omega
  have ⟨hdl₁, hm₁, hlen₁, hh₁⟩ := memcpy_holds h₁.holds.left hfit₁ r
  have hfit₂ : (t ++ s ++ [0]).length ≤ hdl₁.length := by
    rw [List.length_append, List.length_append, List.length_singleton]
    omega
  have ⟨hdl, hm, hlen, hh⟩ := memcpy_holds hh₁ hfit₂ []
  have ⟨len, hc, hnew⟩ := h₁.copy hmax ht hh (hlen.trans hlen₁)
  refine ⟨{ sb₁ with hdl, len }, ?_, hnew⟩
  have hlen' : len = (t ++ s).length := hnew.len
  rw [← h₁.len] at hm₁
  rw [UtilStringBuffer.appendBlock, hsl, he]
  show (memcpy sb₁.hdl sb₁.len (s ++ r) (size_t s.length) >>= fun hdl => checked (sb₁.len + s.length) >>= fun len =>
    memcpy hdl len [0] 1 >>= fun hdl => pure { sb₁ with hdl, len }) = _
  rw [hsize, hm₁]
  show (checked (sb₁.len + s.length) >>= fun len => memcpy hdl₁ len [0] 1 >>= fun hdl => _) = _
  rw [hc, hlen']
  show (memcpy hdl₁ (t ++ s).length [0] 1 >>= fun hdl => _) = _
  rw [show memcpy hdl₁ (t ++ s).length [0] 1 = .ok hdl from hm]
  rfl

-- Blocks that are far from the bounds of an `int` together.
theorem Filled.appendWhole (h : sb.Filled t) (ht : (t ++ s).length < 2 ^ 30 - 2) :
    ∃ sb', sb.appendBlock (some s) (s.length % 2 ^ 32) = .ok sb' ∧ sb'.Filled (t ++ s) := by
  rw [List.length_append] at ht
  have ⟨sb', he, h'⟩ := h.appendBlock (s := s) [] (by omega) (fits_small (by omega))
  rw [List.append_nil] at he
  rw [Nat.mod_eq_of_lt (by omega)]
  exact ⟨sb', he, h'⟩

theorem upTo_takeWhile (t : Text) (m : List (Option UInt8)) :
    Cells.upTo 0 ((t ++ [0]).map some ++ m) = some (t.takeWhile (· ≠ 0)) := by
  induction t with
  | nil       => exact if_pos rfl
  | cons c t hi =>
    rw [List.cons_append, List.map_cons, List.cons_append, Cells.upTo]
    by_cases hc : c = 0
    · rw [if_pos hc, List.takeWhile_cons_of_neg (by simpa using hc)]
    · rw [if_neg hc, hi, List.takeWhile_cons_of_pos (by simpa using hc)]
      rfl

theorem Filled.getCharPtr (h : sb.Filled t) : sb.getCharPtr = some (t.takeWhile (· ≠ 0)) := by
  rw [UtilStringBuffer.getCharPtr, h.holds.eq_append]
  exact upTo_takeWhile t _

theorem Filled.getSize (h : sb.Filled t) : sb.getSize = t.length := by
  have hf := h.few
  rw [UtilStringBuffer.getSize, h.len, Int.emod_eq_of_lt (by omega) (by omega)]

-- The parts that a call appends.
def Call.parts : Call → List (Option Text)
  | .appendChars c                => [c]
  | .append3Chars c₁ c₂ c₃          => [c₁, c₂, c₃]
  | .append5Chars c₁ c₂ c₃ c₄ c₅    => [c₁, c₂, c₃, c₄, c₅]
  | .append6Chars c₁ c₂ c₃ c₄ c₅ c₆ => [c₁, c₂, c₃, c₄, c₅, c₆]
  | .appendBlock data size         => [data.map (·.take size)]
  | .reset                         => []

-- The arguments of a call are strings, or bytes other than NUL of a block that is as long as `size` says.
structure Call.Sound (c : Call) : Prop where
  clean : ∀ s, some s ∈ c.parts → 0 ∉ s
  block : ∀ data size, c = .appendBlock (some data) size → size ≤ data.length

theorem Holding.foldlM (h : sb.Holding t) {cs : List (Option Text)} (hc : ∀ s, some s ∈ cs → 0 ∉ s)
    (ht : (t ++ cs.flatMap (·.getD [])).length < 2 ^ 30)
    (hf : (∃ s, some s ∈ cs) → Fits sb.max (t ++ cs.flatMap (·.getD [])).length) :
    ∃ sb', cs.foldlM UtilStringBuffer.appendChars sb = .ok sb' ∧ sb'.Holding (t ++ cs.flatMap (·.getD [])) := by
  induction cs generalizing sb t with
  | nil          =>
    rw [List.flatMap_nil, List.append_nil]
    exact ⟨sb, rfl, h⟩
  | cons c cs hi =>
    rw [List.flatMap_cons] at ht hf ⊢
    cases c with
    | none   => exact hi h (fun s hs => hc s (List.mem_cons_of_mem _ hs)) ht fun ⟨s, hs⟩ => hf ⟨s, List.mem_cons_of_mem _ hs⟩
    | some s =>
      have hf' := hf ⟨s, List.mem_cons_self⟩
      rw [Option.getD_some, ← List.append_assoc] at ht hf' ⊢
      have hle : (t ++ s).length ≤ (t ++ s ++ cs.flatMap (·.getD [])).length := by
        rw [@List.length_append _ (t ++ s)]
        omega
      rw [List.length_append] at hle
      have ⟨sb₁, he, h₁, hmono⟩ := h.appendChars (hc s List.mem_cons_self) (by omega) (hf'.mono (by omega) (by omega))
      have ⟨sb', he', h'⟩ := hi h₁ (fun s hs => hc s (List.mem_cons_of_mem _ hs)) ht fun _ => hmono _ hf'
      refine ⟨sb', ?_, h'⟩
      rw [List.foldlM_cons, he]
      exact he'

theorem Filled.reset (h : sb.Filled t) : ∃ sb', sb.reset = .ok sb' ∧ sb'.Filled [] := by
  have hle := h.holds.length_le
  rw [List.length_append, List.length_singleton] at hle
  have ⟨hdl, hm, hlen, hh⟩ := memcpy_holds (s := [0]) (.nil sb.hdl) (by rw [List.nil_append, List.length_singleton]; omega) []
  have hroom := h.room
  by_cases h0 : sb.max = 0
  · have ht := h.empty h0
    subst ht
    refine ⟨{ sb with len := 0 }, ?_, h.holds, rfl, h.few, h.pos, h.small, hroom, fun _ => rfl⟩
    rw [UtilStringBuffer.reset, if_neg (not_not.mpr h0)]
    rfl
  · refine ⟨{ sb with hdl, len := 0 }, ?_, hh, rfl, Nat.two_pow_pos _, h.pos, h.small, ?_, fun _ => rfl⟩
    · rw [UtilStringBuffer.reset, if_pos h0, show memcpy sb.hdl 0 [0] 1 = .ok hdl from hm]
      rfl
    · show sb.max ≤ hdl.length
      rwa [hlen]

theorem Holding.reset (h : sb.Holding t) : ∃ sb', sb.reset = .ok sb' ∧ sb'.Holding [] := by
  have ⟨sb', he, h'⟩ := h.toFilled.reset
  exact ⟨sb', he, h', List.not_mem_nil⟩

theorem call_append {c : Call} (hb : ∀ data size, c ≠ .appendBlock data size) (hr : c ≠ .reset) :
    sb.call c = c.parts.foldlM UtilStringBuffer.appendChars sb ∧ c.content t = t ++ c.parts.flatMap (·.getD []) := by
  cases c with
  | appendBlock data size => exact absurd rfl (hb data size)
  | reset                 => exact absurd rfl hr
  | appendChars c         =>
    refine ⟨(bind_pure _).symm, ?_⟩
    rw [Call.parts, List.flatMap_singleton]
    rfl
  | append3Chars c₁ c₂ c₃ | append5Chars c₁ c₂ c₃ c₄ c₅ | append6Chars c₁ c₂ c₃ c₄ c₅ c₆ =>
    refine ⟨?_, rfl⟩
    simp only [Call.parts, List.foldlM_cons, List.foldlM_nil, bind_pure]
    rfl

theorem Holding.call (h : sb.Holding t) {c : Call} (hc : c.Sound) (ht : (c.content t).length < 2 ^ 30)
    (hf : (∃ s, some s ∈ c.parts) → Fits sb.max (c.content t).length) :
    ∃ sb', sb.call c = .ok sb' ∧ sb'.Holding (c.content t) := by
  by_cases hr : c = .reset
  · subst hr
    exact h.reset
  by_cases hb : ∃ data size, c = .appendBlock data size
  · obtain ⟨data, size, rfl⟩ := hb
    cases data with
    | none      =>
      refine ⟨sb, rfl, ?_⟩
      show sb.Holding (t ++ List.take size [])
      rwa [List.take_nil, List.append_nil]
    | some data =>
      have hs : (data.take size).length = size := List.length_take_of_le (hc.block data size rfl)
      rw [Call.content, Option.getD_some] at ht hf ⊢
      rw [List.length_append] at ht hf
      have ⟨sb', he, h'⟩ := h.toFilled.appendBlock (data.drop size) ht (hf ⟨_, List.mem_cons_self⟩)
      rw [List.take_append_drop, hs] at he
      exact ⟨sb', he, h', List.not_mem_append h.clean (hc.clean _ List.mem_cons_self)⟩
  · have ⟨hcall, hcontent⟩ := @call_append sb t c (fun data size he => hb ⟨data, size, he⟩) hr
    rw [hcontent] at ht hf ⊢
    rw [hcall]
    exact h.foldlM hc.clean ht hf

theorem Holding.getCharPtr (h : sb.Holding t) : sb.getCharPtr = some t :=
  h.holds.upTo h.clean

theorem Holding.clone (h : sb.Holding t) : ∃ sb', sb.clone = .ok sb' ∧ sb'.Holding t := by
  have hl := h.len
  have hf := h.few
  refine ⟨{ hdl := (t ++ [0]).map some, max := sb.len, len := sb.len }, ?_, ?_⟩
  · rw [UtilStringBuffer.clone, h.getCharPtr]
    rfl
  · refine ⟨⟨?_, hl, hf, by show 0 ≤ sb.len; omega, by show sb.len < _; omega, ?_, fun h0 => ?_⟩, h.clean⟩
    · have hh := Cells.holds_append (t ++ [0]) []
      rwa [List.append_nil] at hh
    · rw [List.length_map, List.length_append, List.length_singleton]
      show sb.len ≤ _
      omega
    · exact List.length_eq_zero_iff.mp (by exact_mod_cast hl.symm.trans h0)

theorem newStringBuffer_holding {n : ℤ} (h0 : 0 ≤ n) (hn : n < 2 ^ 31) :
    ∃ sb, newStringBuffer n = .ok sb ∧ sb.Holding [] ∧ sb.max = if n = 0 then 32 else n := by
  have ⟨m, hm, hm0, hm31⟩ : ∃ m : ℕ, (if n = 0 then 32 else n) = m ∧ 0 < m ∧ m < 2 ^ 31 := by
    refine ⟨(if n = 0 then 32 else n).toNat, ?_⟩
    split <;> omega
  have ⟨hdl, hc, hlen, hh⟩ := memcpy_holds (s := [0]) (.nil (Cells.resize [] m)) (by rw [Cells.resize_length]; exact hm0) []
  refine ⟨{ hdl, max := m, len := 0 }, ?_, ⟨⟨hh, rfl, Nat.two_pow_pos _, Int.natCast_nonneg _,
    by show (m : ℤ) < _; omega, ?_, fun _ => rfl⟩, List.not_mem_nil⟩, hm.symm⟩
  · rw [newStringBuffer, hm]
    show (memcpy (Cells.resize [] m) 0 [0] 1 >>= _) = _
    rw [show memcpy (Cells.resize [] m) 0 [0] 1 = .ok hdl from hc]
    rfl
  · rw [hlen, Cells.resize_length]

-- The string behind a buffer is what was appended, a NUL ends it, and its length is the size.
structure Use.Concatenated (u : Use) : Prop where
  string     : u.sb.getCharPtr = some u.text
  terminated : u.sb.hdl[u.text.length]? = some (some 0)
  size       : u.sb.getSize = u.text.length

theorem Holding.concatenated {u : Use} (h : u.sb.Holding u.text) : u.Concatenated where
  string     := h.getCharPtr
  terminated := by
    rw [h.holds.eq_append, List.map_append, List.append_assoc]
    simp
  size       := h.toFilled.getSize

-- The size of a new buffer is no negative number, and a text stays shorter than `2 ^ 30` bytes.
def Action.Sound (l : List Use) : Action → Prop
  | .create s => 0 ≤ s ∧ s < 2 ^ 31
  | .call i c => ∀ u, l[i]? = some u → c.Sound ∧ (c.content u.text).length < 2 ^ 30
  | .clone _  => True

def Action.Fits (l : List Use) : Action → Prop
  | .call i c => ∀ u, l[i]? = some u → (∃ s, some s ∈ c.parts) → UtilStringBuffer.Fits u.sb.max (c.content u.text).length
  | _         => True

theorem step_holding {l : List Use} {a : Action} (hl : ∀ u ∈ l, u.sb.Holding u.text) (hs : a.Sound l) (hf : a.Fits l) :
    ∃ l', step l a = .ok l' ∧ ∀ u ∈ l', u.sb.Holding u.text := by
  have concat {u' : Use} (h : u'.sb.Holding u'.text) : ∀ u ∈ l ++ [u'], u.sb.Holding u.text := by
    intro u hu
    rcases List.mem_append.mp hu with hu | hu
    · exact hl u hu
    · exact List.mem_singleton.mp hu ▸ h
  cases a with
  | create s =>
    have ⟨sb, he, h, _⟩ := newStringBuffer_holding hs.left hs.right
    refine ⟨l ++ [⟨sb, []⟩], ?_, concat h⟩
    rw [step, he]
    rfl
  | call i c =>
    cases hu : l[i]? with
    | none   =>
      refine ⟨l, ?_, hl⟩
      rw [step, hu]
      rfl
    | some u =>
      have ⟨hc, ht⟩ := hs u hu
      have ⟨sb, he, h⟩ := (hl u (List.mem_of_getElem? hu)).call hc ht (hf u hu)
      refine ⟨l.set i ⟨sb, c.content u.text⟩, ?_, ?_⟩
      · rw [step, hu]
        show (u.sb.call c >>= _) = _
        rw [he]
        rfl
      · intro u' hu'
        rcases List.mem_or_eq_of_mem_set hu' with hm | rfl
        · exact hl u' hm
        · exact h
  | clone i  =>
    cases hu : l[i]? with
    | none   =>
      refine ⟨l, ?_, hl⟩
      rw [step, hu]
      rfl
    | some u =>
      have ⟨sb, he, h⟩ := (hl u (List.mem_of_getElem? hu)).clone
      refine ⟨l ++ [⟨sb, u.text⟩], ?_, concat h⟩
      rw [step, hu]
      show (u.sb.clone >>= _) = _
      rw [he]
      rfl

-- A clone shares nothing with the buffer that it is one of.
theorem step_others {l l' : List Use} {i j : ℕ} {c : Call} (he : step l (.call i c) = .ok l') (hne : i ≠ j) :
    l'[j]? = l[j]? := by
  rw [step] at he
  cases hu : l[i]? with
  | none   =>
    rw [hu] at he
    cases he
    rfl
  | some u =>
    rw [hu] at he
    change (u.sb.call c >>= _) = _ at he
    cases hc : u.sb.call c with
    | error e =>
      rw [hc] at he
      cases he
    | ok sb   =>
      rw [hc] at he
      cases he
      exact List.getElem?_set_ne hne

theorem run_concatenated {l : List Use} (r : system.Run (fun l a => a.Sound l ∧ a.Fits l) l) :
    (∀ u ∈ l, u.Concatenated) ∧ (∀ a : Action, a.Sound l → a.Fits l → ∃ l', step l a = .ok l') ∧
    ∀ i c l' j, step l (.call i c) = .ok l' → i ≠ j → l'[j]? = l[j]? := by
  have hl : ∀ u ∈ l, u.sb.Holding u.text := by
    refine r.invariant (I := fun l => ∀ u ∈ l, u.sb.Holding u.text) (fun u hu => absurd hu List.not_mem_nil) ?_
    intro l a l' hl hok e
    have ⟨l₁, he, hl₁⟩ := step_holding hl hok.left hok.right
    change (step l a).toOption = some l' at e
    rw [he] at e
    exact Option.some.inj e ▸ hl₁
  refine ⟨fun u hu => (hl u hu).concatenated, fun a hs hf => ?_, fun i c l' j => step_others⟩
  have ⟨l', he, _⟩ := step_holding hl hs hf
  exact ⟨l', he⟩

theorem run_concatenated_clone : ∃ l, system.exec []
    [.create 32, .call 0 (.append3Chars (some [97]) none (some [98, 99])), .clone 0, .call 1 .reset] = some l ∧
    l.map (·.text) = [[97, 98, 99], []] ∧ ∀ u ∈ l, u.Concatenated := by
  refine ⟨_, rfl, rfl, (run_concatenated ?_).left⟩
  refine .step (a := .call 1 .reset) (.step (a := .clone 0) (.step
    (a := .call 0 (.append3Chars (some [97]) none (some [98, 99]))) (.step (a := .create 32) .init ?create rfl)
    ?append rfl) ?clone rfl) ?reset rfl
  case create => exact ⟨⟨by omega, by omega⟩, trivial⟩
  case append =>
    refine ⟨fun u hu => ?_, fun u hu _ => ?_⟩
    · cases hu
      refine ⟨⟨fun s hs => ?_, fun _ _ hd => ?_⟩, Nat.lt_of_le_of_lt (by decide : _ ≤ 3) (by omega)⟩
      · simp only [Call.parts, List.mem_cons, Option.some.injEq, List.not_mem_nil, or_false, reduceCtorEq, false_or] at hs
        rcases hs with rfl | rfl <;> decide
      · cases hd
    · cases hu
      exact ⟨fun ⟨h, _⟩ => absurd h (by decide), fun ⟨h, _⟩ => absurd h (by decide)⟩
  case clone  => exact ⟨trivial, trivial⟩
  case reset  =>
    refine ⟨fun u hu => ⟨⟨fun s hs => absurd hs List.not_mem_nil, fun _ _ hd => ?_⟩, Nat.two_pow_pos _⟩,
      fun u hu ⟨s, hs⟩ => absurd hs List.not_mem_nil⟩
    cases hd

-- Capacities that are powers of two.

theorem doubled_two_pow (need : ℤ) {j : ℕ} (hj : j ≤ 30) :
    need < 2 ^ 30 ∧ (∃ k, doubled need (2 ^ j) = .ok (2 ^ (j + k)) ∧ need < 2 ^ (j + k) ∧ j + k ≤ 30) ∨
    2 ^ 30 ≤ need ∧ doubled need (2 ^ j) = .error .overflow := by
  have hpos : (0 : ℤ) < 2 ^ j := by positivity
  have hlt : (2 : ℤ) ^ j < 2 ^ 31 := pow_lt_pow_right₀ (by omega) (by omega)
  rcases doubled_cases need hpos hlt with ⟨k, he, hn, hk, -⟩ | ⟨k, he, hle, hge, -⟩
  · rw [← pow_add] at he hn hk
    have hk' : j + k ≤ 30 := Nat.lt_succ_iff.mp ((pow_lt_pow_iff_right₀ (by omega)).mp hk)
    have hle : (2 : ℤ) ^ (j + k) ≤ 2 ^ 30 := pow_le_pow_right₀ (by omega) hk'
    exact .inl ⟨by omega, k, he, hn, hk'⟩
  · exact .inr ⟨by omega, he⟩

theorem bind_eq_ok {α β : Type} {x : Except Undefined α} {f : α → Except Undefined β} {b : β} (h : (x >>= f) = .ok b) :
    ∃ a, x = .ok a ∧ f a = .ok b := by
  cases x with
  | error e => cases h
  | ok a    => exact ⟨a, rfl, h⟩

def TwoPower (sb : UtilStringBuffer) : Prop :=
  ∃ j ≤ 30, sb.max = 2 ^ j

namespace TwoPower

theorem congr (h : sb.TwoPower) (hm : sb'.max = sb.max) : sb'.TwoPower :=
  have ⟨j, hj, he⟩ := h
  ⟨j, hj, hm.trans he⟩

theorem reserve (h : sb.TwoPower) (he : sb.reserve sl = .ok sb') : sb'.TwoPower := by
  obtain ⟨j, hj, hm⟩ := h
  have ⟨n₁, _, he⟩ := bind_eq_ok he
  have ⟨n₂, _, he⟩ := bind_eq_ok he
  have hs : (if sb.max = 0 then 8 else sb.max) = 2 ^ j := by
    rw [hm, if_neg (by positivity)]
  split at he
  · rw [hs] at he
    have ⟨max, hd, he⟩ := bind_eq_ok he
    have ⟨size, _, he⟩ := bind_eq_ok he
    cases he
    rcases doubled_two_pow n₂ hj with ⟨-, k, hd', -, hk⟩ | ⟨-, hd'⟩
    · rw [hd'] at hd
      cases hd
      exact ⟨j + k, hk, rfl⟩
    · rw [hd'] at hd
      cases hd
  · cases he
    exact ⟨j, hj, hm⟩

theorem appendChars {c : Option Text} (h : sb.TwoPower) (he : sb.appendChars c = .ok sb') : sb'.TwoPower := by
  cases c with
  | none   =>
    cases he
    exact h
  | some s =>
    have ⟨sb₁, hr, he⟩ := bind_eq_ok he
    have ⟨n, _, he⟩ := bind_eq_ok he
    have ⟨hdl, _, he⟩ := bind_eq_ok he
    have ⟨len, _, he⟩ := bind_eq_ok he
    cases he
    exact (h.reserve hr).congr rfl

theorem appendBlock {data : Option Text} {size : ℕ} (h : sb.TwoPower) (he : sb.appendBlock data size = .ok sb') :
    sb'.TwoPower := by
  cases data with
  | none   =>
    cases he
    exact h
  | some s =>
    have ⟨sb₁, hr, he⟩ := bind_eq_ok he
    have ⟨hdl₁, _, he⟩ := bind_eq_ok he
    have ⟨len, _, he⟩ := bind_eq_ok he
    have ⟨hdl, _, he⟩ := bind_eq_ok he
    cases he
    exact (h.reserve hr).congr rfl

theorem foldlM {cs : List (Option Text)} (h : sb.TwoPower)
    (he : cs.foldlM UtilStringBuffer.appendChars sb = .ok sb') : sb'.TwoPower := by
  induction cs generalizing sb with
  | nil          =>
    cases he
    exact h
  | cons c cs hi =>
    have ⟨sb₁, hc, he⟩ := bind_eq_ok he
    exact hi (h.appendChars hc) he

theorem call {c : Call} (h : sb.TwoPower) (he : sb.call c = .ok sb') : sb'.TwoPower := by
  by_cases hr : c = .reset
  · subst hr
    change sb.reset = .ok sb' at he
    rw [UtilStringBuffer.reset] at he
    split at he
    · have ⟨hdl, _, he⟩ := bind_eq_ok he
      cases he
      exact h.congr rfl
    · cases he
      exact h.congr rfl
  by_cases hb : ∃ data size, c = .appendBlock data size
  · obtain ⟨data, size, rfl⟩ := hb
    exact h.appendBlock he
  · rw [(call_append (t := []) (fun data size he => hb ⟨data, size, he⟩) hr).left] at he
    exact h.foldlM he

end TwoPower

-- The library creates its buffers with one of four sizes, and it clones none.
def Action.Library : Action → Prop
  | .create s => s = 32 ∨ s = 64 ∨ s = 256 ∨ s = 2048
  | .call ..  => True
  | .clone _  => False

def Capacity (max : ℤ) : Prop :=
  ∃ l, system.Run (fun _ a => a.Library) l ∧ ∃ u ∈ l, u.sb.max = max

theorem Action.Library.create {s : ℤ} (h : (Action.create s).Library) :
    ∃ sb, newStringBuffer s = .ok sb ∧ sb.max = s ∧ sb.TwoPower := by
  have hs : (0 < s ∧ s < 2 ^ 31) ∧ ∃ j ≤ 30, s = 2 ^ j := by
    rcases h with rfl | rfl | rfl | rfl
    · exact ⟨by omega, 5, by omega, rfl⟩
    · exact ⟨by omega, 6, by omega, rfl⟩
    · exact ⟨by omega, 8, by omega, rfl⟩
    · exact ⟨by omega, 11, by omega, rfl⟩
  obtain ⟨⟨h0, hs⟩, j, hj, hp⟩ := hs
  have ⟨sb, he, _, hm⟩ := newStringBuffer_holding h0.le hs
  rw [if_neg h0.ne'] at hm
  exact ⟨sb, he, hm, j, hj, hm.trans hp⟩

theorem Capacity.two_pow {max : ℤ} (h : Capacity max) : ∃ j ≤ 30, max = 2 ^ j := by
  obtain ⟨l, r, u, hu, rfl⟩ := h
  revert u
  refine r.invariant (I := fun l => ∀ u ∈ l, u.sb.TwoPower) (fun u hu => absurd hu List.not_mem_nil) ?_
  intro l a l' hl ha e u hu
  change (step l a).toOption = some l' at e
  have he : step l a = .ok l' := by
    cases hs : step l a with
    | error _ =>
      rw [hs] at e
      cases e
    | ok l₁   =>
      rw [hs] at e
      rw [Option.some.inj e]
  clear e
  cases a with
  | create s =>
    have ⟨sb, hc, _, hp⟩ := ha.create
    rw [step, hc] at he
    cases he
    rcases List.mem_append.mp hu with hu | hu
    · exact hl u hu
    · exact List.mem_singleton.mp hu ▸ hp
  | call i c =>
    cases hi : l[i]? with
    | none    =>
      rw [step, hi] at he
      cases he
      exact hl u hu
    | some u₁ =>
      rw [step, hi] at he
      have ⟨sb, hc, he⟩ := bind_eq_ok he
      cases he
      rcases List.mem_or_eq_of_mem_set hu with hm | rfl
      · exact hl u hm
      · exact (hl u₁ (List.mem_of_getElem? hi)).call hc
  | clone i  => exact ha.elim

-- The loop ends behind the number, and what `realloc` is asked for is an `int` that is not negative.
def Grows (sb : UtilStringBuffer) (sl : ℤ) : Prop :=
  ∃ sb', sb.reserve sl = .ok sb' ∧ sb.len + sl + 1 < sb'.max ∧ 0 ≤ sb'.max + 2 ∧ sb'.max + 2 < 2 ^ 31

section TwoPowers

variable {j : ℕ} (hj : j ≤ 30) (hm : sb.max = 2 ^ j) (h0 : 0 ≤ sl + sb.len)
include hj hm h0

theorem grows_below (hlt : sl + sb.len + 1 < 2 ^ 30) : sb.Grows sl := by
  have hpos : (0 : ℤ) < 2 ^ j := by positivity
  have hle : (2 : ℤ) ^ j ≤ 2 ^ 30 := pow_le_pow_right₀ (by omega) hj
  have hstart : start sb.max = 2 ^ j := by rw [start, hm, if_neg hpos.ne']
  rw [Grows, reserve_eq h0 (by omega), hstart]
  by_cases hn : sl + sb.len + 1 ≥ sb.max
  · rw [if_pos hn]
    rcases doubled_two_pow (sl + sb.len + 1) hj with ⟨-, k, he, hk, hle'⟩ | ⟨hge, -⟩
    · have hpow : (2 : ℤ) ^ (j + k) ≤ 2 ^ 30 := pow_le_pow_right₀ (by omega) hle'
      refine ⟨⟨Cells.resize sb.hdl (size_t (2 ^ (j + k) + 2)).toNat, 2 ^ (j + k), sb.len⟩, ?_, ?_, ?_, ?_⟩
      · rw [he]
        refine (pure_bind ((2 : ℤ) ^ (j + k)) _).trans ?_
        rw [checked_eq (by omega) (by omega)]
        rfl
      all_goals
        dsimp only
        omega
    · omega
  · rw [if_neg hn]
    exact ⟨sb, rfl, by omega, by omega, by omega⟩

theorem reserve_overflow (hge : 2 ^ 30 ≤ sl + sb.len + 1) (hlt : sl + sb.len + 1 < 2 ^ 31) :
    sb.reserve sl = .error .overflow := by
  have hpos : (0 : ℤ) < 2 ^ j := by positivity
  have hle : (2 : ℤ) ^ j ≤ 2 ^ 30 := pow_le_pow_right₀ (by omega) hj
  have hstart : start sb.max = 2 ^ j := by rw [start, hm, if_neg hpos.ne']
  rw [reserve_eq h0 hlt, hstart, if_pos (by omega)]
  rcases doubled_two_pow (sl + sb.len + 1) hj with ⟨hb, -⟩ | ⟨-, he⟩
  · omega
  · rw [he]
    rfl

theorem not_grows_above (hge : 2 ^ 30 ≤ sl + sb.len + 1) (hlt : sl + sb.len + 1 < 2 ^ 31) : ¬ sb.Grows sl := by
  rintro ⟨sb', hr, -⟩
  rw [reserve_overflow hj hm h0 hge hlt] at hr
  cases hr

end TwoPowers

theorem grows_iff {max : ℤ} (hc : Capacity max) (hdl : List (Option UInt8)) {len size : ℕ} (h : len + size + 4 < 2 ^ 31) :
    Grows ⟨hdl, max, len⟩ (int size) ↔ len + size + 1 < 2 ^ 30 := by
  have ⟨j, hj, hm⟩ := hc.two_pow
  have hint : int size = size := int_eq (by omega) (by omega)
  rw [hint]
  constructor
  · intro hg
    by_contra hge
    exact not_grows_above hj hm (by dsimp only; omega) (by dsimp only; omega) (by dsimp only; omega) hg
  · intro hlt
    exact grows_below hj hm (by dsimp only; omega) (by dsimp only; omega)

theorem step_some {l l' : List Use} {a : Action} (h : step l a = .ok l') : system.step l a = some l' :=
  congrArg Except.toOption h

theorem exists_created : ∃ sb, step [] (.create 2048) = .ok [⟨sb, []⟩] ∧ sb.max = 2 ^ 11 ∧ sb.len = 0 := by
  have ⟨sb, he, h, hm⟩ := newStringBuffer_holding (n := 2048) (by omega) (by omega)
  refine ⟨sb, ?_, hm, h.len⟩
  rw [step, he]
  rfl

theorem capacity_2048 : Capacity 2048 := by
  have ⟨sb, he, hm, _⟩ := exists_created
  have hlib : (Action.create 2048).Library := .inr (.inr (.inr rfl))
  exact ⟨[⟨sb, []⟩], .step .init hlib (step_some he), _, List.mem_singleton_self _, hm⟩

theorem grows_iff_received : Grows ⟨[], 2048, 0⟩ (int 4000) ↔ 0 + 4000 + 1 < 2 ^ 30 :=
  @grows_iff 2048 capacity_2048 [] 0 4000 (by omega)

-- A response that the buffer of a client does not grow for.

theorem not_grows : ¬ ∀ max, Capacity max → ∀ (hdl : List (Option UInt8)) (len size : ℕ), len + size + 4 < 2 ^ 31 →
    Grows ⟨hdl, max, len⟩ (int size) := by
  intro hall
  have hint : int (2 ^ 30 - 1 : ℕ) = 2 ^ 30 - 1 := rfl
  have hg := hall 2048 capacity_2048 [] 0 (2 ^ 30 - 1) (by omega)
  rw [hint] at hg
  exact not_grows_above (j := 11) (by omega) rfl (by decide) (by decide) (by decide) hg

theorem not_concatenated : ¬ ∀ l, system.Run (fun l a => a.Sound l) l →
    (∀ u ∈ l, u.Concatenated) ∧ ∀ a : Action, a.Sound l → ∃ l', step l a = .ok l' := by
  intro hall
  have ⟨sb, he, hm, hl⟩ := exists_created
  have hsound : (Action.create 2048).Sound [] := ⟨by omega, by omega⟩
  have r : system.Run (fun l a => a.Sound l) [⟨sb, []⟩] := .step .init hsound (step_some he)
  obtain ⟨data, hlen, hclean⟩ : ∃ data : Text, data.length = 2 ^ 30 - 1 ∧ 0 ∉ data :=
    ⟨List.replicate (2 ^ 30 - 1) 97, List.length_replicate, fun h0 => by cases List.eq_of_mem_replicate h0⟩
  have hcall : Call.Sound (.appendBlock (some data) (2 ^ 30 - 1)) := by
    refine ⟨fun s hs h0 => ?_, fun d n hd => ?_⟩
    · obtain rfl := Option.some.inj (List.mem_singleton.mp hs)
      exact hclean (List.mem_of_mem_take h0)
    · cases hd
      exact hlen.ge
  have hcontent : (Call.content (.appendBlock (some data) (2 ^ 30 - 1)) []).length < 2 ^ 30 := by
    rw [Call.content, List.nil_append, Option.getD_some, List.length_take]
    omega
  have hs : (Action.call 0 (.appendBlock (some data) (2 ^ 30 - 1))).Sound [⟨sb, []⟩] := by
    intro u hu
    cases hu
    exact ⟨hcall, hcontent⟩
  have ⟨l', hstep⟩ := (hall _ r).right _ hs
  have hint : int (2 ^ 30 - 1 : ℕ) = 2 ^ 30 - 1 := rfl
  have ⟨sb', hb, _⟩ := bind_eq_ok hstep
  have ⟨sb₁, hr, _⟩ := bind_eq_ok (show sb.appendBlock (some data) (2 ^ 30 - 1) = .ok sb' from hb)
  rw [hint, reserve_overflow (j := 11) (by omega) hm (by omega) (by omega) (by omega)] at hr
  cases hr

end UtilStringBuffer
end Sfcc
