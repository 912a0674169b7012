import Mathlib.Data.List.TakeWhile
import Sfcc.Payload
import Sfcc.Theorems.Listener

namespace Sfcc.Listener

section Placed

variable {i n : ℤ} {s t : Text} {w : ℤ × UInt8}

theorem placed_append (i : ℤ) (s t : Text) : placed i (s ++ t) = placed i s ++ placed (i + s.length) t := by
  induction s generalizing i with
  | nil         => simp [placed]
  | cons b s hi =>
    have he : i + ((b :: s).length : ℤ) = i + 1 + s.length := by
      rw [List.length_cons]
      omega
    rw [List.cons_append, placed, placed, hi, he, List.cons_append]

@[simp]
theorem placed_length (i : ℤ) (t : Text) : (placed i t).length = t.length := by
  induction t generalizing i with
  | nil         => rfl
  | cons b t hi => simp [placed, hi]

theorem placed_bounds (h : w ∈ placed i t) : i ≤ w.1 ∧ w.1 < i + t.length := by
  induction t generalizing i with
  | nil         => cases h
  | cons b t hi =>
    simp only [placed, List.mem_cons] at h
    rw [List.length_cons]
    cases h with
    | inl h =>
      subst h
      constructor <;> simp only <;> omega
    | inr h =>
      have := hi h
      constructor <;> omega

end Placed

section Reads

variable {n : ℤ} {s s' : Reading} {r : Read} {rs rs' : List Read}

@[simp]
theorem received_append (rs rs' : List Read) : received (rs ++ rs') = received rs ++ received rs' :=
  List.flatMap_append ..

@[simp]
theorem received_singleton (r : Read) : received [r] = r.data :=
  List.flatMap_singleton ..

-- The bytes of some reads, less the reads that failed.
def level (rs : List Read) : ℤ :=
  (received rs).length - rs.count .failed

theorem turn_some (h : s.turn n r = some s') : s.c < n ∧ n - s.c < 2 ^ 31 ∧ s' = s.next n r := by
  rw [Reading.turn] at h
  split at h
  · cases h
  · cases h
    refine ⟨?_, ?_, rfl⟩ <;> omega

theorem turn_eq (hc : s.c < n) (hn : n - s.c < 2 ^ 31) (r : Read) : s.turn n r = some (s.next n r) := by
  rw [Reading.turn, if_neg (by omega)]

theorem after_concat (n : ℤ) (rs : List Read) (r : Read) :
    readDataAfter n (rs ++ [r]) = readDataAfter n rs >>= fun s => s.turn n r :=
  Transition.System.exec_concat rs r

theorem after_concat_some (h : readDataAfter n (rs ++ [r]) = some s') :
    ∃ s, readDataAfter n rs = some s ∧ s.c < n ∧ n - s.c < 2 ^ 31 ∧ s' = s.next n r := by
  rw [after_concat] at h
  have ⟨s, hs, ht⟩ := Option.bind_eq_some_iff.mp h
  exact ⟨s, hs, turn_some ht⟩

theorem after_prefix (hp : rs <+: rs') (h : readDataAfter n rs' = some s') : ∃ s, readDataAfter n rs = some s := by
  have ⟨t, ht⟩ := hp
  rw [← ht, readDataAfter, Transition.System.exec_append] at h
  have ⟨s, hs, _⟩ := Option.bind_eq_some_iff.mp h
  exact ⟨s, hs⟩

-- No byte is stored that was not read, and each failed read turns the counter back.
theorem stored_length (h : readDataAfter n rs = some s) :
    (s.stored.length : ℤ) = s.c + rs.count .failed ∧ s.stored.length ≤ (received rs).length := by
  induction rs using List.reverseRecOn generalizing s with
  | nil                      =>
    cases h
    simp
  | append_singleton rs r hi =>
    have ⟨s₁, h₁, hn, hm, he⟩ := after_concat_some h
    have ⟨hc, hl⟩ := hi h₁
    subst he
    cases r with
    | bytes b bs  =>
      have hle := List.length_take_le' (n - s₁.c).toNat (b :: bs)
      have hcount : (rs ++ [Read.bytes b bs]).count .failed = rs.count .failed := by simp
      simp only [Reading.next, List.length_append, placed_length, hcount, received_append, received_singleton, Read.data]
      push_cast
      omega
    | failed      =>
      have hcount : (rs ++ [Read.failed]).count .failed = rs.count .failed + 1 := by simp
      simp only [Reading.next, hcount, received_append, received_singleton, Read.data, List.append_nil]
      omega
    | closed      =>
      have hcount : (rs ++ [Read.closed]).count .failed = rs.count .failed := by simp
      simp only [Reading.next, hcount, received_append, received_singleton, Read.data, List.append_nil]
      omega
    | interrupted =>
      have hcount : (rs ++ [Read.interrupted]).count .failed = rs.count .failed := by simp
      simp only [Reading.next, hcount, received_append, received_singleton, Read.data, List.append_nil]
      omega

end Reads

section Sound

variable {n : ℕ} {s : Reading} {t : Text} {rs : List Read} {socket : Socket}

-- The first bytes of `into` are stored, in their order.
def Reading.holding (t : Text) : Reading where
  c      := t.length
  stored := placed 0 t

theorem next_holding {r : Read} (h : r ≠ .failed) (t : Text) :
    (Reading.holding t).next n r = .holding (t ++ r.data.take (n - t.length)) := by
  have hn : ((n : ℤ) - (t.length : ℤ)).toNat = n - t.length := by omega
  cases r with
  | bytes b bs           =>
    rw [Reading.next, Reading.holding, Reading.holding, placed_append, List.length_append, Int.zero_add]
    simp only [hn]
    push_cast
    rfl
  | failed               => exact absurd rfl h
  | closed | interrupted => simp [Reading.next, Reading.holding, Read.data]

-- A block that is cut leaves nothing to be read.
theorem take_cut (h : t.length ≤ n) (u v : Text) :
    (t ++ u.take (n - t.length) ++ v).take n = (t ++ (u ++ v)).take n := by
  rw [List.append_assoc, List.take_append, @List.take_append _ t, List.take_append, List.take_append]
  congr 2
  · rw [List.take_take, Nat.min_self]
  · by_cases hu : u.length ≤ n - t.length
    · rw [List.take_of_length_le hu]
    · rw [List.length_take, Nat.min_eq_left (by omega), Nat.sub_self]
      have hz : n - t.length - u.length = 0 := by omega
      rw [hz]

theorem exec_returns (hn : n < 2 ^ 31) (hf : .failed ∉ rs) (ht : t.length ≤ n) (hl : n ≤ (t ++ received rs).length) :
    ∃ rs', rs' <+: rs ∧
      (readData n).exec (.holding t) rs' = some (.holding ((t ++ received rs).take n)) := by
  induction rs generalizing t with
  | nil          =>
    have he : received [] = [] := rfl
    rw [he, List.append_nil] at hl
    refine ⟨[], List.nil_prefix, ?_⟩
    rw [he, List.append_nil, List.take_of_length_le ht]
    rfl
  | cons r rs hi =>
    have ⟨hr, hrs⟩ := not_or.mp (mt List.mem_cons.mpr hf)
    by_cases he : t.length = n
    · refine ⟨[], List.nil_prefix, ?_⟩
      rw [List.take_append_of_le_length he.ge, List.take_of_length_le ht]
      rfl
    · have hc : received (r :: rs) = r.data ++ received rs := rfl
      have hcut := take_cut ht r.data (received rs)
      have hlen := congrArg List.length hcut
      simp only [List.length_take, ← hc, Nat.min_eq_left hl] at hlen
      have ht' : (t ++ r.data.take (n - t.length)).length ≤ n := by
        rw [List.length_append, List.length_take]
        omega
      have ⟨rs', hp, hx⟩ := hi hrs ht' (by omega)
      refine ⟨r :: rs', List.prefix_cons_inj r |>.mpr hp, ?_⟩
      have hturn : (Reading.holding t).turn n r = some (.holding (t ++ r.data.take (n - t.length))) := by
        rw [turn_eq, next_holding (Ne.symm hr)]
        · show (t.length : ℤ) < n
          omega
        · show (n : ℤ) - t.length < 2 ^ 31
          omega
      show ((Reading.holding t).turn n r >>= fun s => (readData n).exec s rs') = _
      rw [hturn, hc, ← hcut]
      exact hx

-- Without a failed read, what is stored are the first bytes that were read.
theorem exec_holding (hf : .failed ∉ rs) (h : readDataAfter n rs = some s) :
    ∃ t : Text, s = .holding t ∧ t.length ≤ n := by
  have hr : (readData n).Run (fun _ r => r ≠ .failed) s := by
    refine .exec .init ?_ h
    intro r hm _ he
    exact hf (he ▸ hm)
  refine hr.invariant (I := fun s => ∃ t : Text, s = .holding t ∧ t.length ≤ n) ⟨[], rfl, Nat.zero_le _⟩ ?_
  intro s r s' ⟨t, ht, hl⟩ hne hs
  have ⟨_, _, he⟩ := turn_some hs
  subst ht
  rw [next_holding hne] at he
  refine ⟨_, he, ?_⟩
  rw [List.length_append, List.length_take]
  omega

theorem not_mem_sound (socket : Socket) : .failed ∉ socket.sound := by
  intro h
  simpa using List.mem_takeWhile_imp h

theorem received_reads (ending : Ending) (k : ℕ) : received (ending.reads k) = [] := by
  cases ending <;> simp [Ending.reads, received, Read.data]

theorem received_extended {rs rs' : List Read} (h : rs <+: rs') : (received rs).length ≤ (received rs').length := by
  have ⟨u, hu⟩ := h
  rw [← hu, received_append, List.length_append]
  exact Nat.le_add_right ..

-- Before a read fails, no bytes come but those up to the first one that fails.
theorem received_le_sound (hg : socket.Gives rs) (hf : .failed ∉ rs) :
    (received rs).length ≤ (received socket.sound).length := by
  have ⟨k, hk⟩ := hg
  have hp : rs <+: (socket.reads ++ socket.ending.reads k).takeWhile (· ≠ .failed) := by
    have ⟨u, hu⟩ := hk
    have ha : ∀ r ∈ rs, (decide (r ≠ .failed)) = true := by
      intro r hr
      have hne : r ≠ .failed := fun he => hf (he ▸ hr)
      simpa using hne
    rw [← hu, List.takeWhile_append_of_pos ha]
    exact List.prefix_append ..
  apply (received_extended hp).trans
  rw [List.takeWhile_append]
  split
  · have hr : received ((socket.ending.reads k).takeWhile (· ≠ .failed)) = [] := by
      have hz := received_extended (List.takeWhile_prefix (fun r => decide (r ≠ .failed)) (l := socket.ending.reads k))
      rw [received_reads] at hz
      exact List.length_eq_zero_iff.mp (Nat.le_zero.mp hz)
    have hs : socket.reads = socket.sound := by
      have hl : socket.sound.length = socket.reads.length := by assumption
      exact ((List.takeWhile_prefix _).eq_of_length hl).symm
    rw [received_append, hr, List.append_nil, ← hs]
  · exact Nat.le_refl _

theorem returns_sound (hn : n < 2 ^ 31) (h : n ≤ (received socket.sound).length) :
    ∃ rs, rs <+: socket.sound ∧ readDataAfter n rs = some (.holding ((received socket.sound).take n)) :=
  exec_returns (t := []) hn (not_mem_sound socket) (Nat.zero_le _) h

-- Of all reads that may come, those before the loop ends are looked at only.
theorem prefix_of_returns {rs' : List Read} {s' : Reading} (hg : socket.Gives rs) (hs : readDataAfter n rs = some s)
    (hp : rs' <+: socket.sound) (hr : readDataAfter n rs' = some s') (hc : n ≤ s'.c) : rs <+: rs' := by
  have ⟨k, hk⟩ := hg
  have hk' : rs' <+: socket.reads ++ socket.ending.reads k :=
    (hp.trans (List.takeWhile_prefix _)).trans (List.prefix_append ..)
  cases List.prefix_or_prefix_of_prefix hk hk' with
  | inl h => exact h
  | inr h =>
    have ⟨u, hu⟩ := h
    cases u with
    | nil      =>
      rw [List.append_nil] at hu
      exact hu ▸ List.prefix_rfl
    | cons r u =>
      have hp₁ : rs' ++ [r] <+: rs := ⟨u, by rw [← hu, List.append_assoc]; rfl⟩
      have ⟨s₁, h₁⟩ := after_prefix hp₁ hs
      have ⟨s₂, h₂, hlt, _⟩ := after_concat_some h₁
      cases hr.symm.trans h₂
      omega

-- What `readData` is to do with `n` bytes.
structure ReadsExactly (n : ℕ) (socket : Socket) : Prop where
  returns : ∃ rs s, socket.Gives rs ∧ readDataAfter n rs = some s ∧ n ≤ s.c
  bounds  : ∀ rs s, socket.Gives rs → readDataAfter n rs = some s → ∀ w ∈ s.stored, 0 ≤ w.1 ∧ w.1 < n
  first   : n ≤ socket.delivered.length → ∃ rs s, socket.Gives rs ∧ readDataAfter n rs = some s ∧ s.c = n ∧
    s.stored = placed 0 (socket.delivered.take n)

theorem Socket.gives_of_prefix (h : rs <+: socket.reads) : socket.Gives rs :=
  ⟨0, h.trans (List.prefix_append ..)⟩

-- Enough bytes have to come before the stream ends or a read fails.
theorem readsExactly_iff (hn : n < 2 ^ 31) : ReadsExactly n socket ↔ n ≤ (received socket.sound).length := by
  have hsound : socket.sound <+: socket.reads := List.takeWhile_prefix _
  constructor
  · intro h
    by_contra hl
    have hfree : ∀ rs s, socket.Gives rs → readDataAfter n rs = some s → n ≤ s.c → .failed ∈ rs := by
      intro rs s hg hs hc
      by_contra hf
      have ⟨he, hle⟩ := stored_length hs
      have hr := received_le_sound hg hf
      rw [List.count_eq_zero.mpr hf] at he
      omega
    have ⟨rs, s, hg, hs, hc⟩ := h.returns
    have ⟨he, hle⟩ := stored_length hs
    have hd : (received rs).length ≤ socket.delivered.length := by
      have ⟨k, hk⟩ := hg
      have := received_extended hk
      rwa [received_append, received_reads, List.append_nil] at this
    have ⟨rs₁, s₁, hg₁, hs₁, hc₁, hstored⟩ := h.first (by omega)
    have hpos := List.count_pos_iff.mpr (hfree rs₁ s₁ hg₁ hs₁ (by omega))
    have ⟨he₁, _⟩ := stored_length hs₁
    rw [hstored, placed_length, List.length_take] at he₁
    omega
  · intro hl
    have ⟨rs', hp, hr⟩ := returns_sound hn hl
    have hlen : ((received socket.sound).take n).length = n := List.length_take_of_le hl
    have hc : (n : ℤ) ≤ (Reading.holding ((received socket.sound).take n)).c := by
      show (n : ℤ) ≤ ((received socket.sound).take n).length
      omega
    constructor
    · exact ⟨rs', _, Socket.gives_of_prefix (hp.trans hsound), hr, hc⟩
    · intro rs s hg hs w hw
      have hpre := prefix_of_returns hg hs hp hr hc
      have hf : .failed ∉ rs := fun hm => not_mem_sound socket (hp.subset (hpre.subset hm))
      have ⟨t, ht, hle⟩ := exec_holding hf hs
      subst ht
      have hb := placed_bounds hw
      omega
    · intro _
      refine ⟨rs', _, Socket.gives_of_prefix (hp.trans hsound), hr, by rw [Reading.holding, hlen], ?_⟩
      have ⟨u, hu⟩ := hsound
      rw [Socket.delivered, ← hu, received_append, List.take_append_of_le_length hl]
      rfl

theorem readsExactly_iff_two :
    ReadsExactly 2 ⟨[.interrupted, .bytes 97 [98, 99]], .closed⟩ ↔
      2 ≤ (received (Socket.sound ⟨[.interrupted, .bytes 97 [98, 99]], .closed⟩)).length :=
  readsExactly_iff (by decide)

-- The stream is over before the payload is.
theorem not_readsExactly_short : ¬ ∀ (n : ℕ) (socket : Socket), n < 2 ^ 31 → ReadsExactly n socket := by
  intro h
  have ⟨rs, s, ⟨k, hk⟩, hs, hc⟩ := (h 10 ⟨[.bytes 97 [98, 99]], .closed⟩ (by decide)).returns
  have ⟨he, hle⟩ := stored_length hs
  have hr := received_extended hk
  rw [received_append, received_reads] at hr
  have h3 : (received [Read.bytes 97 [98, 99]] ++ []).length = 3 := rfl
  simp only [h3] at hr
  omega

end Sound

section Fits

variable {n content_length : ℤ} {s : Reading} {rs : List Read} {data : Text} {socket : Socket}

-- The loop of `readData` goes on after some reads.
def Runs (n : ℤ) (rs : List Read) : Prop :=
  ∀ p, p <+: rs → level p < n ∧ n - level p < 2 ^ 31

theorem Runs.earlier {rs' : List Read} (h : Runs n rs') (hp : rs <+: rs') : Runs n rs :=
  fun p hr => h p (hr.trans hp)

theorem level_concat (rs : List Read) (r : Read) : level (rs ++ [r]) = level rs + level [r] := by
  simp only [level, received_append, List.length_append, List.count_append]
  push_cast
  omega

-- The counter is what the reads come to, if the last one is not cut.
theorem c_eq (h : readDataAfter n rs = some s) : s.c = level rs ∨ s.c = n ∧ n ≤ level rs := by
  induction rs using List.reverseRecOn generalizing s with
  | nil                      =>
    cases h
    exact .inl rfl
  | append_singleton rs r hi =>
    have ⟨s₁, h₁, hn, hm, he⟩ := after_concat_some h
    have hc : s₁.c = level rs := by
      have := hi h₁
      omega
    subst he
    rw [level_concat, ← hc]
    cases r with
    | bytes b bs  =>
      have hl : level [.bytes b bs] = (b :: bs).length := by simp [level, Read.data]
      have hle := List.length_take (i := (n - s₁.c).toNat) (l := b :: bs)
      simp only [Reading.next, hl]
      omega
    | failed      => exact .inl rfl
    | closed      => exact .inl (Int.add_zero _).symm
    | interrupted => exact .inl (Int.add_zero _).symm

theorem runs_of_concat {r : Read} {s' : Reading} (h : readDataAfter n (rs ++ [r]) = some s') : Runs n rs := by
  intro p hp
  have ⟨u, hu⟩ := hp
  have ⟨r', hr⟩ : ∃ r', p ++ [r'] <+: rs ++ [r] := by
    cases u with
    | nil       => exact ⟨r, by rw [← hu, List.append_nil]⟩
    | cons r' u => exact ⟨r', u ++ [r], by rw [← hu]; simp⟩
  have ⟨s₁, h₁⟩ := after_prefix hr h
  have ⟨s₂, h₂, hlt, hm, _⟩ := after_concat_some h₁
  have := c_eq h₂
  omega

theorem Runs.after (h : Runs n rs) : ∃ s, readDataAfter n rs = some s ∧ s.c = level rs := by
  induction rs using List.reverseRecOn with
  | nil                      => exact ⟨{}, rfl, rfl⟩
  | append_singleton rs r hi =>
    have hp : rs <+: rs ++ [r] := List.prefix_append ..
    have ⟨s, hs, hc⟩ := hi (h.earlier hp)
    have ⟨hlt, hm⟩ := h rs hp
    have ⟨hlt', _⟩ := h (rs ++ [r]) List.prefix_rfl
    have ha : readDataAfter n (rs ++ [r]) = some (s.next n r) := by
      rw [after_concat, hs]
      exact turn_eq (by omega) (by omega) r
    have := c_eq ha
    exact ⟨_, ha, by omega⟩

theorem mem_stored {w : ℤ × UInt8} (h : readDataAfter n rs = some s) (hw : w ∈ s.stored) :
    ∃ rs' b bs, rs' ++ [.bytes b bs] <+: rs ∧ Runs n rs' ∧ level rs' ≤ w.1 ∧ w.1 < n := by
  induction rs using List.reverseRecOn generalizing s with
  | nil                      =>
    cases h
    cases hw
  | append_singleton rs r hi =>
    have ⟨s₁, h₁, hn, hm, he⟩ := after_concat_some h
    have hold (hw : w ∈ s₁.stored) :
        ∃ rs' b bs, rs' ++ [.bytes b bs] <+: rs ++ [r] ∧ Runs n rs' ∧ level rs' ≤ w.1 ∧ w.1 < n := by
      have ⟨rs', b, bs, hp, hb⟩ := hi h₁ hw
      exact ⟨rs', b, bs, hp.trans (List.prefix_append ..), hb⟩
    subst he
    cases r with
    | bytes b bs           =>
      cases List.mem_append.mp hw with
      | inl hw => exact hold hw
      | inr hw =>
        have hc := c_eq h₁
        have hb := placed_bounds hw
        have hle := List.length_take_le (n - s₁.c).toNat (b :: bs)
        exact ⟨rs, b, bs, List.prefix_rfl, runs_of_concat h, by omega, by omega⟩
    | failed               => exact hold hw
    | closed | interrupted => exact hold hw

theorem mem_placed {i : ℤ} {t : Text} {k : ℕ} (h : k < t.length) : ∃ b, (i + k, b) ∈ placed i t := by
  induction t generalizing i k with
  | nil         => cases h
  | cons b t hi =>
    cases k with
    | zero   => exact ⟨b, by simp [placed]⟩
    | succ k =>
      have ⟨b', hb⟩ := hi (i := i + 1) (Nat.lt_of_succ_lt_succ h)
      refine ⟨b', List.mem_cons_of_mem _ ?_⟩
      have he : i + 1 + (k : ℤ) = i + ((k + 1 : ℕ) : ℤ) := by
        push_cast
        omega
      exact he ▸ hb

-- Whatever is written lies in what was allocated, the size of which is an `int`.
structure PayloadFits (content_length : ℤ) (data : Text) (socket : Socket) : Prop where
  size   : content_length + 8 < 2 ^ 31
  writes : ∀ rs ws, socket.Gives rs → payloadWrites content_length data rs = some ws →
    ∀ w ∈ ws, 0 ≤ w.1 ∧ w.1 < content_length + 8

-- No bytes come when more reads failed than there are bytes before.
def Anchored (content_length : ℤ) (data : Text) (socket : Socket) : Prop :=
  ∀ rs b bs, socket.Gives (rs ++ [.bytes b bs]) → Runs (content_length - data.length) rs → 0 ≤ data.length + level rs

theorem PayloadFits.copied (h : PayloadFits content_length data socket) (hpos : 0 ≤ content_length) :
    data.length ≤ content_length + 8 := by
  by_contra hl
  have ⟨b, hb⟩ := mem_placed (i := 0) (t := data) (k := (content_length + 8).toNat) (by omega)
  have := h.writes [] _ ⟨0, List.nil_prefix⟩ rfl _ (List.mem_append_left _ (List.mem_append_left _ hb))
  simp only at this
  omega

theorem PayloadFits.anchored (h : PayloadFits content_length data socket) : Anchored content_length data socket := by
  intro rs b bs hg hr
  have ⟨s, hs, hc⟩ := hr.after
  have ⟨hlt, hm⟩ := hr rs List.prefix_rfl
  have ha : readDataAfter (content_length - data.length) (rs ++ [.bytes b bs]) =
      some (s.next (content_length - data.length) (.bytes b bs)) := by
    rw [after_concat, hs]
    exact turn_eq (by omega) (by omega) _
  have hb : (level rs, b) ∈ (s.next (content_length - data.length) (.bytes b bs)).stored := by
    have ⟨k, hk⟩ : ∃ k, (content_length - data.length - s.c).toNat = k + 1 := Nat.exists_eq_succ_of_ne_zero (by omega)
    apply List.mem_append_right
    rw [hk, hc]
    exact List.mem_cons_self ..
  have hw := h.writes _ _ hg (congrArg (Option.map _) ha) (data.length + level rs, b)
  have hmem := List.mem_map_of_mem (f := fun w : ℤ × UInt8 => ((data.length : ℤ) + w.1, w.2)) hb
  exact (hw (List.mem_append_left _ (List.mem_append_right _ hmem))).left

theorem fits_iff (h : 0 ≤ content_length) (data : Text) (socket : Socket) :
    PayloadFits content_length data socket ↔ content_length + 8 < 2 ^ 31 ∧ data.length ≤ content_length + 8 ∧
      Anchored content_length data socket := by
  constructor
  · intro hf
    exact ⟨hf.size, hf.copied h, hf.anchored⟩
  · intro ⟨hs, hd, ha⟩
    refine ⟨hs, ?_⟩
    intro rs ws hg hw w hm
    have ⟨s, hr, he⟩ := Option.map_eq_some_iff.mp hw
    subst he
    simp only [List.mem_append, List.mem_map] at hm
    cases hm with
    | inl hm =>
      cases hm with
      | inl hm =>
        have := placed_bounds hm
        omega
      | inr hm =>
        have ⟨v, hv, he⟩ := hm
        subst he
        have ⟨rs', b, bs, hp, hrun, hle, hlt⟩ := mem_stored hr hv
        have ⟨k, hk⟩ := hg
        have := ha rs' b bs ⟨k, hp.trans hk⟩ hrun
        constructor <;> simp only <;> omega
    | inr hm =>
      split at hm
      · cases List.mem_singleton.mp hm
        constructor <;> simp only <;> omega
      · cases hm

end Fits

-- Through the headers.

section

variable {stale data hdr rest t : Text} {conn conn' : List Text} {b b' : Buffer} {socket : Socket}

theorem beforePayload_eq (hdr : Text) (hg : getHdrs stale conn (bytes "POST ") = (0, data, conn')) (hne : data ≠ [])
    (hn : getNextHdr data = some (hdr, rest)) (hr : Buffer.requestLine {} hdr = some b)
    (hl : readLines b rest = (b', t)) (hc : ¬ b'.content_length < 0) :
    beforePayload stale conn = some (b', t, conn') := by
  have h1 : ¬ (0 : ℕ) = 1 := by decide
  have h2 : ¬ (0 : ℕ) = 2 := by decide
  rw [beforePayload, hg]
  simp only [if_neg h1, if_neg h2, if_neg hne, hn, Option.getD_some, hr, hl, if_neg hc]

-- What comes of a payload.
theorem handleConnection_payload (h : beforePayload stale conn = some (b, data, conn')) :
    handleConnection stale conn = match getPayload b data conn' with
      | .error _           => .faults b.responses
      | .ok none           => .hangs b.responses
      | .ok (some content) =>
        if b.discardInput ≠ 0 then .discards b.responses else .processes (b.genError 200).responses content := by
  rw [beforePayload] at h
  rw [handleConnection]
  simp only at h ⊢
  split at h
  · cases h
  · split at h
    · cases h
    · split at h
      · cases h
      · rename_i hne _ _ hr hc
        cases h
        simp only [if_neg hne, hr, if_neg hc] <;> rfl

theorem beforePayload_nonneg (h : beforePayload stale conn = some (b, data, conn')) : 0 ≤ b.content_length.toInt := by
  rw [beforePayload] at h
  simp only at h
  split at h
  · cases h
  · split at h
    · cases h
    · split at h
      · cases h
      · rename_i hc
        cases h
        rw [Int32.lt_iff_toInt_lt] at hc
        simpa using hc

-- The payload stays in its buffer if its length leaves room for 8 more bytes in an `int` and so many bytes
-- at most come too many with the headers.
theorem payloadFits_iff (h : beforePayload stale conn = some (b, data, conn')) (socket : Socket) :
    PayloadFits b.content_length.toInt data socket ↔
      b.content_length.toInt + 8 < 2 ^ 31 ∧ data.length ≤ b.content_length.toInt + 8 ∧
        Anchored b.content_length.toInt data socket :=
  fits_iff (beforePayload_nonneg h) data socket

end

-- The reads of what arrives in segments.
def segmentReads (conn : List Text) : List Read :=
  conn.flatMap fun
    | []      => []
    | b :: bs => [.bytes b bs]

theorem not_mem_segmentReads (conn : List Text) : .failed ∉ segmentReads conn := by
  intro h
  have ⟨s, _, hs⟩ := List.mem_flatMap.mp h
  cases s with
  | nil       => cases hs
  | cons b bs => cases List.mem_singleton.mp hs

theorem anchored_segments (content_length : ℤ) (data : Text) (conn : List Text) (ending : Ending) :
    Anchored content_length data ⟨segmentReads conn, ending⟩ := by
  intro rs b bs ⟨k, hk⟩ _
  have hp : rs <+: segmentReads conn := by
    cases List.prefix_or_prefix_of_prefix ((List.prefix_append ..).trans hk)
        (List.prefix_append (segmentReads conn) (ending.reads k)) with
    | inl h => exact h
    | inr h =>
      have ⟨u, hu⟩ := h
      have hm : .bytes b bs ∈ ending.reads k := by
        rw [← hu, List.append_assoc, List.prefix_append_right_inj] at hk
        exact hk.subset (List.mem_append_right _ (List.mem_singleton_self _))
      have hr := received_reads ending k
      have : (b :: bs : Text) = [] := by
        apply List.eq_nil_iff_forall_not_mem.mpr
        intro c hc
        have hin : c ∈ received (ending.reads k) := List.mem_flatMap.mpr ⟨_, hm, hc⟩
        rw [hr] at hin
        cases hin
      cases this
  have hz : rs.count .failed = 0 := List.count_eq_zero.mpr fun h => not_mem_segmentReads conn (hp.subset h)
  rw [level, hz]
  omega

-- `getPayload` breaks on segments where it writes outside of its buffer.
theorem getPayload_error_iff {b : Buffer} (h : 0 ≤ b.content_length.toInt) (data : Text) (conn : List Text)
    (ending : Ending) : getPayload b data conn = .error .wild ↔
      ¬ PayloadFits b.content_length.toInt data ⟨segmentReads conn, ending⟩ := by
  have ha := anchored_segments b.content_length.toInt data conn ending
  obtain ⟨n, hn⟩ := Int.eq_ofNat_of_zero_le h
  rw [fits_iff h, getPayload, hn, Int.toNat_natCast]
  split
  · constructor
    · rintro _ ⟨h₁, h₂, _⟩
      omega
    · intro _
      rfl
  · rename_i hc
    constructor
    · intro he
      cases he
    · intro hne
      exact absurd ⟨by omega, by omega, hn ▸ ha⟩ hne

-- A request that arrives as a whole.

theorem getHdrs_whole {text cmd : Text} (stale : Text) (hne : text ≠ []) (hl : text.length ≤ hdrBufsize)
    (hc : cmd.length ≤ text.length) (hb : begins cmd text) (he : hdrsEnd text) :
    getHdrs stale [text] cmd = (0, text, []) := by
  have hr : Segments.read hdrBufsize [text] = (text, []) := by rw [Segments.read, if_pos hl]
  have hs : begins cmd (text ++ stale.drop text.length) := by
    rwa [begins, List.take_append_of_le_length hc]
  rw [getHdrs, readHdrs]
  simp only [hr, if_neg hne, hs, List.nil_append, he, if_true, not_true_eq_false, and_false, if_false]

def Request.text (r : Request) : Text :=
  r.head ++ r.body

theorem Request.beforePayload_ping : beforePayload [] [ping.text] =
    some ({ protocol := bytes "HTTP/1.1", content_length := 1 }, bytes "x", []) := by
  have hg : Listener.getHdrs [] [ping.text] (bytes "POST ") = (0, ping.text, []) :=
    getHdrs_whole [] (by decide) (by decide) (by decide) (by decide) (by decide)
  have hl := readLines_lines ping_valid.headers { protocol := bytes "HTTP/1.1" } (bytes "x")
  exact beforePayload_eq (bytes "POST / HTTP/1.1") hg (by decide) (by decide) rfl hl (by decide)

theorem payloadFits_iff_ping :
    PayloadFits 1 (bytes "x") ⟨[], .closed⟩ ↔ (1 : ℤ) + 8 < 2 ^ 31 ∧ ((bytes "x").length : ℤ) ≤ 1 + 8 ∧
      Anchored 1 (bytes "x") ⟨[], .closed⟩ :=
  payloadFits_iff Request.beforePayload_ping ⟨[], .closed⟩

-- Nine bytes come behind the headers of a request that announces none.
def Request.flood : Request where
  path    := bytes "/"
  headers := [bytes "Content-Length: 0"]
  body    := bytes "xxxxxxxxx"

theorem Request.beforePayload_flood : beforePayload [] [flood.text] =
    some ({ protocol := bytes "HTTP/1.1", content_length := 0 }, bytes "xxxxxxxxx", []) := by
  have hg : Listener.getHdrs [] [flood.text] (bytes "POST ") = (0, flood.text, []) :=
    getHdrs_whole [] (by decide) (by decide) (by decide) (by decide) (by decide)
  have hh : ∀ l ∈ flood.headers, l ≠ [] ∧ Line l := by unfold Line; decide
  have hl := readLines_lines hh { protocol := bytes "HTTP/1.1" } (bytes "xxxxxxxxx")
  exact beforePayload_eq (bytes "POST / HTTP/1.1") hg (by decide) (by decide) rfl hl (by decide)

theorem not_payloadFits_flood : ¬ ∀ (stale : Text) (conn : List Text) (b : Buffer) (data : Text) (conn' : List Text),
    beforePayload stale conn = some (b, data, conn') → ∀ socket, PayloadFits b.content_length.toInt data socket := by
  intro h
  have hf := h _ _ _ _ _ Request.beforePayload_flood ⟨[], .closed⟩
  exact absurd (hf.copied (by decide)) (by decide)

end Sfcc.Listener
