import Mathlib.Algebra.BigOperators.Group.List.Basic
import Mathlib.Algebra.Ring.Int.Defs
import Mathlib.Data.List.Range
import Sfcc.Progress

namespace Sfcc

-- A clock reading and the next one.
def Plausible (p q : Progress) : Prop :=
  p.timestampNow ≤ q.timestampNow ∧ q.timestampNow ≤ p.timestampNow + MAX_PLAUSIBLE_PROGRESS

namespace TimeoutControl

variable {timeout : TimeoutControl} {p : Progress}

-- What a call does, as long as the transfer is not finished.
theorem checkProgress_fixups (hp : p.total ≠ p.actual) (h : timeout.mFixups > MAX_PROGRESS_FIXUPS) :
    timeout.checkProgress p = (1, timeout) := by
  simp [checkProgress, hp, h]

theorem checkProgress_fixup (hp : p.total ≠ p.actual) (hn : timeout.mFixups ≤ MAX_PROGRESS_FIXUPS)
    (h : timeout.fixup p.timestampNow) : timeout.checkProgress p = (0, {
      mFixups         := timeout.mFixups + 1
      mTimestampStart := p.timestampNow
      mTimestampLast  := p.timestampNow }) := by
  simp [checkProgress, hp, Nat.not_lt.mpr hn, h]

theorem checkProgress_waits (hp : p.total ≠ p.actual) (hn : timeout.mFixups ≤ MAX_PROGRESS_FIXUPS)
    (h : timeout.fixup p.timestampNow = false)
    (ht : p.timestampNow < timeout.mTimestampStart + CIMSERVER_TIMEOUT) :
    timeout.checkProgress p = (0, { timeout with mTimestampLast := p.timestampNow }) := by
  have ht : p.timestampNow - timeout.mTimestampStart < CIMSERVER_TIMEOUT := by omega
  simp [checkProgress, hp, Nat.not_lt.mpr hn, h, ht]

theorem checkProgress_aborts (hp : p.total ≠ p.actual) (hn : timeout.mFixups ≤ MAX_PROGRESS_FIXUPS)
    (h : timeout.fixup p.timestampNow = false)
    (ht : timeout.mTimestampStart + CIMSERVER_TIMEOUT ≤ p.timestampNow) :
    timeout.checkProgress p = (1, timeout) := by
  have ht : ¬ p.timestampNow - timeout.mTimestampStart < CIMSERVER_TIMEOUT := by omega
  simp [checkProgress, hp, Nat.not_lt.mpr hn, h, ht]

theorem fixup_false_iff {now : ℤ} : timeout.fixup now = false ↔ timeout.mTimestampStart ≠ 0 ∧
    timeout.mTimestampLast ≤ now ∧ now ≤ timeout.mTimestampLast + MAX_PLAUSIBLE_PROGRESS := by
  simp only [fixup, decide_eq_false_iff_not, not_or]
  constructor
  · intro ⟨hs, hl, hp⟩
    exact ⟨hs, by omega, by omega⟩
  · intro ⟨hs, hl, hp⟩
    exact ⟨hs, by omega, by omega⟩

end TimeoutControl

-- Operations with a clock that runs as it should.

structure Steady (calls : List Progress) : Prop where
  positive : ∀ p ∈ calls.head?, 0 < p.timestampNow
  credible : calls.IsChain Plausible

-- When an operation has to end, and that it ends then.
structure TimesOut (calls : List Progress) : Prop where
  waits  : ∀ first ∈ calls.head?, ∀ before p rest, calls = before ++ p :: rest →
    p.timestampNow < first.timestampNow + CIMSERVER_TIMEOUT →
    ((TimeoutControl.after {} before).checkProgress p).1 = 0
  aborts : ∀ first ∈ calls.head?, ∀ before p rest, calls = before ++ p :: rest →
    (∀ q ∈ before, q.timestampNow < first.timestampNow + CIMSERVER_TIMEOUT) →
    first.timestampNow + CIMSERVER_TIMEOUT ≤ p.timestampNow →
    ((TimeoutControl.after {} before).checkProgress p).1 ≠ 0

namespace TimeoutControl

-- The state before a call, where the clock ran as it should since the timer was started.
theorem after_plausible {start : ℤ} {prev p : Progress} {before : List Progress} (hs : start ≠ 0)
    (hc : (prev :: (before ++ [p])).IsChain Plausible) (hp : ∀ q ∈ before, q.total ≠ q.actual)
    (ht : ∀ q ∈ before, q.timestampNow < start + CIMSERVER_TIMEOUT) :
    ∃ last, after ⟨start, prev.timestampNow, 1⟩ before = ⟨start, last, 1⟩ ∧
      last ≤ p.timestampNow ∧ p.timestampNow ≤ last + MAX_PLAUSIBLE_PROGRESS := by
  induction before generalizing prev with
  | nil              => exact ⟨prev.timestampNow, rfl, (List.isChain_cons_cons.mp hc).left⟩
  | cons q before hi =>
    have ⟨hq, hp⟩ := List.forall_mem_cons.mp hp
    have ⟨htq, ht⟩ := List.forall_mem_cons.mp ht
    have ⟨hpq, hc⟩ := List.isChain_cons_cons.mp hc
    have hf : fixup ⟨start, prev.timestampNow, 1⟩ q.timestampNow = false := fixup_false_iff.mpr ⟨hs, hpq⟩
    have hw := checkProgress_waits hq (Nat.le_add_left 1 9) hf htq
    have ⟨last, ha, hl⟩ := hi hc hp ht
    refine ⟨last, ?_, hl⟩
    rw [after, List.foldl_cons, hw]
    exact ha

theorem checkProgress_first {first : Progress} (hp : first.total ≠ first.actual) :
    checkProgress {} first = (0, ⟨first.timestampNow, first.timestampNow, 1⟩) :=
  checkProgress_fixup hp (Nat.zero_le _) rfl

end TimeoutControl

open TimeoutControl in
-- A transfer that looks finished before anything was transferred is waited for without end.
theorem timesOut {calls : List Progress} (hs : Steady calls) (hp : ∀ p ∈ calls, p.total ≠ p.actual) :
    TimesOut calls := by
  have hcase : ∀ first ∈ calls.head?, ∀ before p rest, calls = before ++ p :: rest →
      (∀ q ∈ before, q.timestampNow < first.timestampNow + CIMSERVER_TIMEOUT) →
      (before = [] ∧ p = first) ∨ ∃ last, after {} before = ⟨first.timestampNow, last, 1⟩ ∧
        fixup ⟨first.timestampNow, last, 1⟩ p.timestampNow = false := by
    intro first hfirst before p rest hcalls ht
    subst hcalls
    cases before with
    | nil             =>
      cases hfirst
      exact .inl ⟨rfl, rfl⟩
    | cons q before =>
      cases hfirst
      have hpos : first.timestampNow ≠ 0 := Int.ne_of_gt (hs.positive first rfl)
      have ⟨hpf, hp⟩ := List.forall_mem_cons.mp hp
      have hb : (first :: (before ++ [p])).IsChain Plausible := by
        have h := hs.credible
        rw [List.append_cons, List.isChain_append] at h
        exact h.left
      have ⟨last, ha, hl, hu⟩ := after_plausible hpos hb (fun q hq => hp q (List.mem_append_left _ hq))
        fun q hq => ht q (List.mem_cons_of_mem _ hq)
      refine .inr ⟨last, ?_, fixup_false_iff.mpr ⟨hpos, hl, hu⟩⟩
      rw [after, List.foldl_cons, checkProgress_first hpf]
      exact ha
  have hmem {before rest : List Progress} {p : Progress} (h : calls = before ++ p :: rest) : p.total ≠ p.actual := by
    apply hp p
    rw [h]
    simp
  constructor
  · intro first hfirst before p rest hcalls ht
    have hb : ∀ q ∈ before, q.timestampNow < first.timestampNow + CIMSERVER_TIMEOUT := by
      intro q hq
      have hmono : calls.Pairwise fun p q => p.timestampNow ≤ q.timestampNow := by
        have htrans : IsTrans Progress fun p q => p.timestampNow ≤ q.timestampNow := ⟨fun _ _ _ => Int.le_trans⟩
        exact (hs.credible.imp fun _ _ h => h.left).pairwise
      rw [hcalls, List.pairwise_append] at hmono
      have hle := hmono.right.right q hq p (List.mem_cons_self ..)
      omega
    cases hcase first hfirst before p rest hcalls hb with
    | inl h =>
      rw [h.left, after, List.foldl_nil, checkProgress_first (hmem hcalls)]
    | inr h =>
      have ⟨last, ha, hf⟩ := h
      rw [ha, checkProgress_waits (hmem hcalls) (Nat.le_add_left 1 9) hf ht]
  · intro first hfirst before p rest hcalls hb ht
    cases hcase first hfirst before p rest hcalls hb with
    | inl h =>
      rw [h.right, CIMSERVER_TIMEOUT] at ht
      omega
    | inr h =>
      have ⟨last, ha, hf⟩ := h
      rw [ha, checkProgress_aborts (hmem hcalls) (Nat.le_add_left 1 9) hf ht]
      exact Nat.one_ne_zero

-- A server that sends nothing of what it has to send.
def stalled (total : ℚ) (n : ℕ) : List Progress :=
  (List.range n).map fun i : ℕ => ⟨total, 0, 1 + 30 * i⟩

theorem stalled_steady (total : ℚ) (n : ℕ) : Steady (stalled total n) where
  positive p hp := by
    have ⟨i, _, hi⟩ := List.mem_map.mp (List.mem_of_mem_head? hp)
    rw [← hi]
    dsimp only
    omega
  credible := by
    rw [stalled, List.isChain_map]
    refine (List.isChain_range _ n).mpr fun i _ => ?_
    simp only [Plausible, MAX_PLAUSIBLE_PROGRESS]
    omega

theorem timesOut_stalled : TimesOut (stalled 10 21) := by
  refine timesOut (stalled_steady 10 21) fun p hp => ?_
  have ⟨i, _, hi⟩ := List.mem_map.mp hp
  rw [← hi]
  exact (by decide : (10 : ℚ) ≠ 0)

theorem not_timesOut_stalled : ¬ ∀ calls, Steady calls → TimesOut calls := by
  intro h
  have hb : ∀ q ∈ stalled 0 20, q.timestampNow < 1 + CIMSERVER_TIMEOUT := by decide
  exact (h _ (stalled_steady 0 21)).aborts ⟨0, 0, 1⟩ rfl (stalled 0 20) ⟨0, 0, 601⟩ [] rfl hb (by decide) (by decide)

-- A clock that is set forward and back.

namespace TimeoutControl

-- The calls up to the first one that does not return 0.
def Passes : TimeoutControl → List Progress → Prop
  | _, []            => True
  | timeout, p :: ps => (timeout.checkProgress p).1 = 0 ∧ (timeout.checkProgress p).2.Passes ps

-- The calls before the timer is started anew, and each call that starts it with those up to the next one.
def periods : TimeoutControl → List Progress → List Progress × List (Progress × List Progress)
  | _, []            => ([], [])
  | timeout, p :: ps =>
    let (lead, rest) := (timeout.checkProgress p).2.periods ps
    if timeout.fixup p.timestampNow then ([], (p, lead) :: rest) else (p :: lead, rest)

end TimeoutControl

-- The time that passes in a period.
def span (period : Progress × List Progress) : ℤ :=
  (period.2.getLast?.getD period.1).timestampNow - period.1.timestampNow

structure WithinPeriod (start : Progress) (calls : List Progress) : Prop where
  credible : (start :: calls).IsChain Plausible
  timely   : ∀ p ∈ calls, p.timestampNow < start.timestampNow + CIMSERVER_TIMEOUT

-- How often the timer is started, and what the clock does in between.
structure Bounded (calls : List Progress) (periods : List (Progress × List Progress)) : Prop where
  whole  : calls = periods.flatMap fun period => period.1 :: period.2
  fixups : periods.length ≤ MAX_PROGRESS_FIXUPS + 1
  within : ∀ period ∈ periods, WithinPeriod period.1 period.2
  total  : (periods.map span).sum < (MAX_PROGRESS_FIXUPS + 1) * CIMSERVER_TIMEOUT

namespace TimeoutControl

theorem periods_cons_fixup {timeout : TimeoutControl} {p : Progress} {ps : List Progress}
    (h : timeout.fixup p.timestampNow) : timeout.periods (p :: ps) =
      ([], (p, ((timeout.checkProgress p).2.periods ps).1) :: ((timeout.checkProgress p).2.periods ps).2) := by
  simp [periods, h]

theorem periods_cons {timeout : TimeoutControl} {p : Progress} {ps : List Progress}
    (h : timeout.fixup p.timestampNow = false) : timeout.periods (p :: ps) =
      (p :: ((timeout.checkProgress p).2.periods ps).1, ((timeout.checkProgress p).2.periods ps).2) := by
  simp [periods, h]

theorem periods_whole (timeout : TimeoutControl) (calls : List Progress) : calls =
    (timeout.periods calls).1 ++ (timeout.periods calls).2.flatMap fun period => period.1 :: period.2 := by
  induction calls generalizing timeout with
  | nil          => rfl
  | cons p ps hi =>
    have hi := hi (timeout.checkProgress p).2
    cases h : timeout.fixup p.timestampNow with
    | true  =>
      rw [periods_cons_fixup h, List.nil_append, List.flatMap_cons, List.cons_append, ← hi]
    | false => rw [periods_cons h, List.cons_append, ← hi]

-- The calls from a state in which the last reading was that of `prev`.
theorem periods_within {start : ℤ} {prev : Progress} {fixups : ℕ} {calls : List Progress}
    (hn : ∀ p ∈ calls, p.total ≠ p.actual) (hp : Passes ⟨start, prev.timestampNow, fixups⟩ calls)
    (hf : fixups ≤ MAX_PROGRESS_FIXUPS + 1) :
    (prev :: (periods ⟨start, prev.timestampNow, fixups⟩ calls).1).IsChain Plausible ∧
      (∀ p ∈ (periods ⟨start, prev.timestampNow, fixups⟩ calls).1,
        p.timestampNow < start + CIMSERVER_TIMEOUT) ∧
      (periods ⟨start, prev.timestampNow, fixups⟩ calls).2.length + fixups ≤ MAX_PROGRESS_FIXUPS + 1 ∧
      ∀ period ∈ (periods ⟨start, prev.timestampNow, fixups⟩ calls).2, WithinPeriod period.1 period.2 := by
  induction calls generalizing start prev fixups with
  | nil          => exact ⟨List.isChain_singleton _, nofun, by simpa [periods] using hf, nofun⟩
  | cons p ps hi =>
    have ⟨hpn, hn⟩ := List.forall_mem_cons.mp hn
    have ⟨hz, hp⟩ := hp
    by_cases hm : fixups > MAX_PROGRESS_FIXUPS
    · have ha := @checkProgress_fixups ⟨start, prev.timestampNow, fixups⟩ p hpn hm
      rw [ha] at hz
      cases hz
    · have hm : fixups ≤ MAX_PROGRESS_FIXUPS := Nat.not_lt.mp hm
      cases hfix : fixup ⟨start, prev.timestampNow, fixups⟩ p.timestampNow with
      | true  =>
        have hc := @checkProgress_fixup ⟨start, prev.timestampNow, fixups⟩ p hpn hm hfix
        rw [periods_cons_fixup hfix]
        rw [hc] at hp ⊢
        have ⟨hchain, ht, hl, hw⟩ := hi hn hp (Nat.succ_le_succ hm)
        refine ⟨List.isChain_singleton _, nofun, ?_, List.forall_mem_cons.mpr ⟨⟨hchain, ht⟩, hw⟩⟩
        simp only [List.length_cons] at hl ⊢
        omega
      | false =>
        have ⟨_, hplaus⟩ := fixup_false_iff.mp hfix
        rw [periods_cons hfix]
        by_cases ht : p.timestampNow < start + CIMSERVER_TIMEOUT
        · have hc := @checkProgress_waits ⟨start, prev.timestampNow, fixups⟩ p hpn hm hfix ht
          rw [hc] at hp ⊢
          have ⟨hchain, hts, hl, hw⟩ := hi hn hp hf
          exact ⟨List.isChain_cons_cons.mpr ⟨hplaus, hchain⟩, List.forall_mem_cons.mpr ⟨ht, hts⟩, hl, hw⟩
        · have ha := @checkProgress_aborts ⟨start, prev.timestampNow, fixups⟩ p hpn hm hfix (Int.not_lt.mp ht)
          rw [ha] at hz
          cases hz

end TimeoutControl

theorem WithinPeriod.span_lt {start : Progress} {calls : List Progress} (h : WithinPeriod start calls) :
    span (start, calls) < CIMSERVER_TIMEOUT := by
  cases hl : calls.getLast? with
  | none   =>
    have h0 : (0 : ℤ) < CIMSERVER_TIMEOUT := by decide
    simpa [span, hl] using h0
  | some p =>
    have ht := h.timely p (List.mem_of_getLast? hl)
    simp only [span, hl, Option.getD_some]
    omega

theorem sum_span_le {periods : List (Progress × List Progress)} (h : ∀ period ∈ periods, WithinPeriod period.1 period.2) :
    (periods.map span).sum ≤ periods.length * (CIMSERVER_TIMEOUT - 1) := by
  induction periods with
  | nil               => simp
  | cons period ps hi =>
    have ⟨hp, hps⟩ := List.forall_mem_cons.mp h
    have hs : span period < CIMSERVER_TIMEOUT := hp.span_lt
    have hle := hi hps
    simp only [List.map_cons, List.sum_cons, List.length_cons, CIMSERVER_TIMEOUT] at *
    push_cast
    omega

open TimeoutControl in
-- However the clock is set, the timer is started a bounded number of times.
theorem periods_bounded {calls : List Progress} (hn : ∀ p ∈ calls, p.total ≠ p.actual)
    (hp : Passes {} calls) : Bounded calls (periods {} calls).2 := by
  have ⟨_, _, hl, hw⟩ := @periods_within 0 ⟨0, 0, 0⟩ 0 calls hn hp (Nat.zero_le _)
  have hlead : (periods {} calls).1 = [] := by
    cases calls with
    | nil       => rfl
    | cons p ps => rw [periods_cons_fixup rfl]
  have hwhole := periods_whole {} calls
  rw [hlead, List.nil_append] at hwhole
  refine ⟨hwhole, hl, hw, ?_⟩
  have hle := sum_span_le hw
  simp only [CIMSERVER_TIMEOUT, MAX_PROGRESS_FIXUPS] at *
  push_cast at *
  omega

theorem periods_bounded_jump : Bounded [⟨10, 0, 5⟩, ⟨10, 0, 9⟩, ⟨10, 0, 2⟩]
    (TimeoutControl.periods {} [⟨10, 0, 5⟩, ⟨10, 0, 9⟩, ⟨10, 0, 2⟩]).2 := by
  apply periods_bounded
  · decide
  · simp [TimeoutControl.Passes, TimeoutControl.checkProgress, TimeoutControl.fixup, MAX_PROGRESS_FIXUPS,
      MAX_PLAUSIBLE_PROGRESS, CIMSERVER_TIMEOUT]

end Sfcc
