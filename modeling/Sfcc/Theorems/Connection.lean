import Mathlib.Data.List.Count
import Sfcc.Connection

namespace Sfcc.Connection

variable {Thread : Type} {s s' : State Thread} {a : Action Thread}

-- What the sharing of one environment has to guarantee in every state: a client that is still alive
-- is counted and its environment has not been released, and with no connect in progress the count
-- is exact.
structure Safe (s : State Thread) : Prop where
  counted : s.live.length ≤ s.control.ccCount
  held    : ∀ c ∈ s.live, c.env ∉ s.released
  settled : s.failed = [] →
    s.control.ccCount = s.live.length ∧ (s.control.ccEnv = none ↔ s.control.ccCount = 0)

-- A thread that failed in `NewCIMCEnv`, and so has not counted itself, cleans up only while the
-- count is zero; `NewCIMCEnv` does not return an environment beside an error code; and the
-- `unsigned` count does not wrap.
def StepOk (s : State Thread) : Action Thread → Prop
  | .connect _ new _ =>
    s.control.ccCount + 1 < 2 ^ 32 ∧
    (s.control.ccCount = 0 → new.retc ≠ 0 → new.created = false)
  | .cleanup f       => f.kind = .newEnv → s.control.ccCount = 0
  | .release ..      => True

def State.counting (s : State Thread) : Nat :=
  s.failed.countP (·.kind = .connect)

-- The count covers the live clients and the failed connects that counted themselves; all live
-- clients share the current environment.
structure Inv (s : State Thread) : Prop where
  count   : s.control.ccCount = s.live.length + s.counting
  env     : s.control.ccEnv = none ↔ s.control.ccCount = 0
  shared  : ∀ c ∈ s.live, s.control.ccEnv = some c.env
  current : ∀ e ∈ s.control.ccEnv, e ∉ s.released ∧ e < s.nextId
  fresh   : ∀ e ∈ s.released, e < s.nextId

namespace Inv

theorem safe (i : Inv s) : Safe s where
  counted := i.count ▸ Nat.le_add_right ..
  held    := fun c h => (i.current _ (i.shared c h)).left
  settled h := by
    refine ⟨?_, i.env⟩
    simp [i.count, State.counting, h]

theorem init : Inv (init : State Thread) where
  count   := rfl
  env     := by simp [Connection.init]
  shared  := by simp [Connection.init]
  current := by simp [Connection.init]
  fresh   := by simp [Connection.init]

theorem live_nil (i : Inv s) (h : s.control.ccCount = 0) : s.live = [] := by
  have := i.count
  exact List.length_eq_zero_iff.mp (by omega)

-- A thread failing in `NewCIMCEnv` leaves the count and the environment as they are.
theorem fail_newEnv {t : Thread} (i : Inv s) : Inv (s.fail t .newEnv) where
  count   := by simpa [State.fail, State.counting] using i.count
  env     := i.env
  shared  := i.shared
  current := i.current
  fresh   := i.fresh

-- Only a state in which nobody is counted asks for a new environment.
theorem newCIMCEnv {new : NewEnv} (i : Inv s) (h : s.control.ccCount = 0) :
    (∀ c ∈ (s.newCIMCEnv new).live, (s.newCIMCEnv new).control.ccEnv = some c.env) ∧
    (∀ e ∈ (s.newCIMCEnv new).control.ccEnv, e ∉ s.released ∧ e < (s.newCIMCEnv new).nextId) ∧
    (∀ e ∈ s.released, e < (s.newCIMCEnv new).nextId) := by
  refine ⟨by simp [State.newCIMCEnv, i.live_nil h], fun e he => ?_, fun e he => ?_⟩
  · simp only [State.newCIMCEnv, Option.mem_def] at he ⊢
    split at he <;> cases he
    exact ⟨fun hr => Nat.lt_irrefl _ (i.fresh _ hr), Nat.lt_succ_self _⟩
  · exact Nat.lt_succ_of_lt (i.fresh e he)

end Inv

-- The part of the invariant that a step counting a further thread relies on: it holds with the
-- environment in place and the count not yet raised.
structure Ready (s : State Thread) (env : EnvId) : Prop where
  count   : s.control.ccCount = s.live.length + s.counting
  bound   : s.control.ccCount + 1 < 2 ^ 32
  ccEnv   : s.control.ccEnv = some env
  shared  : ∀ c ∈ s.live, s.control.ccEnv = some c.env
  current : env ∉ s.released ∧ env < s.nextId
  fresh   : ∀ e ∈ s.released, e < s.nextId

namespace Ready

variable {t : Thread} {env : EnvId}

-- The count does not come to zero.
theorem counted (r : Ready s env) : ¬ (s.control.ccCount + 1) % 2 ^ 32 = 0 := by
  rw [Nat.mod_eq_of_lt r.bound]
  exact Nat.succ_ne_zero _

theorem connect_fails (r : Ready s env) : Inv (s.count.fail t .connect) where
  count := by
    have := r.count
    have := Nat.mod_eq_of_lt r.bound
    simp_all [State.fail, State.count, State.counting]
    omega
  env := by simpa [State.fail, State.count, r.ccEnv] using r.counted
  shared  := r.shared
  current := by simpa [State.fail, State.count, r.ccEnv] using r.current
  fresh   := r.fresh

theorem connects (r : Ready s env) : Inv (s.count.addClient env).patchRelease where
  count := by
    have := r.count
    have := Nat.mod_eq_of_lt r.bound
    simp_all [State.patchRelease, State.addClient, State.count, State.counting]
    omega
  env := by
    simpa [State.patchRelease, State.addClient, State.count, r.ccEnv] using r.counted
  shared := by
    simp only [State.patchRelease, State.addClient, State.count, List.mem_cons]
    rintro c (rfl | h)
    · exact r.ccEnv
    · exact r.shared c h
  current e h := by
    cases Option.some.inj (r.ccEnv ▸ h)
    exact ⟨r.current.left, Nat.lt_succ_of_lt r.current.right⟩
  fresh e h := Nat.lt_succ_of_lt (r.fresh e h)

theorem connect2 {connected : Bool} (r : Ready s env) : Inv (s.connect2 t env connected) := by
  cases connected
  case false => exact r.connect_fails
  case true  => exact r.connects

end Ready

namespace Inv

variable {t : Thread}

theorem ready {env : EnvId} (i : Inv s) (h : s.control.ccCount + 1 < 2 ^ 32)
    (he : s.control.ccEnv = some env) : Ready s env where
  count   := i.count
  bound   := h
  ccEnv   := he
  shared  := i.shared
  current := i.current _ he
  fresh   := i.fresh

theorem ready_newCIMCEnv {new : NewEnv} (i : Inv s) (h : s.control.ccCount = 0)
    (hc : new.created) : Ready (s.newCIMCEnv new) s.nextId where
  count   := i.count
  bound   := by simp [State.newCIMCEnv, h]
  ccEnv   := by simp [State.newCIMCEnv, hc]
  shared  := (i.newCIMCEnv h).left
  current := (i.newCIMCEnv h).right.left _ (by simp [State.newCIMCEnv, hc])
  fresh   := (i.newCIMCEnv h).right.right

theorem newCIMCEnv_fails {new : NewEnv} (i : Inv s) (h : s.control.ccCount = 0)
    (hc : new.created = false) : Inv ((s.newCIMCEnv new).fail t .newEnv) :=
  fail_newEnv {
    count   := i.count
    env     := by simp [State.newCIMCEnv, hc, h]
    shared  := (i.newCIMCEnv h).left
    current := (i.newCIMCEnv h).right.left
    fresh   := (i.newCIMCEnv h).right.right }

theorem cmciConnect2 {new : NewEnv} {connected : Bool} (i : Inv s)
    (ho : StepOk s (.connect t new connected)) : Inv (s.cmciConnect2 t new connected) := by
  by_cases h : s.control.ccCount = 0
  case pos =>
    cases hc : new.created
    case false => simpa [State.cmciConnect2, h, State.newCIMCEnv, hc] using i.newCIMCEnv_fails h hc
    case true  =>
      have hr : new.retc = 0 := by
        by_contra hr
        simpa [hc] using ho.right h hr
      simpa [State.cmciConnect2, h, State.newCIMCEnv, hc, hr] using
        (i.ready_newCIMCEnv h hc).connect2
  case neg =>
    obtain ⟨env, he⟩ := Option.ne_none_iff_exists'.mp (i.env.not.mpr h)
    simpa [State.cmciConnect2, h, he] using (i.ready ho.left he).connect2

-- Giving up one counted holder: the environment goes with the last one.
theorem uncount (h : s.control.ccCount = s.live.length + s.counting + 1)
    (hs : ∀ c ∈ s.live, s.control.ccEnv = some c.env)
    (hc : ∀ e ∈ s.control.ccEnv, e ∉ s.released ∧ e < s.nextId)
    (hf : ∀ e ∈ s.released, e < s.nextId) (he : s.control.ccEnv ≠ none) : Inv s.uncount := by
  have hp : s.control.ccCount ≠ 0 := by omega
  by_cases h1 : s.control.ccCount - 1 = 0
  case pos =>
    have hl : s.live = [] := List.length_eq_zero_iff.mp (by omega)
    have hk : s.counting = 0 := by omega
    simp only [State.uncount, hp, if_false, h1, if_true, State.releaseCIMCEnv]
    refine ⟨by simpa [hl, State.counting] using hk.symm, by simp, by simp [hl], by simp, fun e h => ?_⟩
    rcases List.mem_append.mp h with h | h
    · exact (hc e (by simpa using h)).right
    · exact hf e h
  case neg =>
    simp only [State.uncount, hp, if_false, h1]
    exact ⟨by simp only [State.counting] at h ⊢; omega, by simp [he, h1], hs, hc, hf⟩

theorem release {c : Client} (i : Inv s) (h : c ∈ s.live) :
    Inv (State.uncount { s with live := s.live.erase c }) := by
  have hl := List.length_erase_of_mem h
  have hp := List.length_pos_of_mem h
  have hc := i.count
  refine uncount ?_ (fun c' h' => i.shared c' (List.mem_of_mem_erase h')) i.current i.fresh ?_
  · simp only [State.counting, hl] at hc ⊢
    omega
  · simp [i.shared c h]

variable [DecidableEq Thread]

theorem cleanup_newEnv {f : Failed Thread} (i : Inv s) (hk : f.kind = .newEnv)
    (h : s.control.ccCount = 0) : Inv (State.uncount { s with failed := s.failed.erase f }) := by
  have hc := i.count
  simp only [State.uncount, h, if_true]
  refine ⟨?_, i.env, i.shared, i.current, i.fresh⟩
  simpa [State.counting, List.countP_erase, hk] using hc

theorem cleanup_connect {f : Failed Thread} (i : Inv s) (hf : f ∈ s.failed)
    (hk : f.kind = .connect) : Inv (State.uncount { s with failed := s.failed.erase f }) := by
  have hc := i.count
  have hp : 0 < s.counting := List.countP_pos_iff.mpr ⟨f, hf, by simpa using hk⟩
  refine uncount ?_ i.shared i.current i.fresh ?_
  · simp only [State.counting, List.countP_erase, hf, hk] at hc hp ⊢
    simp only [decide_true, and_self, if_true]
    omega
  · exact i.env.not.mpr (by omega)

theorem cleanup {f : Failed Thread} (i : Inv s) (ho : StepOk s (.cleanup f)) (hf : f ∈ s.failed) :
    Inv (State.uncount { s with failed := s.failed.erase f }) := by
  cases hk : f.kind
  case newEnv  => exact i.cleanup_newEnv hk (ho hk)
  case connect => exact i.cleanup_connect hf hk

theorem step (i : Inv s) (ho : StepOk s a) (h : step s a = some s') : Inv s' := by
  cases a with
  | connect t new connected =>
    simp only [Connection.step] at h
    split at h <;> cases h
    exact i.cmciConnect2 ho
  | cleanup f =>
    simp only [Connection.step, State.cmciRelease] at h
    split at h <;> cases h
    exact i.cleanup ho ‹_›
  | release t c =>
    simp only [Connection.step, State.cmciRelease] at h
    split at h
    case isTrue => cases h
    case isFalse hg =>
      push Not at hg
      split at h <;> cases h
      exact i.release hg.right

end Inv

-- Along every run in which no thread undoes a count it has not made, the sharing is safe.
theorem safe_of_stepOk [DecidableEq Thread] (r : (system Thread).Run StepOk s) : Safe s :=
  have i : Inv s := r.invariant Inv.init fun i ho h => Inv.step i ho h
  i.safe

-- Thread 0 fails to load the backend, thread 1 then connects, and the cleanup of thread 0 gives up
-- the count of thread 1: the environment is released under a live client.
def uncountedCleanup : List (Action Nat) := [
  .connect 0 { retc := 1, created := false, reloaded := false } false,
  .connect 1 { retc := 0, created := true, reloaded := false } true,
  .cleanup { thread := 0, kind := .newEnv }
]

theorem not_safe_of_reachable :
    ¬ ∀ s : State Nat, (system Nat).Reachable s → Safe s := by
  intro h
  obtain ⟨s, hs⟩ := Option.isSome_iff_exists.mp
    (show ((system Nat).exec init uncountedCleanup).isSome by decide)
  have hc : s.control.ccCount = 0 ∧ s.live.length = 1 := by
    have : ((system Nat).exec init uncountedCleanup).map
        (fun s => (s.control.ccCount, s.live.length)) = some (0, 1) := by decide
    simpa [hs] using this
  have := (h s (Transition.System.Reachable.init.exec hs)).counted
  omega

-- Thread 1 counts itself without being given a client, and gives up its own count.
def countedCleanup : List (Action Nat) := [
  .connect 0 { retc := 0, created := true, reloaded := false } true,
  .connect 1 { retc := 0, created := false, reloaded := false } false,
  .connect 0 { retc := 0, created := false, reloaded := false } true,
  .cleanup { thread := 1, kind := .connect }
]

theorem safe_of_stepOk_counted : ∃ s, (system Nat).exec init countedCleanup = some s ∧ s.live.length = 2 ∧ Safe s := by
  have hconnect (s : State Nat) (t : Nat) (new : NewEnv) (connected : Bool) (hc : s.control.ccCount + 1 < 2 ^ 32)
    (hn : new.retc = 0) : StepOk s (.connect t new connected) := ⟨hc, fun _ h => absurd hn h⟩
  have hcleanup (s : State Nat) : StepOk s (.cleanup { thread := 1, kind := .connect }) := fun h => nomatch h
  have r₀ : (system Nat).Run StepOk init := .init
  have r₁ := r₀.step (hconnect _ 0 { retc := 0, created := true, reloaded := false } true (by decide) rfl) rfl
  have r₂ := r₁.step (hconnect _ 1 { retc := 0, created := false, reloaded := false } false (by decide) rfl) rfl
  have r₃ := r₂.step (hconnect _ 0 { retc := 0, created := false, reloaded := false } true (by decide) rfl) rfl
  have r₄ := r₃.step (hcleanup _) rfl
  exact ⟨_, rfl, rfl, safe_of_stepOk r₄⟩

end Sfcc.Connection
