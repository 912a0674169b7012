import Sfcc.Release

namespace Sfcc.Connection.Calls

variable {Thread : Type} {s s' : Calls Thread} {a : Action Thread} {c : Client} {t : Thread}

-- Whatever was called through `ccRelease` is the backend's own function, no thread waits for the
-- mutex it holds, and each client that was to be released was released by the backend, once.
structure Proper (s : Calls Thread) : Prop where
  own    : ∀ fn ∈ s.called, fn = some .releaseClient
  runs   : s.halted = none
  freed  : s.freed = s.asked
  once   : s.freed.Nodup

-- A connect that makes a new environment finds the backend's own function in the table.
def StepOk (s : Calls Thread) : Action Thread → Prop
  | .connect _   => s.state.control.ccCount = 0 → s.state.clientFt = .releaseClient
  | .release _ _ => True

-- While a client is alive, the function that is remembered is the backend's. The count is that of
-- the clients, unless it has wrapped.
structure Inv (s : Calls Thread) : Prop extends Proper s where
  distinct : (s.state.live ++ s.freed).Nodup
  older    : ∀ c ∈ s.state.live ++ s.freed, c.id < s.state.nextId
  never    : s.state.control.ccRelease ≠ some .cmciRelease
  patched  : s.state.live ≠ [] →
    s.state.control.ccRelease = some .releaseClient ∧ s.state.clientFt = .cmciRelease
  count    : s.state.control.ccCount = 0 ∨ s.state.control.ccCount = s.state.live.length
  bound    : s.state.control.ccCount < 2 ^ 32

namespace Inv

theorem init : Inv ({ state := Connection.init } : Calls Thread) where
  own      := by simp
  runs     := rfl
  freed    := rfl
  once     := .nil
  distinct := by simp [Connection.init]
  older    := by simp [Connection.init]
  never    := by simp [Connection.init]
  patched  := by simp [Connection.init]
  count    := .inl rfl
  bound    := by simp [Connection.init]

-- The function that is remembered, by the first connect or by an earlier one.
theorem remembered (i : Inv s)
    (hr : s.state.control.ccRelease = none → s.state.clientFt = .releaseClient) :
    s.state.patchRelease.control.ccRelease = some .releaseClient := by
  have hn := i.never
  cases h : s.state.control.ccRelease with
  | none    => simp [State.patchRelease, h, hr h]
  | some fn =>
    cases fn with
    | releaseClient => simp [State.patchRelease, h]
    | cmciRelease   => exact absurd h hn

-- A further client of the environment `env`.
theorem addClient (i : Inv s) {env : EnvId}
    (hr : s.state.control.ccRelease = none → s.state.clientFt = .releaseClient)
    (hc : s.state.control.ccCount = s.state.live.length) :
    Inv { s with state := (s.state.count.addClient env).patchRelease } where
  own       := i.own
  runs      := i.runs
  freed     := i.freed
  once      := i.once
  distinct  := by
    refine List.nodup_cons.mpr ⟨fun h => ?_, i.distinct⟩
    exact absurd (i.older _ h) (Nat.lt_irrefl _)
  older     := by
    intro c h
    cases h with
    | head     => exact Nat.lt_succ_self _
    | tail _ h => exact Nat.lt_succ_of_lt (i.older c h)
  never     := by
    intro h
    cases (i.remembered hr).symm.trans h
  patched _ := ⟨i.remembered hr, rfl⟩
  count     := by
    have hb := i.bound
    show (s.state.control.ccCount + 1) % 2 ^ 32 = 0 ∨ (s.state.control.ccCount + 1) % 2 ^ 32 =
      s.state.live.length + 1
    omega
  bound     := Nat.mod_lt _ (by decide)

-- A new environment keeps what is known of the clients.
theorem newCIMCEnv (i : Inv s) {new : NewEnv} (h : new.reloaded = false) :
    Inv { s with state := s.state.newCIMCEnv new } where
  own      := i.own
  runs     := i.runs
  freed    := i.freed
  once     := i.once
  distinct := i.distinct
  older c h := Nat.lt_succ_of_lt (i.older c h)
  never    := i.never
  patched  := by simpa [State.newCIMCEnv, h] using i.patched
  count    := i.count
  bound    := i.bound

theorem live_nil (i : Inv s) (h : s.state.clientFt = .releaseClient) : s.state.live = [] := by
  by_contra hl
  cases h.symm.trans (i.patched hl).right

theorem connect (i : Inv s) (ho : StepOk s (.connect t)) (hf : (s.connect t).state.failed = []) :
    Inv (s.connect t) := by
  by_cases h : s.state.control.ccCount = 0
  case pos =>
    have ht := ho h
    have hn : Inv { s with state := s.state.newCIMCEnv ⟨0, true, false⟩ } := i.newCIMCEnv rfl
    have ha : Inv { s with state :=
        ((s.state.newCIMCEnv ⟨0, true, false⟩).count.addClient s.state.nextId).patchRelease } :=
      hn.addClient (fun _ => ht) (by simp [State.newCIMCEnv, h, i.live_nil ht])
    simpa [Calls.connect, State.cmciConnect2, State.connect2, h, State.newCIMCEnv] using ha
  case neg =>
    have hc := i.count.resolve_left h
    have hl : s.state.live ≠ [] := by
      intro hl
      rw [hl] at hc
      exact h hc
    have hr := (i.patched hl).left
    cases he : s.state.control.ccEnv with
    | none     => simp [Calls.connect, State.cmciConnect2, h, he, State.fail] at hf
    | some env =>
      have ha : Inv { s with state := (s.state.count.addClient env).patchRelease } :=
        i.addClient (by simp [hr]) hc
      simpa [Calls.connect, State.cmciConnect2, State.connect2, h, he] using ha

-- What `cmciRelease` leaves alone, and what is remembered after it.
theorem uncount_live (s : State Thread) : s.uncount.live = s.live := by
  simp only [State.uncount]
  split
  · rfl
  · split <;> rfl

theorem uncount_nextId (s : State Thread) : s.uncount.nextId = s.nextId := by
  simp only [State.uncount]
  split
  · rfl
  · split <;> rfl

theorem uncount_clientFt (s : State Thread) : s.uncount.clientFt = s.clientFt := by
  simp only [State.uncount]
  split
  · rfl
  · split <;> rfl

theorem uncount_ccRelease {s : State Thread} (h : s.control.ccCount ≠ 1) :
    s.uncount.control.ccRelease = s.control.ccRelease := by
  simp only [State.uncount]
  split
  · rfl
  · split
    · rename_i h₀ h₁
      exact absurd (show s.control.ccCount = 1 by omega) h
    · rfl

theorem uncount_ccCount (s : State Thread) : s.uncount.control.ccCount = s.control.ccCount - 1 := by
  simp only [State.uncount]
  split
  case isTrue h => rw [h]
  case isFalse  => split <;> rfl

theorem uncount_ccRelease_ne {s : State Thread} (h : s.control.ccRelease ≠ some .cmciRelease) :
    s.uncount.control.ccRelease ≠ some .cmciRelease := by
  simp only [State.uncount]
  split
  · exact h
  · split
    · exact nofun
    · exact h

theorem release_eq (i : Inv s) (hc : c ∈ s.state.live) : s.release c =
    { state  := State.uncount { s.state with live := s.state.live.erase c }
      asked  := c :: s.asked
      called := some .releaseClient :: s.called
      freed  := c :: s.freed } := by
  have ⟨hr, ht⟩ := i.patched (List.ne_nil_of_mem hc)
  simp [Calls.release, Calls.cmciRelease, ccRelease, releaseClient, ht, hr, i.runs]

theorem release (i : Inv s) (hc : c ∈ s.state.live) : Inv (s.release c) := by
  have ⟨hr, ht⟩ := i.patched (List.ne_nil_of_mem hc)
  have hl := List.length_erase_of_mem hc
  have hp := List.length_pos_of_mem hc
  have hperm : (s.state.live.erase c ++ c :: s.freed).Perm (s.state.live ++ s.freed) :=
    List.perm_middle.trans ((List.perm_cons_erase hc).symm.append_right _)
  have hd : (s.state.live.erase c ++ c :: s.freed).Nodup := hperm.nodup_iff.mpr i.distinct
  rw [i.release_eq hc]
  refine ⟨⟨?_, rfl, ?_, ?_⟩, ?_, ?_, ?_, ?_, ?_, ?_⟩
  · intro fn h
    cases h with
    | head     => rfl
    | tail _ h => exact i.own fn h
  · exact congrArg _ i.freed
  · exact (List.nodup_append.mp hd).right.left
  · rw [uncount_live]
    exact hd
  · intro c' h
    rw [uncount_live] at h
    rw [uncount_nextId]
    exact i.older c' (hperm.mem_iff.mp h)
  · exact uncount_ccRelease_ne i.never
  · intro h
    rw [uncount_live] at h
    have hn : s.state.control.ccCount ≠ 1 := by
      intro h₁
      have hc₁ := i.count
      have he : (s.state.live.erase c).length = 0 := by omega
      exact h (List.length_eq_zero_iff.mp he)
    let s₁ : State Thread := { s.state with live := s.state.live.erase c }
    have hn₁ : s₁.control.ccCount ≠ 1 := hn
    exact ⟨(uncount_ccRelease hn₁).trans hr, (uncount_clientFt s₁).trans ht⟩
  · have hcount := i.count
    rw [uncount_ccCount, uncount_live]
    simp only
    omega
  · have hb := i.bound
    rw [uncount_ccCount]
    simp only
    omega

theorem step [DecidableEq Thread] (i : Inv s) (ho : StepOk s a) (h : step s a = some s') :
    Inv s' := by
  cases a with
  | connect t   =>
    simp only [Calls.step] at h
    split at h <;> cases h
    rename_i hs
    exact i.connect ho hs.right
  | release t c =>
    simp only [Calls.step] at h
    split at h <;> cases h
    rename_i hs
    exact i.release hs.right

end Inv

-- Along every run in which new environments are only made for the backend's own table, the releases
-- are proper.
theorem proper_of_stepOk [DecidableEq Thread] (r : (system Thread).Run StepOk s) : Proper s :=
  have i : Inv s := r.invariant Inv.init fun i ho h => Inv.step i ho h
  i.toProper

theorem proper_of_stepOk_released : Proper
    ((({ state := Connection.init } : Calls Nat).connect 0).release ⟨1, 0⟩) := by
  have ho : StepOk ({ state := Connection.init } : Calls Nat) (.connect 0) := fun _ => rfl
  have hc : (system Nat).Run StepOk (({ state := Connection.init } : Calls Nat).connect 0) :=
    .step .init ho (by decide)
  have hr : StepOk (({ state := Connection.init } : Calls Nat).connect 0) (.release 0 ⟨1, 0⟩) :=
    trivial
  exact proper_of_stepOk (.step hc hr (by decide))

-- The second client finds `cmciRelease` in the table, which is then taken for the backend's.
def reconnect : List (Action Nat) :=
  [.connect 0, .release 0 ⟨1, 0⟩, .connect 0, .release 0 ⟨3, 2⟩]

theorem not_proper_of_reachable : ¬ ∀ s : Calls Nat, (system Nat).Reachable s → Proper s := by
  intro h
  have ⟨s, hs⟩ := Option.isSome_iff_exists.mp
    (show ((system Nat).exec { state := Connection.init } reconnect).isSome by decide)
  have hl : s.halted = some .locked := by
    have he : ((system Nat).exec { state := Connection.init } reconnect).map (·.halted) =
        some (some .locked) := by decide
    simpa [hs] using he
  have hr := (h s (Transition.System.Reachable.init.exec hs)).runs
  cases hl.symm.trans hr

end Sfcc.Connection.Calls
