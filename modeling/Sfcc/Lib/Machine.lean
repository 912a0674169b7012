import Mathlib.Order.Basic

-- Machines that put something out in each step, and may stop with an error.
structure Machine (σ α ο ε : Type*) where
  init : σ
  step : σ → α → Except ε (σ × ο)

namespace Machine

variable {σ τ α ο ε : Type*}

def run (m : Machine σ α ο ε) : σ → List α → Except ε (σ × List ο)
  | s, []      => .ok (s, [])
  | s, a :: as =>
    match m.step s a with
    | .error e    => .error e
    | .ok (s', o) => (m.run s' as).map fun r => (r.1, o :: r.2)

-- What is put out in a run, or what it stops with.
def outputs (m : Machine σ α ο ε) (as : List α) : Except ε (List ο) :=
  (m.run m.init as).map Prod.snd

-- Each of the actions meets a condition in the state that it is taken in.
def Admits (m : Machine σ α ο ε) (ok : σ → α → Prop) : σ → List α → Prop
  | _, []      => True
  | s, a :: as => ok s a ∧ ∀ s' o, m.step s a = .ok (s', o) → m.Admits ok s' as

-- Two results are the same but for the states, which are related.
inductive Matches {υ : Type*} (R : σ → τ → Prop) : Except ε (σ × υ) → Except ε (τ × υ) → Prop
  | ok {s t o}  : R s t → Matches R (.ok (s, o)) (.ok (t, o))
  | error (e) : Matches R (.error e) (.error e)

theorem Matches.bind {σ τ σ' τ' ε υ ω : Type} {R : σ → τ → Prop} {R' : σ' → τ' → Prop} {x : Except ε (σ × υ)}
    {y : Except ε (τ × υ)} {f : σ × υ → Except ε (σ' × ω)} {g : τ × υ → Except ε (τ' × ω)} (h : Matches R x y)
    (hf : ∀ {s t o}, R s t → Matches R' (f (s, o)) (g (t, o))) : Matches R' (x >>= f) (y >>= g) := by
  cases h with
  | ok hr   => exact hf hr
  | error e => exact .error e

-- A machine does what another one does, as long as the actions meet a condition there.
structure Simulates (m : Machine σ α ο ε) (n : Machine τ α ο ε) (R : σ → τ → Prop) (ok : τ → α → Prop) : Prop where
  init : R m.init n.init
  step : ∀ {s t a}, R s t → ok t a → Matches R (m.step s a) (n.step t a)

variable {m : Machine σ α ο ε} {n : Machine τ α ο ε} {R : σ → τ → Prop} {ok : τ → α → Prop} {s : σ} {t : τ} {as : List α}

theorem Admits.cons {ok : σ → α → Prop} {a : α} {s' : σ} {o : ο} (ha : ok s a) (hs : m.step s a = .ok (s', o))
    (h : m.Admits ok s' as) : m.Admits ok s (a :: as) := by
  refine ⟨ha, fun s₁ o₁ h₁ => ?_⟩
  cases hs.symm.trans h₁
  exact h

theorem Simulates.run (h : Simulates m n R ok) (hr : R s t) (ha : n.Admits ok t as) :
    Matches R (m.run s as) (n.run t as) := by
  induction as generalizing s t with
  | nil          => exact .ok hr
  | cons a as hi =>
    have ⟨ha, has⟩ := ha
    have hs := h.step hr ha
    rw [Machine.run, Machine.run]
    generalize hm : m.step s a = x at hs
    generalize hn : n.step t a = y at hs
    cases hs with
    | error e => exact .error e
    | ok hr'  =>
      have hrun := hi hr' (has _ _ hn)
      dsimp only
      revert hrun
      generalize m.run _ as = x
      generalize n.run _ as = y
      rintro (hr | e)
      · exact .ok hr
      · exact .error e

-- From the start, the two of them put out the same, and stop with the same.
theorem Simulates.outputs (h : Simulates m n R ok) (ha : n.Admits ok n.init as) : m.outputs as = n.outputs as := by
  have hr := h.run h.init ha
  rw [Machine.outputs, Machine.outputs]
  revert hr
  generalize m.run m.init as = x
  generalize n.run n.init as = y
  rintro (hr | e)
  · rfl
  · rfl

end Machine
