import Mathlib.Order.Basic

namespace Transition

structure System (σ α : Type*) where
  init : σ
  step : σ → α → Option σ

namespace System

variable {σ α : Type*}

-- The states of the runs all of whose steps satisfy `ok`, a condition on an action and the state
-- it is taken in.
inductive Run (S : System σ α) (ok : σ → α → Prop) : σ → Prop
  | init : Run S ok S.init
  | step {s a s'} : Run S ok s → ok s a → S.step s a = some s' → Run S ok s'

def Reachable (S : System σ α) : σ → Prop :=
  S.Run fun _ _ => True

variable {S : System σ α} {ok ok₁ ok₂ : σ → α → Prop} {s s' : σ} {a : α}

theorem Run.mono (h : ∀ s a, ok₁ s a → ok₂ s a) (r : S.Run ok₁ s) : S.Run ok₂ s := by
  induction r with
  | init          => exact .init
  | step _ ho e hi => exact .step hi (h _ _ ho) e

theorem Run.reachable : S.Run ok s → S.Reachable s :=
  Run.mono fun _ _ _ => trivial

-- A property that holds initially and is preserved by the steps satisfying `ok` holds along every
-- run of such steps.
theorem Run.invariant {I : σ → Prop} (init : I S.init)
    (step : ∀ {s a s'}, I s → ok s a → S.step s a = some s' → I s') (r : S.Run ok s) : I s := by
  induction r with
  | init           => exact init
  | step _ ho e hi => exact step hi ho e

theorem Reachable.init : S.Reachable S.init :=
  Run.init

theorem Reachable.step (r : S.Reachable s) (e : S.step s a = some s') : S.Reachable s' :=
  Run.step r trivial e

-- Runs an explicit list of actions.
def exec (S : System σ α) (s : σ) : List α → Option σ
  | []      => some s
  | a :: as => S.step s a >>= fun s' => S.exec s' as

theorem exec_append (as bs : List α) : S.exec s (as ++ bs) = S.exec s as >>= fun s => S.exec s bs := by
  induction as generalizing s with
  | nil          => rfl
  | cons a as hi =>
    show (S.step s a >>= fun s => S.exec s (as ++ bs)) = (S.step s a >>= fun s => S.exec s as) >>= _
    cases S.step s a with
    | none    => rfl
    | some s₁ => exact hi

theorem exec_concat (as : List α) (a : α) : S.exec s (as ++ [a]) = S.exec s as >>= fun s => S.step s a := by
  rw [exec_append]
  congr 1
  funext s₁
  exact bind_pure _

theorem Run.exec {as : List α} (r : S.Run ok s) (h : ∀ a ∈ as, ∀ s, ok s a) (e : S.exec s as = some s') :
    S.Run ok s' := by
  induction as generalizing s with
  | nil          => exact Option.some.inj e ▸ r
  | cons a as hi =>
    have ⟨s₁, h₁, h₂⟩ := Option.bind_eq_some_iff.mp e
    have ⟨ha, has⟩ := List.forall_mem_cons.mp h
    exact hi (r.step (ha s) h₁) has h₂

theorem Reachable.exec {as : List α} (r : S.Reachable s) (e : S.exec s as = some s') :
    S.Reachable s' :=
  Run.exec r (fun _ _ _ => trivial) e

end System
end Transition
