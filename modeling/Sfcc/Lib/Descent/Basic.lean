import Mathlib.Data.List.Basic

namespace Descent

-- `eof` is what the lexer keeps returning once the input has ended.
class Token (τ : Type) (κ : outParam Type) where
  kind : τ → κ
  eof  : τ

-- What lexing a token writes into the structure it is lexed into.
class Store (τ σ : Type) where
  store : τ → σ → σ

export Token (kind eof)
export Store (store)

structure Reader (τ : Type) where
  rest       : List τ
  current    : τ
  pushedBack : Bool

inductive Failure (τ φ : Type)
  | parseError (expected : String) (found : τ)
  | fault (f : φ)
  | outOfFuel

abbrev Parser (τ φ : Type) := StateT (Reader τ) (Except (Failure τ φ))

section

variable {τ κ φ σ υ δ α : Type} [Token τ κ] [DecidableEq κ] [Store τ σ] [Store τ υ]

def next (ts : List τ) : τ :=
  ts.headD eof

-- A token that was pushed back is returned again, but it is not stored again.
def lex (su : σ) : Parser τ φ σ := fun r =>
  if r.pushedBack then .ok (su, { r with pushedBack := false })
  else .ok (store (next r.rest) su, ⟨r.rest.tail, next r.rest, false⟩)

def current : Parser τ φ τ := fun r =>
  .ok (r.current, r)

def remaining : Parser τ φ ℕ := fun r =>
  .ok (r.rest.length, r)

def pushBack : Parser τ φ Unit := fun r =>
  .ok ((), { r with pushedBack := true })

def parseError (expected : String) : Parser τ φ α := fun r =>
  .error (.parseError expected r.current)

def outOfFuel : Parser τ φ α := fun _ =>
  .error .outOfFuel

-- A local union `υ` is lexed into beside the structure that is being filled.
instance : Store τ (σ × υ) where
  store t := Prod.map id (store t)

instance : Store τ Unit where
  store _ := id

def element (opening closing : κ) (expOpening expClosing : String) (zero : υ)
    (content : σ × υ → Parser τ φ (σ × υ)) (su : σ) : Parser τ φ σ := do
  let su ← lex su
  if kind (← current) = opening then
    let filled ← content (su, zero)
    let su ← lex filled.1
    if kind (← current) = closing then pure su else parseError expClosing
  else parseError expOpening

-- Runs a production on a member of the structure that is being filled.
def focus (get : σ → δ) (set : δ → σ → σ) (p : δ → Parser τ φ δ) (su : σ) : Parser τ φ σ := do
  let d ← p (get su)
  pure (set d su)

-- A computation beside the parsing, which may fail for good.
def act (g : σ → Except φ σ) (su : σ) : Parser τ φ σ := fun r =>
  match g su with
  | .ok su'   => .ok (su', r)
  | .error f  => .error (.fault f)

def doWhile (opens : κ → Bool) (item : σ → Parser τ φ σ) : ℕ → σ → Parser τ φ σ
  | 0, _      => outOfFuel
  | n + 1, su => do
    pushBack
    let su ← item su
    let su ← lex su
    if opens (kind (← current)) then doWhile opens item n su else pure su

-- The loop that is entered with its first token pushed back, and left so.
def loop (opens : κ → Bool) (item : σ → Parser τ φ σ) (su : σ) : Parser τ φ σ := do
  let su ← doWhile opens item ((← remaining) + 1) su
  pushBack
  pure su

def optional (opens : κ → Bool) (item : σ → Parser τ φ σ) (su : σ) : Parser τ φ σ := do
  let su ← lex su
  pushBack
  if opens (kind (← current)) then item su else pure su

def many (opens : κ → Bool) (item : σ → Parser τ φ σ) : σ → Parser τ φ σ :=
  optional opens (loop opens item)

-- A recursive production, whose depth is bounded by the number of tokens that are left.
def fueled (p : ℕ → σ → Parser τ φ σ) (su : σ) : Parser τ φ σ := do
  p ((← remaining) + 1) su

-- One arm of an `if … else if …` over the token that was lexed last.
def arm (opens : κ → Bool) (p rest : σ → Parser τ φ σ) (su : σ) : Parser τ φ σ := do
  if opens (kind (← current)) then
    pushBack
    p su
  else rest su

def choice (arms : σ → Parser τ φ σ) (su : σ) : Parser τ φ σ := do
  let su ← lex su
  arms su

end

section

variable {τ κ φ α β : Type} [Token τ κ] {x : Parser τ φ α} {f : α → Parser τ φ β} {s : Reader τ}

theorem bind_ok {y : β × Reader τ} (h : (x >>= f) s = .ok y) :
    ∃ a, x s = .ok a ∧ f a.1 a.2 = .ok y := by
  simp only [bind, StateT.bind, Except.bind] at h
  cases hx : x s with
  | error e => simp [hx] at h
  | ok a    => exact ⟨a, rfl, by simpa [hx] using h⟩

theorem bind_apply {a : α × Reader τ} (h : x s = .ok a) : (x >>= f) s = f a.1 a.2 := by
  simp only [bind, StateT.bind, Except.bind, h]

@[simp]
theorem current_bind {f : τ → Parser τ φ β} : (current >>= f) s = f s.current s :=
  rfl

@[simp]
theorem remaining_bind {f : ℕ → Parser τ φ β} : (remaining >>= f) s = f s.rest.length s :=
  rfl

@[simp]
theorem pushBack_bind {f : Unit → Parser τ φ β} :
    (pushBack >>= f) s = f () { s with pushedBack := true } :=
  rfl

theorem pushBack_current_bind {f : τ → Parser τ φ β} :
    (pushBack >>= fun _ => current >>= f) s = f s.current { s with pushedBack := true } :=
  rfl

theorem bind_error {e : Failure τ φ} (h : x s = .error e) : (x >>= f) s = .error e := by
  simp only [bind, StateT.bind, Except.bind, h]

end

end Descent
