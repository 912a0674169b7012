import Mathlib.Algebra.Group.Nat.Defs
import Mathlib.Data.List.Basic
import Sfcc.Lib.Transition

namespace Sfcc.Connection

abbrev EnvId := Nat

-- What the `release` slot of a client's function table points to.
inductive ReleaseFn
  | releaseClient
  | cmciRelease
  deriving DecidableEq, Repr

structure Client where
  id  : Nat
  env : EnvId
  deriving DecidableEq, Repr

-- `struct _ConnectionControl`. The mutex `ccMux` is not a field: each critical section is one step.
structure ConnectionControl where
  ccCount   : Nat
  ccEnv     : Option EnvId
  ccRelease : Option ReleaseFn
  deriving DecidableEq, Repr

-- The two ways in which `cmciConnect2` leaves its critical section without a client.
inductive Failure
  | newEnv
  | connect
  deriving DecidableEq, Repr

-- A thread that has left the critical section of a failed `cmciConnect2` and has yet to call
-- `cmciRelease(NULL)`.
structure Failed (Thread : Type) where
  thread : Thread
  kind   : Failure
  deriving DecidableEq, Repr

structure State (Thread : Type) where
  control  : ConnectionControl
  clientFt : ReleaseFn
  live     : List Client
  released : List EnvId
  failed   : List (Failed Thread)
  nextId   : Nat
  deriving DecidableEq, Repr

-- The result of `NewCIMCEnv`: the value left in `*rc`, whether an environment is returned, and
-- whether loading the backend library brought in a fresh copy of its static function table.
structure NewEnv where
  retc     : Int
  created  : Bool
  reloaded : Bool
  deriving DecidableEq, Repr

variable {Thread : Type}

def init : State Thread where
  control  := { ccCount := 0, ccEnv := none, ccRelease := none }
  clientFt := .releaseClient
  live     := []
  released := []
  failed   := []
  nextId   := 0

namespace State

def newCIMCEnv (s : State Thread) (new : NewEnv) : State Thread :=
  { s with
    control.ccEnv := if new.created then some s.nextId else none
    clientFt      := if new.reloaded then .releaseClient else s.clientFt
    nextId        := s.nextId + 1 }

-- `ccRelease` remembers the backend's release function, which is then replaced in the table.
def patchRelease (s : State Thread) : State Thread :=
  { s with
    control.ccRelease := if s.control.ccRelease = none then some s.clientFt else s.control.ccRelease
    clientFt          := .cmciRelease }

def addClient (s : State Thread) (env : EnvId) : State Thread :=
  { s with live := ⟨s.nextId, env⟩ :: s.live, nextId := s.nextId + 1 }

def fail (s : State Thread) (t : Thread) (kind : Failure) : State Thread :=
  { s with failed := ⟨t, kind⟩ :: s.failed }

-- `ccCount` is an `unsigned`.
def count (s : State Thread) : State Thread :=
  { s with control.ccCount := (s.control.ccCount + 1) % 2 ^ 32 }

-- `connected` is whether `connect2` returns a client.
def connect2 (s : State Thread) (t : Thread) (env : EnvId) (connected : Bool) : State Thread :=
  if connected then (s.count.addClient env).patchRelease else s.count.fail t .connect

-- The critical section of `cmciConnect2`.
def cmciConnect2 (s : State Thread) (t : Thread) (new : NewEnv) (connected : Bool) : State Thread :=
  let retc := if s.control.ccCount = 0 then new.retc else 0
  let s    := if s.control.ccCount = 0 then s.newCIMCEnv new else s
  match s.control.ccEnv with
  | none     => s.fail t .newEnv
  | some env => if retc ≠ 0 then s.fail t .newEnv else s.connect2 t env connected

def releaseCIMCEnv (s : State Thread) : State Thread :=
  { s with
    control.ccEnv     := none
    control.ccRelease := none
    released          := s.control.ccEnv.toList ++ s.released }

-- The part of `cmciRelease` after the call of `ccRelease`.
def uncount (s : State Thread) : State Thread :=
  if s.control.ccCount = 0 then s
  else
    let s := { s with control.ccCount := s.control.ccCount - 1 }
    if s.control.ccCount = 0 then s.releaseCIMCEnv else s

-- `none` where the call does not come back: through a null `ccRelease`, or through `cmciRelease`
-- itself, which waits for the mutex its caller holds.
def cmciRelease (s : State Thread) : Option Client → Option (State Thread)
  | none   => s.uncount
  | some c =>
    match s.control.ccRelease with
    | some .releaseClient => State.uncount { s with live := s.live.erase c }
    | some .cmciRelease   => none
    | none                => none

def Busy (s : State Thread) (t : Thread) : Prop :=
  ∃ f ∈ s.failed, f.thread = t

instance [DecidableEq Thread] (s : State Thread) (t : Thread) : Decidable (s.Busy t) :=
  inferInstanceAs (Decidable (∃ f ∈ s.failed, f.thread = t))

end State

inductive Action (Thread : Type)
  | connect (t : Thread) (new : NewEnv) (connected : Bool)
  | cleanup (f : Failed Thread)
  | release (t : Thread) (c : Client)
  deriving DecidableEq, Repr

section

variable [DecidableEq Thread]

def step (s : State Thread) : Action Thread → Option (State Thread)
  | .connect t new connected => if s.Busy t then none else s.cmciConnect2 t new connected
  | .cleanup f               =>
    if f ∈ s.failed then State.cmciRelease { s with failed := s.failed.erase f } none else none
  | .release t c             => if s.Busy t ∨ c ∉ s.live then none else s.cmciRelease (some c)

end

def system (Thread : Type) [DecidableEq Thread] : Transition.System (State Thread) (Action Thread) where
  init := init
  step := step

end Sfcc.Connection
