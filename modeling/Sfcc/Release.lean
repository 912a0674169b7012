import Sfcc.Connection

-- The calls behind `cc->ft->release`, for clients that are connected and released again.
namespace Sfcc.Connection

-- How a thread stops for good inside of `cmciRelease`.
inductive Halt
  | locked
  | null
  deriving DecidableEq, Repr

-- A run of connects and releases, with the calls that were made so far: the releases of clients that
-- were asked for, what `ccRelease` was when it was called, and the clients the backend released.
structure Calls (Thread : Type) where
  state   : State Thread
  asked   : List Client := []
  called  : List (Option ReleaseFn) := []
  freed   : List Client := []
  halted  : Option Halt := none
  deriving DecidableEq, Repr

namespace Calls

variable {Thread : Type}

-- The library stays mapped, so its table keeps its contents.
def connect (s : Calls Thread) (t : Thread) : Calls Thread :=
  { s with state := s.state.cmciConnect2 t { retc := 0, created := true, reloaded := false } true }

def releaseClient (s : Calls Thread) (c : Client) : Calls Thread :=
  { s with state.live := s.state.live.erase c, freed := c :: s.freed }

-- The call through `ConnectionControl.ccRelease`. The mutex is held, so `cmciRelease` waits forever.
def ccRelease (s : Calls Thread) (c : Client) : Calls Thread :=
  let s := { s with called := s.state.control.ccRelease :: s.called }
  match s.state.control.ccRelease with
  | none                => { s with halted := some .null }
  | some .cmciRelease   => { s with halted := some .locked }
  | some .releaseClient => s.releaseClient c

def cmciRelease (s : Calls Thread) (c : Client) : Calls Thread :=
  let s := s.ccRelease c
  if s.halted = none then { s with state := s.state.uncount } else s

-- `cc->ft->release(cc)`.
def release (s : Calls Thread) (c : Client) : Calls Thread :=
  let s := { s with asked := c :: s.asked }
  match s.state.clientFt with
  | .releaseClient => s.releaseClient c
  | .cmciRelease   => s.cmciRelease c

inductive Action (Thread : Type)
  | connect (t : Thread)
  | release (t : Thread) (c : Client)
  deriving DecidableEq, Repr

-- Connects that succeed, and releases of clients that are alive.
def step [DecidableEq Thread] (s : Calls Thread) : Action Thread → Option (Calls Thread)
  | .connect t   =>
    if s.halted = none ∧ (s.connect t).state.failed = [] then some (s.connect t) else none
  | .release _ c => if s.halted = none ∧ c ∈ s.state.live then some (s.release c) else none

def system (Thread : Type) [DecidableEq Thread] :
    Transition.System (Calls Thread) (Action Thread) where
  init := { state := Connection.init }
  step := step

end Calls
end Sfcc.Connection
