import YfsRpc.Foundation.Holders
import YfsRpc.Foundation.Machine
import YfsRpc.Rpc.ConnRefs

/-! # The connections of a client

All calls of an `rpcc` share the connection `chan_`, and each one keeps a reference of
its own in `ch`. `get_refconn` replaces a dead `chan_` under `chan_m_`. Calls run, die
connections and fail connects in any order; when no call is left, `rpcc` is destroyed.

A pointer that was given up by `decref` is overwritten before it is read again, so it
becomes null at once here.
-/

namespace YfsRpc.Rpc

/-- Where the call is that has `chan_m_`. -/
inductive GetRefconn
  | checking
  /-- `chan_` is dead -/
  | dropping
  /-- without a connection -/
  | connecting
  /-- before the old `ch` is given up -/
  | releasing
  /-- before the reference to `chan_` is taken -/
  | taking
  deriving DecidableEq

inductive CallPhase
  /-- before or in `get_refconn` -/
  | transmitting
  | sending
  | waiting
  /-- before `ch` is given up -/
  | leaving
  deriving DecidableEq

structure Call where
  phase : CallPhase
  ch : Option Nat := none
  deriving DecidableEq

/-- Where the destructor is. -/
inductive Destroy
  | notBegun
  /-- between `closeconn` and `decref` -/
  | closed
  | returned
  deriving DecidableEq

structure ClientConns where
  retrans : Bool
  table : ConnTable := {}
  /-- `chan_` -/
  chan : Option Nat := none
  /-- the call that has `chan_m_` -/
  chanM : Option (Nat × GetRefconn) := none
  calls : Holders Nat Call := .empty
  destroy : Destroy := .notBegun

namespace ClientConns

inductive Action
  | call (id : Nat)
  /-- `get_refconn` obtains `chan_m_` -/
  | getRefconn (id : Nat)
  | check
  | drop
  /-- `connect_to_dst` -/
  | connect (succ : Bool)
  | release
  | take
  | send (id : Nat)
  /-- a deadline that is not the last one -/
  | timeout (id : Nat)
  /-- a reply, or the last deadline -/
  | leave (id : Nat)
  | finish (id : Nat)
  | die (c : Nat)
  | close
  | delete

def goto (s : ClientConns) (id : Nat) (call : Call) : ClientConns :=
  { s with calls := s.calls.set id (some call) }

/-- One step of `get_refconn` by the call that has `chan_m_`. -/
def getStep (s : ClientConns) (id : Nat) (call : Call) :
    GetRefconn → Action → Option ClientConns
  | .checking, .check =>
      match s.chan with
      | none => some { s with chanM := some (id, .connecting) }
      | some c =>
          let s := { s with table := s.table.use c }
          if s.table.dead c then
            some { s with chanM := some (id, .dropping) }
          else
            some { s with chanM := some (id, .releasing) }
  | .dropping, .drop =>
      match s.chan with
      | none => none
      | some c =>
          (s.table.decref c).map fun table =>
            { s with table, chan := none, chanM := some (id, .connecting) }
  | .connecting, .connect succ =>
      if succ then
        some { s with
          table := s.table.create
          chan := some s.table.created
          chanM := some (id, .releasing) }
      else
        some { s with chan := none, chanM := some (id, .releasing) }
  | .releasing, .release =>
      match s.chan with
      | none => some ({ s with chanM := none }.goto id { call with phase := .sending })
      | some _ =>
          match call.ch with
          | none => some { s with chanM := some (id, .taking) }
          | some d =>
              (s.table.decref d).map fun table =>
                { s with table, chanM := some (id, .taking) }.goto id { call with ch := none }
  | .taking, .take =>
      match s.chan with
      | none => none
      | some c =>
          some ({ s with table := s.table.incref c, chanM := none }.goto id
            { phase := .sending, ch := some c })
  | _, _ => none

/-- One step of a call outside `get_refconn`. -/
def callStep (s : ClientConns) (id : Nat) (call : Call) : Action → Option ClientConns
  | .getRefconn _ =>
      if call.phase = .transmitting ∧ s.chanM = none then
        some { s with chanM := some (id, .checking) }
      else
        none
  | .send _ =>
      if call.phase = .sending then
        match call.ch with
        | none => some (s.goto id { call with phase := .waiting })
        | some c => some ({ s with table := s.table.use c }.goto id { call with phase := .waiting })
      else
        none
  | .timeout _ =>
      if call.phase = .waiting ∧ s.retrans = true then
        match call.ch with
        | none => some (s.goto id { call with phase := .transmitting })
        | some c =>
            let s := { s with table := s.table.use c }
            if s.table.dead c then
              some (s.goto id { call with phase := .transmitting })
            else
              some s
      else
        none
  | .leave _ =>
      if call.phase = .waiting then some (s.goto id { call with phase := .leaving }) else none
  | .finish _ =>
      if call.phase = .leaving then
        match call.ch with
        | none => some { s with calls := s.calls.set id none }
        | some c =>
            (s.table.decref c).map fun table => { s with table, calls := s.calls.set id none }
      else
        none
  | _ => none

def step (s : ClientConns) : Action → Option ClientConns
  | .call id =>
      if s.calls.held id = none ∧ s.destroy = .notBegun then
        some (s.goto id { phase := .transmitting })
      else
        none
  | .die c =>
      if c < s.table.created ∧ s.table.dead c = false then
        some { s with table := s.table.die c }
      else
        none
  | .close =>
      if s.calls.keys = ∅ ∧ s.destroy = .notBegun then
        match s.chan with
        | none => some { s with destroy := .returned }
        | some c => some { s with table := (s.table.use c).die c, destroy := .closed }
      else
        none
  | .delete =>
      match s.destroy, s.chan with
      | .closed, some c =>
          (s.table.decref c).map fun table =>
            { s with table, chan := none, destroy := .returned }
      | _, _ => none
  | .getRefconn id => (s.calls.held id).bind fun call => s.callStep id call (.getRefconn id)
  | .send id => (s.calls.held id).bind fun call => s.callStep id call (.send id)
  | .timeout id => (s.calls.held id).bind fun call => s.callStep id call (.timeout id)
  | .leave id => (s.calls.held id).bind fun call => s.callStep id call (.leave id)
  | .finish id => (s.calls.held id).bind fun call => s.callStep id call (.finish id)
  | action =>
      match s.chanM with
      | none => none
      | some (id, phase) => (s.calls.held id).bind fun call => s.getStep id call phase action

def machine (retrans : Bool) : Machine ClientConns Action where
  initial := { retrans }
  step := step

end ClientConns

end YfsRpc.Rpc
