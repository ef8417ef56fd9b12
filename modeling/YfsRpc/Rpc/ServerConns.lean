import YfsRpc.Foundation.Holders
import YfsRpc.Foundation.Machine
import YfsRpc.Rpc.ConnRefs
import YfsRpc.Rpc.Client
import YfsRpc.Rpc.ReplyWindow

/-! # The connections of a server

The listener keeps a reference to every connection it has accepted, `conns_` one to the
latest connection of every client, and every job of the dispatch pool one to the
connection its request arrived on. What the duplicate check answers is part of the
action, and so is the reading of the clock when a connection is created.
-/

namespace YfsRpc.Rpc

/-- `djob_t`. The header of the request is missing when the PDU is too short. -/
structure DJob where
  id : Nat
  conn : Nat
  pdu : Option Request

/-- Where a thread is in `dispatch`. -/
inductive JobPhase
  /-- before the checks of the header, the server instance and the procedure -/
  | received
  /-- before the update of `conns_` -/
  | saving
  /-- before `checkduplicate_and_update` -/
  | checking
  /-- in the handler -/
  | executing
  /-- before the choice of the latest connection -/
  | choosing
  | sending
  /-- before the reference is given up -/
  | leaving
  deriving DecidableEq

structure JobThread where
  conn : Nat
  pdu : Option Request
  phase : JobPhase
  deriving DecidableEq

structure ServerConns where
  nonce : Nat
  table : ConnTable := {}
  /-- `fd_` of each connection -/
  channo : Nat → Nat := fun _ => 0
  /-- `create_time_` of each connection -/
  createTime : Nat → Nat := fun _ => 0
  /-- `tcpsconn::conns_` -/
  accepted : Holders Nat Nat := .empty
  /-- `rpcs::conns_` -/
  conns : Holders Nat Nat := .empty
  reachable : Bool := true
  queue : List DJob := []
  threads : Holders Nat JobThread := .empty
  /-- the job `got_pdu` has enqueued and has not returned for -/
  enqueued : Option DJob := none
  jobsCreated : Nat := 0
  /-- how often each job was deleted -/
  jobDeleted : Nat → Nat := fun _ => 0
  /-- history: a job was used or deleted after it was deleted -/
  jobMisused : Bool := false

namespace ServerConns

/-- `new ThrPool(10, false)` -/
def poolSize : Nat := 10

/-- The limit of `jobq_`. -/
def queueLimit : Nat := 100 * poolSize

inductive Action
  /-- `process_accept` up to the new connection -/
  | accept (fd createTime : Nat)
  /-- `process_accept` looks at a connection; after it has collected one, it advances an
  iterator that it has erased, which is undefined -/
  | collect (fd : Nat)
  /-- the destructor of the listener closes a connection -/
  | close (fd : Nat)
  | die (c : Nat)
  | setReachable (r : Bool)
  | gotPdu (c : Nat) (pdu : Option Request)
  /-- `got_pdu` from where it has enqueued its job -/
  | recheck
  /-- a thread of the pool takes a job -/
  | take (t : Nat)
  | dispatch (t : Nat) (stat : RpcState Unit)

def useJob (s : ServerConns) (j : DJob) : ServerConns :=
  { s with jobMisused := s.jobMisused || s.jobDeleted j.id != 0 }

def deleteJob (s : ServerConns) (j : DJob) : ServerConns :=
  { s.useJob j with jobDeleted := Function.update s.jobDeleted j.id (s.jobDeleted j.id + 1) }

def goto (s : ServerConns) (id : Nat) (t : JobThread) (phase : JobPhase) : ServerConns :=
  { s with threads := s.threads.set id (some { t with phase }) }

def exit (s : ServerConns) (id : Nat) : ServerConns :=
  { s with threads := s.threads.set id none }

def gotPdu (s : ServerConns) (c : Nat) (pdu : Option Request) : Option ServerConns :=
  if s.reachable then
    let j : DJob := { id := s.jobsCreated, conn := c, pdu }
    let s := { s with jobsCreated := s.jobsCreated + 1, table := s.table.incref c }
    if s.queue.length < queueLimit then
      some { s with queue := s.queue ++ [j], enqueued := some j }
    else
      (s.table.decref c).map fun table => { s with table }.deleteJob j
  else
    some s

/-- The checks of the header, the server instance and the procedure. -/
def check (registered : Nat → Bool) (s : ServerConns) (id : Nat) (t : JobThread) :
    Option ServerConns :=
  match t.pdu with
  | none => (s.table.decref t.conn).map fun table => { s with table }.exit id
  | some r =>
      if r.srvNonce ≠ 0 ∧ r.srvNonce ≠ s.nonce then
        some ({ s with table := s.table.use t.conn }.exit id)
      else if registered r.proc = false then
        (s.table.decref t.conn).map fun table => { s with table }.exit id
      else if r.cltNonce ≠ 0 then
        some (s.goto id t .saving)
      else
        some (s.goto id t .executing)

/-- Save the latest good connection to the client. -/
def saveConn (s : ServerConns) (id : Nat) (t : JobThread) (cltNonce : Nat) :
    Option ServerConns :=
  match s.conns.held cltNonce with
  | none =>
      some ({ s with
        table := s.table.incref t.conn
        conns := s.conns.set cltNonce (some t.conn) }.goto id t .checking)
  | some old =>
      let s := { s with table := (s.table.use old).use t.conn }
      if s.createTime old < s.createTime t.conn then
        (s.table.decref old).map fun table =>
          { s with
            table := table.incref t.conn
            conns := s.conns.set cltNonce (some t.conn) }.goto id t .checking
      else
        some (s.goto id t .checking)

/-- Get the latest connection to the client if this one is dead; without one the null
pointer is dereferenced. -/
def chooseConn (s : ServerConns) (id : Nat) (t : JobThread) (cltNonce : Nat) :
    Option ServerConns :=
  let s := { s with table := s.table.use t.conn }
  if s.table.dead t.conn = true ∧ s.conns.held cltNonce ≠ some t.conn then
    match s.conns.held cltNonce with
    | none => none
    | some c =>
        (s.table.decref t.conn).map fun table =>
          { s with table := table.incref c }.goto id { t with conn := c } .sending
  else
    some (s.goto id t .sending)

def dispatch (registered : Nat → Bool) (s : ServerConns) (id : Nat) (t : JobThread)
    (stat : RpcState Unit) : Option ServerConns :=
  match t.phase, t.pdu with
  | .received, _ => s.check registered id t
  | .saving, some r => s.saveConn id t r.cltNonce
  | .checking, _ =>
      match stat with
      | .new => some (s.goto id t .executing)
      | .inprogress => some (s.goto id t .leaving)
      | .done _ | .forgotten => some (s.goto id t .sending)
  | .executing, _ => some (s.goto id t .choosing)
  | .choosing, some r => s.chooseConn id t r.cltNonce
  | .sending, _ => some ({ s with table := s.table.use t.conn }.goto id t .leaving)
  | .leaving, _ => (s.table.decref t.conn).map fun table => { s with table }.exit id
  | _, _ => none

def step (registered : Nat → Bool) (s : ServerConns) : Action → Option ServerConns
  | .accept fd createTime =>
      -- the descriptor is not that of an open connection
      if ∀ c < s.table.created, s.table.deleted c = 0 → s.channo c ≠ fd then
        some { s with
          table := s.table.create
          channo := Function.update s.channo s.table.created fd
          createTime := Function.update s.createTime s.table.created createTime
          accepted := s.accepted.set fd (some s.table.created) }
      else
        none
  | .collect fd =>
      match s.accepted.held fd with
      | none => none
      | some c =>
          let s := { s with table := s.table.use c }
          -- `i++` after `conns_.erase(i)`
          if s.table.dead c = true ∧ s.table.refno c = 1 then none else some s
  | .close fd =>
      match s.accepted.held fd with
      | none => none
      | some c =>
          (((s.table.use c).die c).decref c).map fun table =>
            { s with table, accepted := s.accepted.set fd none }
  | .die c =>
      if c < s.table.created ∧ s.table.dead c = false then
        some { s with table := s.table.die c }
      else
        none
  | .setReachable r => some { s with reachable := r }
  | .gotPdu c pdu =>
      if c < s.table.created ∧ s.table.dead c = false ∧ s.enqueued.isNone then
        s.gotPdu c pdu
      else
        none
  | .recheck =>
      match s.enqueued with
      | none => none
      | some j =>
          let s := { s with enqueued := none }
          if s.reachable then
            some s
          else
            (s.table.decref j.conn).map fun table => { s with table }.deleteJob j
  | .take t =>
      match s.queue with
      | [] => none
      | j :: queue =>
          if t < poolSize ∧ (s.threads.held t).isNone then
            some { s.deleteJob j with
              queue
              threads := s.threads.set t
                (some { conn := j.conn, pdu := j.pdu, phase := .received }) }
          else
            none
  | .dispatch t stat => (s.threads.held t).bind fun thread => s.dispatch registered t thread stat

def machine (registered : Nat → Bool) (nonce : Nat) : Machine ServerConns Action where
  initial := { nonce }
  step := step registered

end ServerConns

end YfsRpc.Rpc
