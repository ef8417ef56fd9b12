import YfsRpc.Foundation.Holders
import YfsRpc.Rpc.ReplyBuffers
import YfsRpc.Rpc.System

/-! # The server with its reply buffers in memory

`dispatch` passes replies on as pointers. The entries of the reply window point to heap
blocks, and a thread sends from the block it points to after `reply_window_m_` is dropped.
A block that is freed meanwhile may be allocated again for another reply, and what is sent
is what the block holds by then.
-/

namespace YfsRpc.Rpc

/-- Where a thread is in `dispatch`; `b1` is the address of its buffer. -/
inductive RawPc (ι Local : Type)
  /-- before the checks of the server instance and the procedure -/
  | received
  /-- before the update of `conns_` -/
  | saving
  /-- before `checkduplicate_and_update` -/
  | checking
  /-- in `f->fn` -/
  | handling (h : Running Local)
  /-- before `add_reply` -/
  | replying (b1 : Nat)
  /-- before the choice of the latest connection -/
  | choosing (b1 : Nat)
  /-- before the end of `send` -/
  | sending (c : Conn ι) (b1 : Nat)
  /-- before the end of `send`, with a reply in the marshall object of the thread -/
  | refusing (a : Answer)

structure RawThread (ι Local : Type) where
  conn : Conn ι
  req : Request
  pc : RawPc ι Local

structure RawServer (ι σ Local : Type) where
  nonce : Nat
  service : σ
  replyWindow : Nat → List (ReplyT Nat) := fun _ => []
  conns : Nat → Option (Conn ι) := fun _ => none
  threads : Holders Nat (RawThread ι Local) := .empty
  /-- the allocated blocks, each with the reply that was packed into it -/
  heap : Nat → Option Answer := fun _ => none
  /-- history: the requests classified `NEW` by `checkduplicate_and_update` -/
  news : List (Nat × Nat) := []
  /-- history: the requests whose handler was called -/
  begun : List Request := []
  /-- history: the handlers that returned -/
  finished : List Execution := []
  /-- history: the replies passed to `add_reply` -/
  recorded : List Answer := []

/-- The buffer that the thread has a pointer to. -/
def RawPc.buffer {ι Local : Type} : RawPc ι Local → Option Nat
  | .replying b1 | .choosing b1 | .sending _ b1 => some b1
  | .received | .saving | .checking | .handling _ | .refusing _ => none

namespace RawServer

variable {ι σ Local : Type}

def goto (s : RawServer ι σ Local) (id : Nat) (t : RawThread ι Local) (pc : RawPc ι Local) :
    RawServer ι σ Local :=
  { s with threads := s.threads.set id (some { t with pc }) }

def exit (s : RawServer ι σ Local) (id : Nat) : RawServer ι σ Local :=
  { s with threads := s.threads.set id none }

def free (s : RawServer ι σ Local) (buffers : List Nat) : RawServer ι σ Local :=
  { s with heap := fun b => if b ∈ buffers then none else s.heap b }

/-- A job of the dispatch pool starts. -/
def gotPdu (id : Nat) (conn : Conn ι) (req : Request) (s : RawServer ι σ Local) :
    Option (RawServer ι σ Local) :=
  match s.threads.held id with
  | some _ => none
  | none => some { s with
      threads := s.threads.set id (some { conn, req, pc := .received }) }

/-- The case `NEW`: call the handler. -/
def invoke (service : Service σ Local) (s : RawServer ι σ Local) (id : Nat)
    (t : RawThread ι Local) : RawServer ι σ Local :=
  let h :=
    if t.req.proc = RpcConst.bind then .rpcbind
    else .user (service.invoke t.req.proc t.req.payload)
  { s with begun := s.begun ++ [t.req] }.goto id t (.handling h)

def check (service : Service σ Local) (s : RawServer ι σ Local) (id : Nat)
    (t : RawThread ι Local) : RawServer ι σ Local :=
  if t.req.srvNonce ≠ 0 ∧ t.req.srvNonce ≠ s.nonce then
    s.goto id t (.refusing (Server.refuse t.req RpcConst.oldsrvFailure))
  else if t.req.proc ≠ RpcConst.bind ∧ ¬ service.registered t.req.proc then
    s.exit id
  else if t.req.cltNonce ≠ 0 then
    s.goto id t .saving
  else
    s.invoke service id t

/-- Save the latest good connection to the client. -/
def saveConn (s : RawServer ι σ Local) (id : Nat) (t : RawThread ι Local) :
    RawServer ι σ Local :=
  let conns :=
    match s.conns t.req.cltNonce with
    | none => Function.update s.conns t.req.cltNonce (some t.conn)
    | some old =>
        if old.createTime < t.conn.createTime then
          Function.update s.conns t.req.cltNonce (some t.conn)
        else
          s.conns
  { s with conns }.goto id t .checking

def updateWindow (s : RawServer ι σ Local) (cltNonce : Nat) (window : List (ReplyT Nat)) :
    RawServer ι σ Local :=
  { s with replyWindow := Function.update s.replyWindow cltNonce window }

/-- The check frees the buffers of the entries it deletes. `DONE` with a null buffer has no
successor. -/
def classify (service : Service σ Local) (s : RawServer ι σ Local) (id : Nat)
    (t : RawThread ι Local) : Option (RawServer ι σ Local) :=
  let window := s.replyWindow t.req.cltNonce
  let (stat, updated) := checkduplicateAndUpdate window t.req.xid t.req.xidRep
  let s := (s.free (scanFreed t.req.xid t.req.xidRep [] window)).updateWindow
    t.req.cltNonce updated
  match stat with
  | .new => some ({ s with news := s.news ++ [t.req.key] }.invoke service id t)
  | .inprogress => some (s.exit id)
  | .done none => none
  | .done (some b1) => some (s.goto id t (.sending t.conn b1))
  | .forgotten =>
      some (s.goto id t (.refusing (Server.refuse t.req RpcConst.atmostonceFailure)))

/-- The handler has returned: pack the reply. `block` is the block that the marshall object
has in the end, which `malloc` or `realloc` handed out to nobody else. -/
def finishHandler (s : RawServer ι σ Local) (id : Nat) (t : RawThread ι Local) (ret : Int)
    (payload : List UInt8) (block : Nat) : Option (RawServer ι σ Local) :=
  let a : Answer := { cause := t.req, reply := { xid := t.req.xid, ret, payload } }
  let finished := s.finished ++ [{ req := t.req, ret, payload : Execution }]
  if s.heap block = none then
    some ({ s with
      finished
      heap := Function.update s.heap block (some a) }.goto id t (.replying block))
  else
    none

/-- Let the handler run. Its result is 0 or more, or `unmarshal_args_failure`. -/
def handle (service : Service σ Local) (s : RawServer ι σ Local) (id : Nat)
    (t : RawThread ι Local) (h : Running Local) (choice block : Nat) :
    Option (RawServer ι σ Local) :=
  let resumed : Option (σ × (Local ⊕ (Int × List UInt8))) :=
    match h with
    | .rpcbind => some (s.service, .inr (Server.rpcbind s.nonce t.req.payload))
    | .user l => service.resume s.service l choice
  match resumed with
  | none => none
  | some (state, .inl l) => some ({ s with service := state }.goto id t (.handling (.user l)))
  | some (state, .inr (ret, payload)) =>
      if ret ≥ 0 ∨ ret = RpcConst.unmarshalArgsFailure then
        { s with service := state }.finishHandler id t ret payload block
      else
        none

def record (s : RawServer ι σ Local) (id : Nat) (t : RawThread ι Local) (b1 : Nat) :
    RawServer ι σ Local :=
  if t.req.cltNonce > 0 then
    { s.updateWindow t.req.cltNonce
        (addReply t.req.xid b1 (s.replyWindow t.req.cltNonce)) with
      recorded := s.recorded ++ (s.heap b1).toList }.goto id t (.choosing b1)
  else
    s.goto id t (.choosing b1)

/-- Get the latest connection to the client if this one is dead; without one
the null pointer is dereferenced. -/
def chooseConn [DecidableEq ι] (s : RawServer ι σ Local) (id : Nat) (t : RawThread ι Local)
    (b1 : Nat) (isdead : Bool) : Option (RawServer ι σ Local) :=
  if isdead ∧ s.conns t.req.cltNonce ≠ some t.conn then
    (s.conns t.req.cltNonce).map fun c => s.goto id t (.sending c b1)
  else
    some (s.goto id t (.sending t.conn b1))

/-- `send` takes what the block holds when it comes to its end; to read a block that is free
has no successor. Afterwards the reply to a client without a window is freed. -/
def send (s : RawServer ι σ Local) (id : Nat) (t : RawThread ι Local) (c : Conn ι) (b1 : Nat) :
    Option (RawServer ι σ Local × Option (Message ι)) :=
  (s.heap b1).map fun a =>
    (if t.req.cltNonce = 0 then (s.free [b1]).exit id else s.exit id,
      some { dest := c.client, answer := a, nonce := s.nonce })

/-- One step of `dispatch`, and what it sends. -/
def dispatch [DecidableEq ι] (service : Service σ Local) (s : RawServer ι σ Local)
    (id choice : Nat) (isdead : Bool) (block : Nat) :
    Option (RawServer ι σ Local × Option (Message ι)) :=
  match s.threads.held id with
  | none => none
  | some t =>
      match t.pc with
      | .received => some (s.check service id t, none)
      | .saving => some (s.saveConn id t, none)
      | .checking => (s.classify service id t).map fun s => (s, none)
      | .handling h => (s.handle service id t h choice block).map fun s => (s, none)
      | .replying b1 => some (s.record id t b1, none)
      | .choosing b1 => (s.chooseConn id t b1 isdead).map fun s => (s, none)
      | .sending c b1 => s.send id t c b1
      | .refusing a => some (s.exit id,
          some { dest := t.conn.client, answer := a, nonce := s.nonce })

/-- The thread has a pointer to the stored reply of a call of the client below the bound. -/
def SendsBelow (s : RawServer ι σ Local) (cltNonce bound : Nat) (u : RawThread ι Local) : Prop :=
  u.req.cltNonce = cltNonce ∧ u.req.xid < bound ∧
    ∃ e ∈ s.replyWindow cltNonce, e.xid = u.req.xid ∧ e.buf.isSome ∧ u.pc.buffer = e.buf

instance (s : RawServer ι σ Local) (cltNonce bound : Nat) (u : RawThread ι Local) :
    Decidable (SendsBelow s cltNonce bound u) := by
  unfold SendsBelow
  infer_instance

/-- If the thread is at the check, no other one is still sending a stored reply that its
request acknowledges. -/
def Delivered (s : RawServer ι σ Local) (id : Nat) : Prop :=
  ∀ t ∈ s.threads.held id, t.pc matches .checking →
    ∀ other ∈ s.threads.keys, ∀ u ∈ s.threads.held other,
      ¬ SendsBelow s t.req.cltNonce t.req.xidRep u

instance (s : RawServer ι σ Local) (id : Nat) : Decidable (Delivered s id) := by
  unfold Delivered
  infer_instance

end RawServer

end YfsRpc.Rpc
