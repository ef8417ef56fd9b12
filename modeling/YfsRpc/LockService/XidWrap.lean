import Mathlib.Logic.Relation
import YfsRpc.LockService.LockInvariant

/-! # Xids that come back

After 2^32 calls a client packs its requests under the old xids again. Any number of calls
may be lost on the way, and a reply that the network kept is taken for the one of the call
that is registered under its xid now. None of this involves the server.
-/

namespace YfsRpc

/-! ## What the next request depends on -/

namespace Rpc.Client

/-- A bound client that admits calls, with the xid and the window of the next request. -/
structure Ready (cl : Client) (srvNonce xid : Nat) (window : List Nat) : Prop where
  bindDone : cl.bindDone = true
  going : cl.destroyWait = false
  srvNonce : cl.srvNonce = srvNonce
  xid : cl.xid = xid
  window : cl.xidRepWindow = window

variable {cl next : Client} {srvNonce xid : Nat} {window : List Nat}

theorem Ready.pack (ready : cl.Ready srvNonce xid window) (cltNonce proc : Nat)
    (payload : List UInt8) :
    cl.pack cltNonce proc payload =
      { xid, proc, cltNonce, srvNonce, xidRep := window.headD 0, payload } := by
  unfold Client.pack Client.front
  rw [ready.xid, ready.srvNonce, ready.window]

theorem Ready.register (ready : cl.Ready srvNonce xid window) (h : Request) :
    (cl.register h).Ready srvNonce ((xid + 1) % 2 ^ 32) window where
  bindDone := ready.bindDone
  going := ready.going
  srvNonce := ready.srvNonce
  xid := by rw [← ready.xid]; rfl
  window := ready.window

theorem Ready.gotPdu (ready : cl.Ready srvNonce xid window) (reply : Reply) :
    (cl.gotPdu reply).Ready srvNonce xid (updateXidRep window reply.xid) := by
  have updated : Ready { cl with xidRepWindow := updateXidRep cl.xidRepWindow reply.xid }
      srvNonce xid (updateXidRep window reply.xid) :=
    ⟨ready.bindDone, ready.going, ready.srvNonce, ready.xid, by rw [← ready.window]⟩
  unfold Client.gotPdu
  dsimp only
  split
  · exact updated
  · split
    · exact updated
    · split
      · exact updated
      · exact ⟨updated.bindDone, updated.going, updated.srvNonce, updated.xid, updated.window⟩

/-- A reply completes the call that waits under its xid. -/
theorem gotPdu_done {reply : Reply} {number : Nat} {ca : Caller}
    (found : cl.calls[reply.xid]? = some number) (current : cl.callers number = some ca)
    (waiting : ca.done = false) :
    (cl.gotPdu reply).callers number =
      some { ca with un := reply.payload, intret := reply.ret, done := true } := by
  unfold Client.gotPdu
  simp only [found, current, waiting, Bool.false_eq_true, if_false, Function.update_self]

/-- A call that is done leaves with what is in its caller object. -/
theorem Ready.finish (ready : cl.Ready srvNonce xid window) {number : Nat} {ca : Caller}
    (current : cl.callers number = some ca) (done : ca.done = true) :
    ∃ next, cl.finish number = some next ∧
      next.Ready srvNonce xid (updateXidRep window ca.xid) ∧ next.issued = cl.issued ∧
      next.returned.getLast? = some { req := ca.req, ret := ca.intret, payload := ca.un } := by
  unfold Client.finish
  rw [current]
  refine ⟨_, rfl, ⟨ready.bindDone, ready.going, ready.srvNonce, ready.xid, ?_⟩, rfl, ?_⟩
  · rw [← ready.window]
  · rw [List.getLast?_concat, done, if_pos rfl]

end Rpc.Client

namespace LockService

open YfsRpc.Rpc
open LockProtocol (LockId)

namespace LockSystem

/-! ## Steps of clients -/

/-- The request that packs an operation. -/
def packed (op : Op) (cltNonce : UInt32) (srvNonce xid xidRep : Nat) : Request where
  xid := xid
  proc := op.proc
  cltNonce := cltNonce.toNat
  srvNonce := srvNonce
  xidRep := xidRep
  payload := op.payload cltNonce

/-- Only a client does something, and no call times out. -/
def OfClient {ι : Type} (s : LockSystem ι) : Action ι → Prop
  | .enter .. | .rpc (.transmit ..) | .rpc (.gotReply ..) => True
  | .leave c id => s.NoTimeout (.leave c id)
  | .rpc _ => False

variable {ι : Type} [DecidableEq ι]

def ClientStep (nonce : ι → UInt32) (s next : LockSystem ι) : Prop :=
  ∃ action, OfClient s action ∧ step nonce s action = some next

/-- A run in which only clients do something. -/
def ClientRun (nonce : ι → UInt32) : LockSystem ι → LockSystem ι → Prop :=
  Relation.ReflTransGen (ClientStep nonce)

variable {nonce : ι → UInt32} {srvNonce xid : Nat} {window : List Nat} {s : LockSystem ι}

/-- A thread that is admitted enters its call. -/
theorem enter_taken {c : ι} {id : Nat} {op : Op} (idle : (s.threads c id).status = .idle)
    (admitted : (s.threads c id).admits (s.rpc.clients c).issued op)
    (ready : (s.rpc.clients c).Ready srvNonce xid window) (other : op ≠ .bind) :
    step nonce s (.enter c id op) = some {
      rpc := s.rpc.setClient c ((s.rpc.clients c).register
        (packed op (nonce c) srvNonce xid (window.headD 0)))
      threads := s.setThread c id
        ((s.threads c id).enter op ((s.rpc.clients c).issued.length + 1)) } := by
  have proc : op.proc ≠ RpcConst.bind := mt Op.proc_eq_bind.mp other
  unfold packed
  rw [← ready.pack]
  simp only [step, idle, admitted, and_self, if_true, rpcStep, System.step, Client.call1, proc,
    ne_eq, not_false_eq_true, ready.bindDone, not_true, and_false, false_and, or_self, if_false,
    ready.going, Bool.false_eq_true, Option.map_some]

/-- A thread whose call is done leaves it with the result. -/
theorem leave_taken {c : ι} {id number : Nat} {op : Op} {cl : Client} {ret : Return}
    (calling : (s.threads c id).status = .calling op number)
    (finished : (s.rpc.clients c).finish number = some cl)
    (returned : cl.returned.getLast? = some ret) :
    step nonce s (.leave c id) = some {
      rpc := s.rpc.setClient c cl
      threads := s.setThread c id ((s.threads c id).leave op number (callM ret)) } := by
  simp only [step, calling, rpcStep, System.step, finished, Option.map_some, Option.bind_some,
    System.setClient_self, returned]

/-- What a client looks like when one of its threads has entered a call. -/
structure Entered (c : ι) (id : Nat) (op : Op) (h : Request) (s next : LockSystem ι) : Prop where
  server : next.rpc.server = s.rpc.server
  replies : next.rpc.replies = s.rpc.replies
  client : next.rpc.clients c = (s.rpc.clients c).register h
  threads : next.threads = s.setThread c id
    ((s.threads c id).enter op ((s.rpc.clients c).issued.length + 1))

theorem exists_entered (nonce : ι → UInt32) {c : ι} {id : Nat} (op : Op)
    (idle : (s.threads c id).status = .idle)
    (admitted : (s.threads c id).admits (s.rpc.clients c).issued op)
    (ready : (s.rpc.clients c).Ready srvNonce xid window) (other : op ≠ .bind) :
    ∃ next, ClientStep nonce s next ∧
      Entered c id op (packed op (nonce c) srvNonce xid (window.headD 0)) s next :=
  ⟨_, ⟨.enter c id op, trivial, enter_taken idle admitted ready other⟩, rfl, rfl,
    System.setClient_self _ _ _, rfl⟩

/-- A call may be made and its request sent. -/
theorem exists_requested (nonce : ι → UInt32) {c : ι} {id : Nat} (op : Op)
    (idle : (s.threads c id).status = .idle)
    (admitted : (s.threads c id).admits (s.rpc.clients c).issued op)
    (ready : (s.rpc.clients c).Ready srvNonce xid window) (other : op ≠ .bind) {h : Request}
    (request : h = packed op (nonce c) srvNonce xid (window.headD 0)) :
    ∃ next, ClientRun nonce s next ∧ Entered c id op h s next ∧
      ({ client := c, serial := 0, createTime := 0 }, h) ∈ next.rpc.requests := by
  rcases exists_entered nonce op idle admitted ready other with ⟨mid, first, entered⟩
  rw [← request] at entered
  have current : (mid.rpc.clients c).callers ((s.rpc.clients c).issued.length + 1) =
      some { xid := h.xid, req := h } := by
    rw [entered.client]
    exact Client.callers_register_self h
  let sent : Conn ι × Request := ({ client := c, serial := 0, createTime := 0 }, h)
  have second : ClientStep nonce mid
      { mid with rpc := { mid.rpc with requests := mid.rpc.requests ++ [sent] } } :=
    ⟨.rpc (.transmit c ((s.rpc.clients c).issued.length + 1) 0 0), trivial, by
      simp only [step, rpcStep, System.step, current, Option.map_some, sent]⟩
  refine ⟨_, (Relation.ReflTransGen.single first).tail second, ?_, ?_⟩
  · exact ⟨entered.server, entered.replies, entered.client, entered.threads⟩
  · exact List.mem_append_right _ (List.mem_singleton_self _)

/-! ## Lost calls -/

/-- What is left when calls of other threads are lost: the xid has moved on. -/
structure MovedOn (c : ι) (first count : Nat) (s next : LockSystem ι) : Prop where
  server : next.rpc.server = s.rpc.server
  replies : next.rpc.replies = s.rpc.replies
  others : ∀ id, id < first → next.threads c id = s.threads c id
  later : ∀ id, first + count ≤ id → next.threads c id = s.threads c id

/-- Only finitely many threads of a client have ever called. -/
theorem reachable_idle {first : Nat} (reachable : (machine nonce first).Reachable s) (c : ι) :
    ∃ bound, ∀ id, bound ≤ id → (s.threads c id).status = .idle := by
  have update {s : LockSystem ι}
      (before : ∃ bound, ∀ id, bound ≤ id → (s.threads c id).status = .idle)
      (c' : ι) (id' : Nat) (t : ClientThread) :
      ∃ bound, ∀ id, bound ≤ id → (s.setThread c' id' t c id).status = .idle := by
    rcases before with ⟨bound, idle⟩
    refine ⟨max bound (id' + 1), fun id above => ?_⟩
    have other : id ≠ id' := by omega
    have same : s.setThread c' id' t c id = s.threads c id := by
      by_cases client : c = c'
      · subst client
        simp [setThread, other]
      · simp [setThread, client]
    rw [same]
    exact idle id (by omega)
  apply reachable.invariant fun s => ∃ bound, ∀ id, bound ≤ id → (s.threads c id).status = .idle
  · exact ⟨0, fun _ _ => rfl⟩
  · intro state action next _ before taken
    cases step_cases taken with
    | enter c' id' op => exact update before c' id' _
    | leave c' id' op number => exact update before c' id' _
    | rpc => exact before

/-- Any number of calls may be lost. -/
theorem exists_movedOn (nonce : ι → UInt32) {c : ι}
    (ready : (s.rpc.clients c).Ready srvNonce xid window)
    (range : xid < 2 ^ 32) (first count : Nat)
    (idle : ∀ id, first ≤ id → (s.threads c id).status = .idle) :
    ∃ next, ClientRun nonce s next ∧ MovedOn c first count s next ∧
      (next.rpc.clients c).Ready srvNonce ((xid + count) % 2 ^ 32) window := by
  induction count with
  | zero =>
      rw [Nat.add_zero, Nat.mod_eq_of_lt range]
      exact ⟨s, .refl, ⟨rfl, rfl, fun _ _ => rfl, fun _ _ => rfl⟩, ready⟩
  | succ count induction =>
      rcases induction with ⟨before, run, moved, now⟩
      have free : (before.threads c (first + count)).status = .idle := by
        rw [moved.later _ (Nat.le_refl _)]
        exact idle _ (Nat.le_add_right _ _)
      rcases exists_entered nonce (.stat 0) free trivial now nofun with
        ⟨next, taken, entered⟩
      have away (id : Nat) (differs : id ≠ first + count) :
          next.threads c id = before.threads c id := by
        rw [entered.threads]
        simp [setThread, differs]
      refine ⟨next, run.tail taken, ⟨?_, ?_, ?_, ?_⟩, ?_⟩
      · rw [entered.server, moved.server]
      · rw [entered.replies, moved.replies]
      · intro id below
        rw [away id (by omega), moved.others id below]
      · intro id above
        rw [away id (by omega), moved.later id (by omega)]
      · rw [entered.client]
        have after := now.register
          (packed (.stat 0) (nonce c) srvNonce ((xid + count) % 2 ^ 32) (window.headD 0))
        rwa [Nat.mod_add_mod, Nat.add_assoc] at after

/-! ## Replies to old calls -/

/-- A reply completes the call that is registered under its xid now. -/
theorem exists_received {before : LockSystem ι} {m : Message ι} {id : Nat} {op : Op} {h : Request}
    (entered : Entered m.dest id op h before s) (sent : m ∈ before.rpc.replies)
    (same : m.answer.reply.xid = h.xid) (ready : (s.rpc.clients m.dest).Ready srvNonce xid window) :
    ∃ next, ClientStep nonce s next ∧ next.rpc.server = s.rpc.server ∧ next.threads = s.threads ∧
      (next.rpc.clients m.dest).Ready srvNonce xid (updateXidRep window h.xid) ∧
      (next.rpc.clients m.dest).callers ((before.rpc.clients m.dest).issued.length + 1) = some {
        xid := h.xid
        req := h
        un := m.answer.reply.payload
        intret := m.answer.reply.ret
        done := true } := by
  have found : (s.rpc.clients m.dest).calls[m.answer.reply.xid]? =
      some ((before.rpc.clients m.dest).issued.length + 1) := by
    rw [entered.client, Client.calls_register, if_pos same.symm]
  have current : (s.rpc.clients m.dest).callers ((before.rpc.clients m.dest).issued.length + 1) =
      some { xid := h.xid, req := h } := by
    rw [entered.client]
    exact Client.callers_register_self h
  have here : m ∈ s.rpc.replies := entered.replies ▸ sent
  refine ⟨{ s with rpc := s.rpc.setClient m.dest ((s.rpc.clients m.dest).gotPdu m.answer.reply) },
    ⟨.rpc (.gotReply m.dest m), trivial, ?_⟩, rfl, rfl, ?_, ?_⟩
  · simp only [step, rpcStep, System.step, here, and_self, if_true, Option.map_some]
  · change ((s.rpc.setClient m.dest _).clients m.dest).Ready _ _ _
    rw [System.setClient_self, ← same]
    exact ready.gotPdu m.answer.reply
  · change ((s.rpc.setClient m.dest _).clients m.dest).callers _ = _
    rw [System.setClient_self]
    exact Client.gotPdu_done found current rfl

/-- A reply to an old call is taken for that to a new one. -/
theorem exists_answered (nonce : ι → UInt32) {id : Nat} (op : Op) {m : Message ι}
    (idle : (s.threads m.dest id).status = .idle)
    (admitted : (s.threads m.dest id).admits (s.rpc.clients m.dest).issued op)
    (ready : (s.rpc.clients m.dest).Ready srvNonce xid window) (other : op ≠ .bind)
    (sent : m ∈ s.rpc.replies) (same : m.answer.reply.xid = xid)
    (ok : ∀ req, callM { req, ret := m.answer.reply.ret, payload := m.answer.reply.payload } =
      LockProtocol.ok) :
    ∃ next number, ClientRun nonce s next ∧ next.rpc.server = s.rpc.server ∧
      (next.rpc.clients m.dest).Ready srvNonce ((xid + 1) % 2 ^ 32)
        (updateXidRep (updateXidRep window xid) xid) ∧
      next.threads = s.setThread m.dest id
        (((s.threads m.dest id).enter op number).leave op number LockProtocol.ok) := by
  let number := (s.rpc.clients m.dest).issued.length + 1
  rcases exists_entered nonce op idle admitted ready other with ⟨s₁, first, entered⟩
  have ready₁ := ready.register (packed op (nonce m.dest) srvNonce xid (window.headD 0))
  rw [← entered.client] at ready₁
  rcases exists_received entered sent same ready₁ with
    ⟨s₂, second, server, threads, ready₂, current⟩
  rcases ready₂.finish current rfl with ⟨cl, finished, ready₃, _, returned⟩
  have calling : (s₂.threads m.dest id).status = .calling op number := by
    rw [threads, entered.threads]
    simp [setThread, ClientThread.enter, number]
  have third : ClientStep nonce s₂ { s₂ with
      rpc := s₂.rpc.setClient m.dest cl
      threads := s₂.setThread m.dest id
        ((s₂.threads m.dest id).leave op number LockProtocol.ok) } := by
    refine ⟨.leave m.dest id, ?_, ?_⟩
    · simp only [OfClient, NoTimeout, calling]
      rintro ⟨ca, current', waiting⟩
      cases current.symm.trans current'
      contradiction
    · rw [leave_taken calling finished returned, ok]
  refine ⟨_, number, ((Relation.ReflTransGen.single first).tail second).tail third, ?_, ?_, ?_⟩
  · exact server.trans entered.server
  · change ((s₂.rpc.setClient m.dest cl).clients m.dest).Ready _ _ _
    rw [System.setClient_self]
    exact ready₃
  · change s₂.setThread m.dest id ((s₂.threads m.dest id).leave op number _) = _
    unfold setThread
    rw [threads, entered.threads]
    simp [setThread, number]

end LockSystem

end LockService

end YfsRpc
