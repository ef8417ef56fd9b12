import YfsRpc.LockService.LockInvariant
import YfsRpc.Rpc.Settled

/-! # Acquires that are executed

As long as no call times out, the caller object of a call is that of a thread that
waits for it. A thread of the server in `grant` is there for the call of acquire of
such a thread, however often the clients have called before.
-/

namespace YfsRpc.LockService

open YfsRpc.Rpc
open LockProtocol (LockId)

theorem Op.proc_eq_acquire {op : Op} (acquire : op.proc = LockProtocol.acquire) :
    ∃ lid, op = .acquire lid := by
  cases op with
  | acquire lid => exact ⟨lid, rfl⟩
  | bind => contradiction
  | stat => exact absurd acquire (show ¬ LockProtocol.stat = LockProtocol.acquire by decide)
  | release => exact absurd acquire (show ¬ LockProtocol.release = LockProtocol.acquire by decide)

/-- Only the procedure `acquire` is handled by `grant`. -/
theorem handler_grant {proc : Nat} {payload : List UInt8} {clt : Int32} {lid : LockId}
    (grant : handler proc payload = .grant clt lid) : proc = LockProtocol.acquire := by
  unfold handler at grant
  split at grant
  · contradiction
  · split at grant
    · assumption
    · split at grant <;> contradiction

namespace LockSystem

variable {ι : Type} {nonce : ι → UInt32} {s next : LockSystem ι}

/-- Every caller object is that of the thread whose call it is. -/
def Owned (s : LockSystem ι) : Prop :=
  ∀ c number ca, (s.rpc.clients c).callers number = some ca →
    ∃ id op, (s.threads c id).status = .calling op number ∧ ca.req.proc = op.proc

structure Promptly (nonce : ι → UInt32) (s : LockSystem ι) : Prop where
  standing : s.rpc.Standing fun c => (nonce c).toNat
  owned : Owned s
  handling : Handling s.rpc.server

/-- A thread of the server is in `lock_server::grant`. -/
def InGrant (s : LockSystem ι) (tid : Nat) : Prop :=
  ∃ t clt lid, s.rpc.server.threads tid = some t ∧ t.pc = .handling (.user (.grant clt lid))

/-- A thread of the server executes the acquire that a thread of a client waits for. -/
def Serves (s : LockSystem ι) (tid : Nat) (caller : ι × Nat) : Prop :=
  ∃ t lid number ca, s.rpc.server.threads tid = some t ∧ Server.Executes t.pc ∧
    (s.threads caller.1 caller.2).status = .calling (.acquire lid) number ∧
    (s.rpc.clients caller.1).callers number = some ca ∧ ca.req = t.req

theorem Promptly.serves_of_inGrant (promptly : Promptly nonce s) {tid : Nat}
    (inGrant : s.InGrant tid) : ∃ caller, s.Serves tid caller := by
  rcases inGrant with ⟨t, clt, lid, current, place⟩
  have executes : Server.Executes t.pc := by
    rw [place]
    trivial
  rcases promptly.standing.call_of_executes current executes with ⟨number, ca, called, req⟩
  rcases promptly.owned _ number ca called with ⟨id, op, calling, proc⟩
  have which := promptly.handling tid t _ current place
  have acquire : op.proc = LockProtocol.acquire := by
    rw [← proc, req]
    split at which
    · contradiction
    · injection which with grant
      exact handler_grant grant.symm
  rcases Op.proc_eq_acquire acquire with ⟨l, rfl⟩
  exact ⟨(t.conn.client, id), t, l, number, ca, current, executes, calling, called, req⟩

/-- No two threads of the server are there for one call. -/
theorem Promptly.serves_unique (promptly : Promptly nonce s) {tid tid' : Nat} {caller : ι × Nat}
    (serves : s.Serves tid caller) (serves' : s.Serves tid' caller) : tid = tid' := by
  rcases serves with ⟨t, lid, number, ca, current, executes, calling, called, req⟩
  rcases serves' with ⟨t', lid', number', ca', current', executes', calling', called', req'⟩
  cases calling.symm.trans calling'
  cases called.symm.trans called'
  refine promptly.standing.server.alone tid t tid' t' current current' executes executes'.passed ?_
  rw [← req, req']

/-! ## Every step -/

/-- The threads are as before, and so are the numbers and requests of the caller objects. -/
theorem Owned.frame (owned : Owned s) (threads : next.threads = s.threads)
    (callers : ∀ c number ca, (next.rpc.clients c).callers number = some ca →
      ∃ before, (s.rpc.clients c).callers number = some before ∧ ca.req = before.req) :
    Owned next := by
  intro c number ca current
  rcases callers c number ca current with ⟨before, was, req⟩
  rw [threads, req]
  exact owned c number before was

/-- A quiet step is one in which no call returns early. -/
theorem Quiet.prompt {action : System.Action ι} (quiet : Quiet action) : s.rpc.Prompt action := by
  cases action with
  | call | finish | cancel => contradiction
  | transmit | gotReply | bind | gotRequest | dispatch => trivial

variable [DecidableEq ι]

theorem initial_promptly {srvNonce : Nat} (small : srvNonce < 2 ^ 32) :
    Promptly nonce (machine nonce srvNonce).initial where
  standing := System.initial_standing small
  owned _ _ _ current := nomatch current
  handling _ _ _ current := nomatch current

theorem Owned.quiet (owned : Owned s) {action : System.Action ι} (quiet : Quiet action)
    {rpc : System ι LockServer Handler} (stepped : s.rpcStep nonce action = some rpc) :
    Owned { s with rpc } := by
  have update (c : ι) (cl : Client) (callers : ∀ number ca, cl.callers number = some ca →
      ∃ before, (s.rpc.clients c).callers number = some before ∧ ca.req = before.req) :
      Owned { s with rpc := s.rpc.setClient c cl } := by
    refine owned.frame rfl (System.forall_setClient (fun c cl => ∀ number ca,
      cl.callers number = some ca → ∃ before, (s.rpc.clients c).callers number = some before ∧
        ca.req = before.req) callers ?_)
    exact fun _ _ ca current => ⟨ca, current, rfl⟩
  cases System.step_cases stepped with
  | call | finish | cancel => contradiction
  | transmit | gotRequest | dispatch => exact owned.frame rfl fun _ _ ca current => ⟨ca, current, rfl⟩
  | gotReply c m =>
      apply update
      intro number ca current
      rcases Client.gotPdu_outcome (s.rpc.clients c) m.answer.reply with
        same | ⟨number', ca', _, was, same⟩
      · rw [same] at current
        exact ⟨ca, current, rfl⟩
      · rw [same] at current
        rcases slot_filled current with ⟨rfl, rfl⟩ | ⟨_, before⟩
        · exact ⟨ca', was, rfl⟩
        · exact ⟨ca, before, rfl⟩
  | bind c ret cl done =>
      rcases Client.bind_eq done with ⟨_, _, _, rfl⟩
      exact update c _ fun _ ca current => ⟨ca, current, rfl⟩

theorem Handling.quiet (handling : Handling s.rpc.server) {action : System.Action ι}
    (quiet : Quiet action) {rpc : System ι LockServer Handler}
    (stepped : s.rpcStep nonce action = some rpc) : Handling rpc.server := by
  cases System.step_cases stepped with
  | call | finish | cancel => contradiction
  | transmit | gotReply | bind => exact handling
  | gotRequest id conn req server sent done =>
      rcases Server.gotPdu_eq done with ⟨_, rfl⟩
      intro tid t h found place
      rcases slot_filled found with ⟨_, rfl⟩ | ⟨_, before⟩
      · contradiction
      · exact handling tid t h before place
  | dispatch id choice isdead server sent t current done => exact handling.dispatched current done

/-- The thread that enters a call was idle, so the caller objects of before are of others. -/
theorem Owned.entered (owned : Owned s) {c : ι} {id : Nat} {op : Op} {h : Request}
    (idle : (s.threads c id).status = .idle) (proc : h.proc = op.proc)
    (threads : next.threads = s.setThread c id
      ((s.threads c id).enter op ((s.rpc.clients c).issued.length + 1)))
    (client : next.rpc.clients c = (s.rpc.clients c).register h)
    (others : ∀ c', c' ≠ c → next.rpc.clients c' = s.rpc.clients c') : Owned next := by
  intro c' number ca current
  have old (before : (s.rpc.clients c').callers number = some ca) :
      ∃ id' op', (next.threads c' id').status = .calling op' number ∧ ca.req.proc = op'.proc := by
    rcases owned c' number ca before with ⟨id', op', calling, proc⟩
    rcases thread_cases threads c' id' with ⟨rfl, rfl, _⟩ | ⟨_, same⟩
    · exact absurd (idle.symm.trans calling) nofun
    · exact ⟨id', op', by rw [same]; exact calling, proc⟩
  by_cases here : c' = c
  · subst here
    rw [client] at current
    by_cases new : number = (s.rpc.clients c').issued.length + 1
    · subst new
      rw [Client.callers_register_self] at current
      cases current
      rcases thread_cases threads c' id with ⟨_, _, now⟩ | ⟨away, _⟩
      · exact ⟨id, op, by rw [now]; rfl, proc⟩
      · exact absurd ⟨rfl, rfl⟩ away
    · rw [Client.callers_register_of_ne h new] at current
      exact old current
  · rw [others c' here] at current
    exact old current

/-- The caller object of the thread that leaves is gone. -/
theorem Owned.left (owned : Owned s) {c : ι} {id : Nat} {op : Op} {number : Nat}
    {t : ClientThread} (calling : (s.threads c id).status = .calling op number)
    (threads : next.threads = s.setThread c id t)
    (callers : ∀ number' ca, (next.rpc.clients c).callers number' = some ca →
      number' ≠ number ∧ (s.rpc.clients c).callers number' = some ca)
    (others : ∀ c', c' ≠ c → next.rpc.clients c' = s.rpc.clients c') : Owned next := by
  intro c' number' ca current
  have old (before : (s.rpc.clients c').callers number' = some ca)
      (other : c' = c → number' ≠ number) :
      ∃ id' op', (next.threads c' id').status = .calling op' number' ∧ ca.req.proc = op'.proc := by
    rcases owned c' number' ca before with ⟨id', op', calling', proc⟩
    rcases thread_cases threads c' id' with ⟨rfl, rfl, _⟩ | ⟨_, same⟩
    · rw [calling] at calling'
      cases calling'
      exact absurd rfl (other rfl)
    · exact ⟨id', op', by rw [same]; exact calling', proc⟩
  by_cases here : c' = c
  · subst here
    rcases callers number' ca current with ⟨other, before⟩
    exact old before fun _ => other
  · rw [others c' here] at current
    exact old current fun same => absurd same here

theorem Promptly.step (promptly : Promptly nonce s) (nonzero : ∀ c, nonce c ≠ 0)
    {action : Action ι} (stepped : Stepped nonce s action next) (noTimeout : NoTimeout s action) :
    Promptly nonce next := by
  have positive : ∀ c, (nonce c).toNat ≠ 0 := by
    intro c zero
    exact nonzero c (UInt32.toNat_inj.mp zero)
  cases stepped with
  | rpc action quiet rpc taken =>
      exact ⟨promptly.standing.step positive quiet.prompt (System.step_cases taken),
        promptly.owned.quiet quiet taken, Handling.quiet promptly.handling quiet taken⟩
  | enter c id op idle admitted rpc called =>
      have prompt : System.Prompt s.rpc (.call c op.proc (op.payload (nonce c))) := by
        intro bind
        cases Op.proc_eq_bind.mp bind
        exact admitted
      have stepped := System.step_cases called
      have standing := promptly.standing.step positive prompt stepped
      cases stepped with
      | call _ _ _ cl done =>
          refine ⟨standing, ?_, promptly.handling⟩
          rcases Client.call1_eq done with ⟨_, _, rfl⟩
          refine promptly.owned.entered idle ?_ rfl (System.setClient_self _ _ _) ?_
          · rfl
          · exact fun c' other => System.setClient_of_ne _ _ other
  | leave c id op number calling rpc finished ret returned =>
      have settled : ¬ (s.rpc.clients c).Waiting number := by
        simpa only [NoTimeout, calling] using noTimeout
      have stepped := System.step_cases finished
      have standing := promptly.standing.step positive
        (show s.rpc.Prompt (.finish c number) from settled) stepped
      cases stepped with
      | finish _ _ cl done =>
          refine ⟨standing, ?_, promptly.handling⟩
          rcases Client.finish_outcome settled done with ⟨_, _, _, rfl⟩
          refine promptly.owned.left calling rfl ?_ ?_
          · exact fun number' ca current => slot_emptied
              (by rw [System.setClient_self] at current; exact current)
          · exact fun c' other => System.setClient_of_ne _ _ other

end LockSystem

end YfsRpc.LockService
