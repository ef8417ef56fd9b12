import YfsRpc.LockService.LockClient
import YfsRpc.Rpc.SystemInvariant

/-! # Who has a lock

A thread has a lock from the execution of its acquire to the execution of its
release. The lock server has a lock for a client exactly as long as one thread of
the client has it: the calls of the threads and the executions of the server
determine each other, since no call is executed twice.
-/

namespace YfsRpc.LockService

open YfsRpc.Rpc
open LockProtocol (LockId)

/-! ## Tokens -/

/-- The call a thread has entered and not left with its result. -/
def Status.call? : Status → Option (Op × Nat)
  | .idle => none
  | .calling op number | .aborted op number => some (op, number)

/-- What a call has of a lock, given whether it was executed. -/
def Op.tokens (lid : LockId) (ran : Bool) : Op → Nat
  | .acquire l => if l = lid ∧ ran = true then 1 else 0
  | .release l => if l = lid ∧ ran = false then 1 else 0
  | .bind | .stat _ => 0

namespace ClientThread

def callTokens (t : ClientThread) (ran : Nat → Bool) (lid : LockId) : Nat :=
  match t.status.call? with
  | none => 0
  | some (op, number) => op.tokens lid (ran number)

/-- How often a thread has a lock. -/
def tokens (t : ClientThread) (ran : Nat → Bool) (lid : LockId) : Nat :=
  t.holds.count lid + t.callTokens ran lid

theorem callTokens_eq {t : ClientThread} {ran : Nat → Bool} {op : Op} {number : Nat}
    (call : t.status.call? = some (op, number)) (lid : LockId) :
    t.callTokens ran lid = op.tokens lid (ran number) := by
  simp only [callTokens, call]

/-- A thread that enters a call that was not executed has what it had. -/
theorem tokens_enter {t : ClientThread} {ran : Nat → Bool} {issued : List Request} {op : Op}
    {number : Nat} (idle : t.status = .idle) (admitted : t.admits issued op)
    (fresh : ran number = false) (lid : LockId) :
    (t.enter op number).tokens ran lid = t.tokens ran lid := by
  have before : t.callTokens ran lid = 0 := by
    simp [callTokens, idle, Status.call?]
  have after : (t.enter op number).callTokens ran lid = op.tokens lid false := by
    rw [callTokens_eq rfl, fresh]
  unfold tokens
  rw [before, after]
  cases op with
  | bind | stat | acquire => simp [enter, Op.tokens]
  | release l =>
      have holds : l ∈ t.holds := admitted
      have positive := List.count_pos_iff.mpr holds
      by_cases same : l = lid
      · subst same
        simp only [enter, List.count_erase_self, Op.tokens, and_self, if_true]
        omega
      · simp [enter, Op.tokens, same, List.count_erase_of_ne (Ne.symm same)]

/-- A thread that leaves a call has what it had, if only executed calls are `OK`. -/
theorem tokens_leave {t : ClientThread} {ran : Nat → Bool} {op : Op} {number : Nat}
    {result : Int} (calling : t.status = .calling op number)
    (executed : result = LockProtocol.ok → ran number = true) (lid : LockId) :
    (t.leave op number result).tokens ran lid = t.tokens ran lid := by
  have before : t.callTokens ran lid = op.tokens lid (ran number) :=
    callTokens_eq (by rw [calling]; rfl) lid
  unfold tokens
  rw [before]
  by_cases ok : result = LockProtocol.ok
  · have isRun := executed ok
    cases op with
    | bind => simp [leave, callTokens, Status.call?, Op.tokens]
    | stat => simp [leave, ok, callTokens, Status.call?, Op.tokens]
    | release => simp [leave, ok, callTokens, Status.call?, Op.tokens, isRun]
    | acquire l =>
        by_cases same : l = lid
        · simp [leave, ok, callTokens, Status.call?, Op.tokens, isRun, same]
        · simp [leave, ok, callTokens, Status.call?, Op.tokens, same]
  · cases op with
    | bind => simp [leave, callTokens, Status.call?, Op.tokens]
    | stat | release | acquire => simp [leave, ok, callTokens, Status.call?]

/-- A thread that leaves a call is rid of it if the call is `OK`, or if it is `bind`. -/
theorem leave_call? (t : ClientThread) (op : Op) (number : Nat) (result : Int) :
    (t.leave op number result).status.call? = some (op, number) ∨
      ((t.leave op number result).status.call? = none ∧
        (op = .bind ∨ result = LockProtocol.ok)) := by
  by_cases ok : result = LockProtocol.ok
  · right
    cases op <;> simp [leave, ok, Status.call?]
  · cases op with
    | bind => exact Or.inr ⟨rfl, Or.inl rfl⟩
    | stat | release | acquire =>
        left
        simp [leave, ok, Status.call?]

end ClientThread

namespace LockSystem

variable {ι : Type} {nonce : ι → UInt32} {s next : LockSystem ι}
  {server : Server ι LockServer Handler}

/-- The server has executed the call of this number. -/
def hasRun (nonce : ι → UInt32) (s : LockSystem ι) (c : ι) (number : Nat) : Bool :=
  decide (((nonce c).toNat, number) ∈ s.rpc.server.finished.map fun ex => ex.req.key)

def tokens (nonce : ι → UInt32) (s : LockSystem ι) (c : ι) (id : Nat) (lid : LockId) : Nat :=
  (s.threads c id).tokens (s.hasRun nonce c) lid

/-- A thread in a handler is in the one for its request. -/
def Handling (server : Server ι LockServer Handler) : Prop :=
  ∀ tid t h, server.threads tid = some t → t.pc = .handling h →
    h = if t.req.proc = RpcConst.bind then .rpcbind else .user (handler t.req.proc t.req.payload)

/-- Every call that was entered is executed, or it is in the hands of one thread. -/
structure Calls (nonce : ι → UInt32) (s : LockSystem ι) : Prop where
  issued : ∀ c id op number, (s.threads c id).status.call? = some (op, number) →
    ∃ r ∈ s.rpc.issued c, r.xid = number ∧ r.proc = op.proc ∧ r.payload = op.payload (nonce c)
  own : ∀ c id id' op op' number, (s.threads c id).status.call? = some (op, number) →
    (s.threads c id').status.call? = some (op', number) → id = id'
  pending : ∀ c, ∀ r ∈ s.rpc.issued c, r.proc ≠ RpcConst.bind →
    s.hasRun nonce c r.xid = true ∨
      ∃ id op, (s.threads c id).status.call? = some (op, r.xid)
  handling : Handling s.rpc.server

/-- The lock server has a lock for the client of the one thread that has it. -/
structure Locks (nonce : ι → UInt32) (s : LockSystem ι) : Prop where
  held : ∀ lid clt, s.rpc.server.service.lockedBy lid = some clt →
    ∃ c id, (nonce c).toInt32 = clt ∧ s.tokens nonce c id lid = 1 ∧
      ∀ c' id', s.tokens nonce c' id' lid ≠ 0 → c' = c ∧ id' = id
  free : ∀ lid, s.rpc.server.service.lockedBy lid = none → ∀ c id, s.tokens nonce c id lid = 0

structure Inv (nonce : ι → UInt32) (s : LockSystem ι) : Prop where
  calls : Calls nonce s
  locks : Locks nonce s

/-- The lock server is as before, and so are the tokens. -/
theorem Locks.kept (locks : Locks nonce s)
    (service : next.rpc.server.service = s.rpc.server.service)
    (tokens : ∀ c id lid, next.tokens nonce c id lid = s.tokens nonce c id lid) :
    Locks nonce next where
  held := by
    intro lid clt owner
    rw [service] at owner
    rcases locks.held lid clt owner with ⟨c, id, client, one, others⟩
    refine ⟨c, id, client, (tokens c id lid).trans one, fun c' id' some => ?_⟩
    rw [tokens] at some
    exact others c' id' some
  free := by
    intro lid unlocked c id
    rw [service] at unlocked
    rw [tokens]
    exact locks.free lid unlocked c id

/-! ## Entering and leaving a call -/

/-- What the RPC layer keeps. -/
abbrev RpcInv (nonce : ι → UInt32) (s : LockSystem ι) : Prop :=
  System.Inv (fun c => (nonce c).toNat) s.rpc

/-- An executed call was issued. -/
theorem issued_of_hasRun (sys : s.RpcInv nonce) (distinct : Function.Injective nonce) {c : ι}
    {number : Nat} (ran : s.hasRun nonce c number = true) :
    ∃ r ∈ s.rpc.issued c, r.xid = number := by
  rcases List.mem_map.mp (of_decide_eq_true ran) with ⟨ex, executed, key⟩
  have history := sys.server.history
  rcases history.known _ (history.returned ex executed) with ⟨c', issued⟩
  rw [Request.key, sys.issued.cltNonce c' _ issued, Prod.mk.injEq] at key
  cases distinct (UInt32.toNat_inj.mp key.1)
  exact ⟨ex.req, issued, key.2⟩

/-- The same executions are the same executed calls. -/
theorem hasRun_congr (finished : next.rpc.server.finished = s.rpc.server.finished) :
    next.hasRun nonce = s.hasRun nonce := by
  funext c number
  unfold hasRun
  rw [finished]

theorem hasRun_append {ex : Execution} {c : ι}
    (finished : next.rpc.server.finished = s.rpc.server.finished ++ [ex])
    (own : ex.req.cltNonce = (nonce c).toNat) (distinct : Function.Injective nonce) (c' : ι)
    (number : Nat) :
    next.hasRun nonce c' number = true ↔
      s.hasRun nonce c' number = true ∨ (c' = c ∧ number = ex.req.xid) := by
  unfold hasRun
  rw [finished, decide_eq_true_iff, decide_eq_true_iff, List.map_append, List.mem_append]
  apply or_congr_right
  rw [List.map_singleton, List.mem_singleton, Request.key, own, Prod.mk.injEq, UInt32.toNat_inj]
  exact and_congr_left fun _ => distinct.eq_iff

/-- Only a status that is idle has no call. -/
theorem call?_calling {t : ClientThread} {op : Op} {number : Nat}
    (calling : t.status = .calling op number) : t.status.call? = some (op, number) := by
  rw [calling]
  rfl

/-- The threads and the executions are as before. -/
theorem Inv.frame (inv : Inv nonce s) (threads : next.threads = s.threads)
    (issued : ∀ c, next.rpc.issued c = s.rpc.issued c)
    (finished : next.rpc.server.finished = s.rpc.server.finished)
    (service : next.rpc.server.service = s.rpc.server.service)
    (handling : Handling next.rpc.server) : Inv nonce next where
  calls := by
    refine ⟨?_, ?_, ?_, handling⟩
    · intro c id op number call
      rw [threads] at call
      rw [issued]
      exact inv.calls.issued c id op number call
    · rw [threads]
      exact inv.calls.own
    · intro c r member other
      rw [issued] at member
      rw [threads, hasRun_congr finished]
      exact inv.calls.pending c r member other
  locks := by
    apply inv.locks.kept service
    intro c id lid
    unfold tokens
    rw [threads, hasRun_congr finished]

/-! ## The execution of a call -/

/-- The calls are as before, and the one of the request is executed now. -/
theorem Calls.ran (calls : Calls nonce s) {ex : Execution} {c : ι}
    (finished : next.rpc.server.finished = s.rpc.server.finished ++ [ex])
    (own : ex.req.cltNonce = (nonce c).toNat) (distinct : Function.Injective nonce)
    (threads : next.threads = s.threads) (issued : ∀ c, next.rpc.issued c = s.rpc.issued c)
    (handling : Handling next.rpc.server) : Calls nonce next where
  issued := by
    intro c' id op number call
    rw [threads] at call
    rw [issued]
    exact calls.issued c' id op number call
  own := by
    rw [threads]
    exact calls.own
  pending := by
    intro c' r member other
    rw [threads]
    rw [issued] at member
    rcases calls.pending c' r member other with done | call
    · exact Or.inl ((hasRun_append finished own distinct c' r.xid).mpr (Or.inl done))
    · exact Or.inr call
  handling := handling

/-- The thread whose call it is gets or loses the token of the call. -/
theorem tokens_ran (calls : Calls nonce s) {ex : Execution} {c : ι}
    (finished : next.rpc.server.finished = s.rpc.server.finished ++ [ex])
    (own : ex.req.cltNonce = (nonce c).toNat) (distinct : Function.Injective nonce)
    (threads : next.threads = s.threads) (fresh : s.hasRun nonce c ex.req.xid = false)
    {id : Nat} {op : Op} (call : (s.threads c id).status.call? = some (op, ex.req.xid))
    (lid : LockId) :
    s.tokens nonce c id lid = (s.threads c id).holds.count lid + op.tokens lid false ∧
      next.tokens nonce c id lid = (s.threads c id).holds.count lid + op.tokens lid true ∧
      ∀ c' id', ¬ (c' = c ∧ id' = id) →
        next.tokens nonce c' id' lid = s.tokens nonce c' id' lid := by
  have ran : next.hasRun nonce c ex.req.xid = true :=
    (hasRun_append finished own distinct c ex.req.xid).mpr (Or.inr ⟨rfl, rfl⟩)
  unfold tokens
  rw [threads]
  refine ⟨?_, ?_, ?_⟩
  · unfold ClientThread.tokens
    rw [ClientThread.callTokens_eq call, fresh]
  · unfold ClientThread.tokens
    rw [ClientThread.callTokens_eq call, ran]
  · intro c' id' other
    unfold ClientThread.tokens
    congr 1
    cases found : (s.threads c' id').status.call? with
    | none => simp only [ClientThread.callTokens, found]
    | some entry =>
        rcases entry with ⟨op', number⟩
        rw [ClientThread.callTokens_eq found, ClientThread.callTokens_eq found]
        congr 1
        apply Bool.eq_iff_iff.mpr
        rw [hasRun_append finished own distinct c' number]
        apply or_iff_left
        rintro ⟨rfl, rfl⟩
        exact other ⟨rfl, calls.own c' id' id op' op ex.req.xid found call⟩

/-- An execution that changes no lock changes no token. -/
theorem Locks.ran_plain (locks : Locks nonce s) {ex : Execution} {c : ι}
    (finished : next.rpc.server.finished = s.rpc.server.finished ++ [ex])
    (own : ex.req.cltNonce = (nonce c).toNat) (distinct : Function.Injective nonce)
    (threads : next.threads = s.threads)
    (plain : ∀ id op, (s.threads c id).status.call? = some (op, ex.req.xid) →
      ∀ lid, op.tokens lid true = op.tokens lid false)
    (service : next.rpc.server.service = s.rpc.server.service) : Locks nonce next := by
  apply locks.kept service
  intro c' id' lid
  unfold tokens ClientThread.tokens
  rw [threads]
  congr 1
  cases found : (s.threads c' id').status.call? with
  | none => simp only [ClientThread.callTokens, found]
  | some entry =>
      rcases entry with ⟨op', number⟩
      rw [ClientThread.callTokens_eq found, ClientThread.callTokens_eq found]
      have appended := hasRun_append finished own distinct c' number
      by_cases here : c' = c ∧ number = ex.req.xid
      · rcases here with ⟨rfl, rfl⟩
        have same := plain id' op' found lid
        cases next.hasRun nonce c' ex.req.xid <;> cases s.hasRun nonce c' ex.req.xid <;>
          simp [same]
      · rw [Bool.eq_iff_iff.mpr (appended.trans (or_iff_left here))]

/-- A call that ran leaves the tokens of the locks it does not name. -/
theorem tokens_elsewhere (calls : Calls nonce s) {ex : Execution} {c : ι}
    (finished : next.rpc.server.finished = s.rpc.server.finished ++ [ex])
    (own : ex.req.cltNonce = (nonce c).toNat) (distinct : Function.Injective nonce)
    (threads : next.threads = s.threads) (fresh : s.hasRun nonce c ex.req.xid = false)
    {id : Nat} {op : Op} (call : (s.threads c id).status.call? = some (op, ex.req.xid))
    (other : LockId) (unnamed : op.tokens other true = op.tokens other false)
    (c' : ι) (id' : Nat) : next.tokens nonce c' id' other = s.tokens nonce c' id' other := by
  rcases tokens_ran calls finished own distinct threads fresh call other with ⟨before, after, same⟩
  by_cases here : c' = c ∧ id' = id
  · rcases here with ⟨rfl, rfl⟩
    rw [before, after, unnamed]
  · exact same c' id' here

/-- Only the lock `lid` and its tokens have changed. -/
theorem Locks.changed (locks : Locks nonce s) {lid : LockId}
    (others : ∀ other, other ≠ lid →
      next.rpc.server.service.lockedBy other = s.rpc.server.service.lockedBy other)
    (elsewhere : ∀ other, other ≠ lid → ∀ c id,
      next.tokens nonce c id other = s.tokens nonce c id other)
    (held : ∀ clt, next.rpc.server.service.lockedBy lid = some clt →
      ∃ c id, (nonce c).toInt32 = clt ∧ next.tokens nonce c id lid = 1 ∧
        ∀ c' id', next.tokens nonce c' id' lid ≠ 0 → c' = c ∧ id' = id)
    (free : next.rpc.server.service.lockedBy lid = none →
      ∀ c id, next.tokens nonce c id lid = 0) : Locks nonce next where
  held := by
    intro other clt owner
    by_cases here : other = lid
    · subst here
      exact held clt owner
    · rw [others other here] at owner
      rcases locks.held other clt owner with ⟨c, id, client, one, unique⟩
      refine ⟨c, id, client, (elsewhere other here c id).trans one, fun c' id' some => ?_⟩
      rw [elsewhere other here] at some
      exact unique c' id' some
  free := by
    intro other unlocked c id
    by_cases here : other = lid
    · subst here
      exact free unlocked c id
    · rw [others other here] at unlocked
      rw [elsewhere other here]
      exact locks.free other unlocked c id

/-- A grant gives the lock to the thread whose acquire it is. -/
theorem Locks.acquired (locks : Locks nonce s) (calls : Calls nonce s) {ex : Execution} {c : ι}
    (finished : next.rpc.server.finished = s.rpc.server.finished ++ [ex])
    (own : ex.req.cltNonce = (nonce c).toNat) (distinct : Function.Injective nonce)
    (threads : next.threads = s.threads) (fresh : s.hasRun nonce c ex.req.xid = false)
    {id : Nat} {lid : LockId}
    (call : (s.threads c id).status.call? = some (.acquire lid, ex.req.xid))
    (granted : s.rpc.server.service.grant (nonce c).toInt32 lid = some next.rpc.server.service) :
    Locks nonce next := by
  rcases LockServer.grant_some granted with ⟨unlocked, locked, others⟩
  have elsewhere (other : LockId) (differs : other ≠ lid) :=
    tokens_elsewhere calls finished own distinct threads fresh call other
      (by simp [Op.tokens, Ne.symm differs])
  rcases tokens_ran calls finished own distinct threads fresh call lid with ⟨before, after, same⟩
  have none := locks.free lid unlocked
  refine locks.changed others elsewhere ?_ ?_
  · intro clt owner
    rw [locked] at owner
    cases owner
    refine ⟨c, id, rfl, ?_, ?_⟩
    · have zero := none c id
      rw [before] at zero
      rw [after]
      simp only [Op.tokens, and_self, if_true]
      omega
    · intro c' id' some
      by_contra other
      rw [same c' id' other, none] at some
      contradiction
  · intro free
    rw [locked] at free
    contradiction

/-- A release takes the lock from the thread whose release it is. -/
theorem Locks.released (locks : Locks nonce s) (calls : Calls nonce s) {ex : Execution} {c : ι}
    (finished : next.rpc.server.finished = s.rpc.server.finished ++ [ex])
    (own : ex.req.cltNonce = (nonce c).toNat) (distinct : Function.Injective nonce)
    (threads : next.threads = s.threads) (fresh : s.hasRun nonce c ex.req.xid = false)
    {id : Nat} {lid : LockId}
    (call : (s.threads c id).status.call? = some (.release lid, ex.req.xid))
    (done : s.rpc.server.service.release (nonce c).toInt32 lid = some next.rpc.server.service) :
    Locks nonce next := by
  have elsewhere (other : LockId) (differs : other ≠ lid) :=
    tokens_elsewhere calls finished own distinct threads fresh call other
      (by simp [Op.tokens, Ne.symm differs])
  rcases tokens_ran calls finished own distinct threads fresh call lid with ⟨before, after, same⟩
  simp only [Op.tokens, and_self, if_true, Bool.true_eq_false, and_false, if_false] at before after
  -- the thread has the lock, so it is the only one, and its client is the owner
  have some : s.tokens nonce c id lid ≠ 0 := by omega
  have owner : s.rpc.server.service.lockedBy lid = Option.some (nonce c).toInt32 := by
    cases locked : s.rpc.server.service.lockedBy lid with
    | none => exact absurd (locks.free lid locked c id) some
    | some clt =>
        rcases locks.held lid clt locked with ⟨c', id', client, _, unique⟩
        rw [(unique c id some).1, client]
  rcases LockServer.release_owner done owner with ⟨free, others⟩
  rcases locks.held lid _ owner with ⟨c₁, id₁, _, one, unique⟩
  rcases unique c id some with ⟨rfl, rfl⟩
  refine locks.changed others elsewhere ?_ ?_
  · intro clt locked
    rw [free] at locked
    contradiction
  · intro _ c' id'
    by_cases mine : c' = c ∧ id' = id
    · rcases mine with ⟨rfl, rfl⟩
      omega
    · rw [same c' id' mine]
      by_contra has
      exact mine (unique c' id' has)

/-- A thread that moves to a place outside the handlers, or is gone. -/
theorem Handling.update (handling : Handling server) {id : Nat} {t : Thread ι Handler}
    (pc : Option (Pc ι Handler)) {after : Server ι LockServer Handler}
    (threads : after.threads = Function.update server.threads id (pc.map fun pc => { t with pc }))
    (held : ∀ h, pc = some (.handling h) → h = if t.req.proc = RpcConst.bind then .rpcbind
      else .user (handler t.req.proc t.req.payload)) : Handling after := by
  intro tid t' h found place
  rw [threads] at found
  rcases Server.thread_moved found with ⟨_, now, moved, rfl⟩ | ⟨_, before⟩
  · exact held h (by rw [moved, ← place])
  · exact handling tid t' h before place

theorem Handling.dispatched (handling : Handling server) {id : Nat} {t : Thread ι Handler}
    (current : server.threads id = some t) {after : Server ι LockServer Handler}
    {sent : Option (Message ι)}
    (step : Server.Dispatched lockService server id t after sent) : Handling after := by
  cases step with
  | new | untracked =>
      apply handling.update (some _) rfl
      intro h same
      exact (Pc.handling.inj (Option.some.inj same)).symm
  | paused l place choice state later resumed =>
      rcases resume_waits resumed with ⟨_, rfl⟩
      apply handling.update (some _) rfl
      intro h same
      rw [← Pc.handling.inj (Option.some.inj same)]
      exact handling id t _ current place
  | unregistered | inprogress | sent => exact handling.update (t := t) none rfl nofun
  | _ => exact handling.update (some _) rfl (by intro h same; cases same)

/-- A result that is `OK` was returned by `call1`. -/
theorem valid_of_callM {ret : Return} (ok : callM ret = LockProtocol.ok) : 0 ≤ ret.ret := by
  unfold callM at ok
  split at ok
  · next failure =>
      rw [ok] at failure
      contradiction
  · next valid => exact Int.not_lt.mp valid

/-- A call is for the request of its number. -/
theorem Calls.of_call (calls : Calls nonce s) (sys : s.RpcInv nonce) {c : ι} {r : Request}
    (member : r ∈ s.rpc.issued c) {id : Nat} {op : Op}
    (call : (s.threads c id).status.call? = some (op, r.xid)) :
    r.proc = op.proc ∧ r.payload = op.payload (nonce c) := by
  rcases calls.issued c id op r.xid call with ⟨r', member', xid, rest⟩
  rw [(sys.clients c).unique r' member' r member xid] at rest
  exact rest

/-- The request of a handler that runs was not executed. -/
theorem fresh_of_handling (sys : s.RpcInv nonce) (distinct : Function.Injective nonce)
    {tid : Nat} {t : Thread ι Handler} (current : s.rpc.server.threads tid = some t)
    (handles : Server.Handles t) : s.hasRun nonce t.conn.client t.req.xid = false := by
  have mine := sys.server.threads.known tid t current
  have unfinished := (sys.server.threads.handling current handles).2
  apply decide_eq_false
  intro member
  rcases List.mem_map.mp member with ⟨ex, executed, key⟩
  have history := sys.server.history
  rcases history.known _ (history.returned ex executed) with ⟨c', issued⟩
  have injective : Function.Injective fun c => (nonce c).toNat :=
    fun c c' same => distinct (UInt32.toNat_inj.mp same)
  have same := (Server.issued_eq_of_key sys.issued injective issued mine (by
    rw [key, Request.key, sys.issued.cltNonce _ _ mine])).2
  rw [← same] at unfinished
  exact unfinished (List.mem_map_of_mem executed)

/-- A handler of the lock server runs for the call of one thread. -/
theorem Inv.call_of_handler (inv : Inv nonce s) (sys : s.RpcInv nonce)
    (distinct : Function.Injective nonce) {tid : Nat} {t : Thread ι Handler}
    (current : s.rpc.server.threads tid = some t) {l : Handler}
    (place : t.pc = .handling (.user l)) :
    t.req.proc ≠ RpcConst.bind ∧ ∃ id op,
      (s.threads t.conn.client id).status.call? = some (op, t.req.xid) ∧ op ≠ .bind ∧
        l = op.handler (nonce t.conn.client) := by
  have mine := sys.server.threads.known tid t current
  have fresh := fresh_of_handling sys distinct current ⟨_, place⟩
  have which := inv.calls.handling tid t _ current place
  split at which
  · contradiction
  · next other =>
      rcases inv.calls.pending _ t.req mine other with done | ⟨id, op, call⟩
      · rw [fresh] at done
        contradiction
      · rcases inv.calls.of_call sys mine call with ⟨proc, arguments⟩
        have notBind : op ≠ .bind := by
          rintro rfl
          exact other proc
        refine ⟨other, id, op, call, notBind, ?_⟩
        rw [Running.user.inj which, proc, arguments, handler_payload _ notBind]

/-- The effect of a handler goes to the thread whose call it executes. -/
theorem Inv.dispatched (inv : Inv nonce s) (sys : s.RpcInv nonce)
    (distinct : Function.Injective nonce) {tid : Nat} {t : Thread ι Handler}
    (current : s.rpc.server.threads tid = some t) {server : Server ι LockServer Handler}
    {sent : Option (Message ι)} {replies : List (Message ι)}
    (step : Server.Dispatched lockService s.rpc.server tid t server sent) :
    Inv nonce { s with rpc := { s.rpc with server, replies } } := by
  have handling := inv.calls.handling.dispatched current step
  have mine := sys.server.threads.known tid t current
  have own := sys.issued.cltNonce _ _ mine
  cases step with
  | paused l place choice state later resumed =>
      rcases resume_waits resumed with ⟨rfl, _⟩
      exact inv.frame rfl (fun _ => rfl) rfl rfl handling
  | bound place =>
      have which := inv.calls.handling tid t _ current place
      refine ⟨inv.calls.ran rfl own distinct rfl (fun _ => rfl) handling,
        inv.locks.ran_plain rfl own distinct rfl ?_ rfl⟩
      intro id op call lid
      have proc := (inv.calls.of_call sys mine call).1
      split at which
      · next bind =>
          rw [bind] at proc
          rw [Op.proc_eq_bind.mp proc.symm]
          rfl
      · contradiction
  | returned l place choice state ret payload resumed valid =>
      have fresh := fresh_of_handling sys distinct current ⟨_, place⟩
      have effect := resume_returns resumed
      rcases inv.call_of_handler sys distinct current place with ⟨_, id, op, call, notBind, rfl⟩
      refine ⟨inv.calls.ran rfl own distinct rfl (fun _ => rfl) handling, ?_⟩
      cases op with
      | bind => contradiction
      | stat lid =>
          refine inv.locks.ran_plain rfl own distinct rfl ?_ effect
          intro id' op' call' lid'
          cases inv.calls.own _ _ _ _ _ _ call call'
          cases call.symm.trans call'
          rfl
      | acquire lid => exact inv.locks.acquired inv.calls rfl own distinct rfl fresh call effect
      | release lid => exact inv.locks.released inv.calls rfl own distinct rfl fresh call effect
  | _ => exact inv.frame rfl (fun _ => rfl) rfl rfl handling

variable [DecidableEq ι]

/-- One thread changes. -/
theorem thread_cases {c : ι} {id : Nat} {t : ClientThread}
    (threads : next.threads = s.setThread c id t) (c' : ι) (id' : Nat) :
    (c' = c ∧ id' = id ∧ next.threads c' id' = t) ∨
      (¬ (c' = c ∧ id' = id) ∧ next.threads c' id' = s.threads c' id') := by
  rw [threads]
  unfold setThread
  by_cases client : c' = c
  · subst client
    by_cases thread : id' = id
    · subst thread
      left
      simp
    · right
      simp [thread]
  · right
    simp [client]

/-- A thread enters a call under a number that is new. -/
theorem Inv.entered (inv : Inv nonce s) (sys : s.RpcInv nonce)
    (distinct : Function.Injective nonce) {c : ι} {id : Nat} {op : Op} {h : Request}
    (idle : (s.threads c id).status = .idle)
    (admitted : (s.threads c id).admits (s.rpc.clients c).issued op)
    (threads : next.threads = s.setThread c id ((s.threads c id).enter op h.xid))
    (server : next.rpc.server = s.rpc.server)
    (issued : next.rpc.issued c = s.rpc.issued c ++ [h])
    (others : ∀ c', c' ≠ c → next.rpc.issued c' = s.rpc.issued c')
    (xid : h.xid = (s.rpc.issued c).length + 1) (proc : h.proc = op.proc)
    (payload : h.payload = op.payload (nonce c)) : Inv nonce next := by
  have grown (c' : ι) : s.rpc.issued c' ⊆ next.rpc.issued c' := by
    by_cases here : c' = c
    · subst here
      rw [issued]
      exact List.subset_append_left _ _
    · rw [others c' here]
      exact List.Subset.refl _
  have limit {c' : ι} {id' : Nat} {op' : Op} {number : Nat}
      (call : (s.threads c' id').status.call? = some (op', number)) :
      number ≤ (s.rpc.issued c').length := by
    rcases inv.calls.issued c' id' op' number call with ⟨r, member, rfl, _⟩
    exact ((sys.clients c').range r member).2
  have fresh : s.hasRun nonce c h.xid = false := by
    cases ran : s.hasRun nonce c h.xid with
    | false => rfl
    | true =>
        rcases issued_of_hasRun sys distinct ran with ⟨r, member, same⟩
        have range : r.xid ≤ (s.rpc.issued c).length := ((sys.clients c).range r member).2
        omega
  have ran : next.hasRun nonce = s.hasRun nonce := hasRun_congr (by rw [server])
  refine ⟨⟨?_, ?_, ?_, ?_⟩, inv.locks.kept (by rw [server]) ?_⟩
  · intro c' id' op' number call
    rcases thread_cases threads c' id' with ⟨rfl, rfl, now⟩ | ⟨_, before⟩
    · rw [now] at call
      cases call
      refine ⟨h, ?_, rfl, proc, payload⟩
      rw [issued]
      exact List.mem_append_right _ (List.mem_singleton_self h)
    · rw [before] at call
      rcases inv.calls.issued c' id' op' number call with ⟨r, member, rest⟩
      exact ⟨r, grown c' member, rest⟩
  · intro c' id₁ id₂ op₁ op₂ number call₁ call₂
    rcases thread_cases threads c' id₁ with ⟨rfl, rfl, now₁⟩ | ⟨_, before₁⟩
    · rw [now₁] at call₁
      cases call₁
      rcases thread_cases threads c' id₂ with ⟨_, rfl, _⟩ | ⟨_, before₂⟩
      · rfl
      · rw [before₂] at call₂
        have old := limit call₂
        omega
    · rw [before₁] at call₁
      rcases thread_cases threads c' id₂ with ⟨rfl, rfl, now₂⟩ | ⟨_, before₂⟩
      · rw [now₂] at call₂
        cases call₂
        have old := limit call₁
        omega
      · rw [before₂] at call₂
        exact inv.calls.own c' id₁ id₂ op₁ op₂ number call₁ call₂
  · intro c' r member other
    rw [ran]
    have old (before : r ∈ s.rpc.issued c') : s.hasRun nonce c' r.xid = true ∨
        ∃ id op, (next.threads c' id).status.call? = some (op, r.xid) := by
      rcases inv.calls.pending c' r before other with done | ⟨id', op', call⟩
      · exact Or.inl done
      · right
        rcases thread_cases threads c' id' with ⟨rfl, rfl, _⟩ | ⟨_, same⟩
        · rw [idle] at call
          contradiction
        · exact ⟨id', op', by rw [same]; exact call⟩
    by_cases here : c' = c
    · subst here
      rw [issued] at member
      rcases List.mem_append.mp member with before | new
      · exact old before
      · right
        rw [List.mem_singleton.mp new]
        rcases thread_cases threads c' id with ⟨_, _, now⟩ | ⟨away, _⟩
        · exact ⟨id, op, by rw [now]; rfl⟩
        · exact absurd ⟨rfl, rfl⟩ away
    · rw [others c' here] at member
      exact old member
  · rw [server]
    exact inv.calls.handling
  · intro c' id' lid
    unfold tokens
    rw [ran]
    rcases thread_cases threads c' id' with ⟨rfl, rfl, now⟩ | ⟨_, before⟩
    · rw [now]
      exact ClientThread.tokens_enter idle admitted fresh lid
    · rw [before]

/-- A thread leaves a call. Only a call that was executed is `OK`. -/
theorem Inv.left (inv : Inv nonce s) (sys : s.RpcInv nonce) {c : ι} {id : Nat} {op : Op}
    {number : Nat} {result : Int}
    (calling : (s.threads c id).status = .calling op number)
    (executed : result = LockProtocol.ok → s.hasRun nonce c number = true)
    (threads : next.threads = s.setThread c id ((s.threads c id).leave op number result))
    (server : next.rpc.server = s.rpc.server)
    (issued : ∀ c', next.rpc.issued c' = s.rpc.issued c') : Inv nonce next := by
  have ran : next.hasRun nonce = s.hasRun nonce := hasRun_congr (by rw [server])
  have call := call?_calling calling
  -- the calls that are left were there before
  have fewer {c' : ι} {id' : Nat} {entry : Op × Nat}
      (found : (next.threads c' id').status.call? = some entry) :
      (s.threads c' id').status.call? = some entry := by
    rcases thread_cases threads c' id' with ⟨rfl, rfl, now⟩ | ⟨_, before⟩
    · rw [now] at found
      rcases ClientThread.leave_call? (s.threads c' id') op number result with same | ⟨none, _⟩
      · rw [call, ← same]
        exact found
      · rw [none] at found
        contradiction
    · rw [← before]
      exact found
  refine ⟨⟨?_, ?_, ?_, ?_⟩, inv.locks.kept (by rw [server]) ?_⟩
  · intro c' id' op' number' found
    rw [issued]
    exact inv.calls.issued c' id' op' number' (fewer found)
  · intro c' id₁ id₂ op₁ op₂ number' found₁ found₂
    exact inv.calls.own c' id₁ id₂ op₁ op₂ number' (fewer found₁) (fewer found₂)
  · intro c' r member other
    rw [ran]
    rw [issued] at member
    rcases inv.calls.pending c' r member other with done | ⟨id', op', before⟩
    · exact Or.inl done
    · rcases thread_cases threads c' id' with ⟨rfl, rfl, now⟩ | ⟨_, same⟩
      · have equal := before.symm.trans call
        cases equal
        rcases ClientThread.leave_call? (s.threads c' id') op r.xid result with
          same | ⟨_, rfl | ok⟩
        · exact Or.inr ⟨id', op, by rw [now]; exact same⟩
        · rcases inv.calls.issued c' id' .bind r.xid call with ⟨r', member', same, proc, _⟩
          rw [(sys.clients c').unique r' member' r member same] at proc
          exact absurd proc other
        · exact Or.inl (executed ok)
      · exact Or.inr ⟨id', op', by rw [same]; exact before⟩
  · rw [server]
    exact inv.calls.handling
  · intro c' id' lid
    unfold tokens
    rw [ran]
    rcases thread_cases threads c' id' with ⟨rfl, rfl, now⟩ | ⟨_, before⟩
    · rw [now]
      exact ClientThread.tokens_leave calling executed lid
    · rw [before]

/-! ## Every step -/

theorem Inv.quiet (inv : Inv nonce s) (sys : s.RpcInv nonce)
    (distinct : Function.Injective nonce) {action : System.Action ι} (quiet : Quiet action)
    {rpc : System ι LockServer Handler} (stepped : s.rpcStep nonce action = some rpc) :
    Inv nonce { s with rpc } := by
  have update (c : ι) (cl : Client) (issued : cl.issued = (s.rpc.clients c).issued) :
      Inv nonce { s with rpc := s.rpc.setClient c cl } := by
    refine inv.frame rfl ?_ rfl rfl inv.calls.handling
    exact System.forall_setClient (fun c cl => cl.issued = s.rpc.issued c) issued fun _ => rfl
  cases System.step_cases stepped with
  | call | finish | cancel => contradiction
  | transmit => exact inv.frame rfl (fun _ => rfl) rfl rfl inv.calls.handling
  | gotReply c m => exact update c _ (Client.issued_gotPdu _ _)
  | bind c ret cl done =>
      rcases Client.bind_eq done with ⟨_, _, _, rfl⟩
      exact update c _ rfl
  | gotRequest id conn req server sent done =>
      rcases Server.gotPdu_eq done with ⟨_, rfl⟩
      refine inv.frame rfl (fun _ => rfl) rfl rfl ?_
      intro tid t h found place
      rcases slot_filled found with ⟨_, rfl⟩ | ⟨_, before⟩
      · contradiction
      · exact inv.calls.handling tid t h before place
  | dispatch id choice isdead server sent t current done =>
      exact inv.dispatched sys distinct current done

theorem Inv.step (inv : Inv nonce s) (sys : s.RpcInv nonce) (distinct : Function.Injective nonce)
    {action : Action ι} (stepped : Stepped nonce s action next) : Inv nonce next := by
  cases stepped with
  | rpc action quiet rpc taken => exact inv.quiet sys distinct quiet taken
  | enter c id op idle admitted rpc called =>
      cases System.step_cases called with
      | call _ proc payload cl done =>
          rcases Client.call1_eq done with ⟨_, _, rfl⟩
          have xid := (sys.clients c).count
          let h := (s.rpc.clients c).pack (nonce c).toNat op.proc (op.payload (nonce c))
          have issued : (s.rpc.setClient c ((s.rpc.clients c).register h)).issued c =
              s.rpc.issued c ++ [h] := by
            unfold System.issued
            rw [System.setClient_self]
            rfl
          have others (c' : ι) (other : c' ≠ c) :
              (s.rpc.setClient c ((s.rpc.clients c).register h)).issued c' = s.rpc.issued c' := by
            unfold System.issued
            rw [System.setClient_of_ne s.rpc _ other]
          refine inv.entered sys distinct idle admitted ?_ rfl issued others xid rfl rfl
          rw [show h.xid = (s.rpc.clients c).issued.length + 1 from xid]
  | leave c id op number calling rpc finished ret returned =>
      cases System.step_cases finished with
      | finish _ _ cl done =>
          have after := (sys.clients c).finish done
          rcases Client.finish_eq (sys.clients c) done with ⟨ca, current, rfl⟩
          rw [System.setClient_self, List.getLast?_concat] at returned
          cases returned
          have placed := (sys.clients c).callers number ca current
          refine inv.left sys calling ?_ rfl rfl ?_
          · intro ok
            have result := (after.returned _ (List.mem_append_right _ (List.mem_singleton_self _))).2
              (valid_of_callM ok)
            apply decide_eq_true
            refine List.mem_map.mpr ⟨_, result, ?_⟩
            rw [Request.key, sys.issued.cltNonce c _ placed.req, placed.reqXid]
          · exact System.forall_setClient (fun c cl => cl.issued = s.rpc.issued c) rfl fun _ => rfl

theorem initial_inv (srvNonce : Nat) : Inv nonce (machine nonce srvNonce).initial where
  calls := ⟨nofun, nofun, nofun, nofun⟩
  locks := ⟨nofun, fun _ _ _ _ => rfl⟩

/-- What holds in every run in which no client runs out of xids. -/
theorem reachable_inv (distinct : Function.Injective nonce) (nonzero : ∀ c, nonce c ≠ 0)
    {srvNonce : Nat} (reachable : (machine nonce srvNonce).ReachableUnder FewCalls s) :
    s.RpcInv nonce ∧ Inv nonce s := by
  have rpc {s : LockSystem ι} (reached : (machine nonce srvNonce).ReachableUnder FewCalls s) :
      s.RpcInv nonce := by
    apply System.reachable_inv _ _ (rpc_reachable reached)
    · exact fun c c' same => distinct (UInt32.toNat_inj.mp same)
    · intro c zero
      exact nonzero c (UInt32.toNat_inj.mp zero)
  refine ⟨rpc reachable, ?_⟩
  apply reachable.invariant (Inv nonce) (initial_inv srvNonce)
  intro state action next before inv _ taken
  exact inv.step (rpc before) distinct (step_cases taken)

end LockSystem

end YfsRpc.LockService
