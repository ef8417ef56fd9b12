import YfsRpc.LockService.MutualExclusion
import YfsRpc.Rpc.Patient

/-! # Grants and current acquisitions

An acquisition is current from the execution of the acquire to that of the
release. When no call times out, no thread fails an assertion, and each lock
that the server holds for a client is the current acquisition of one thread.
-/

namespace YfsRpc.LockService.LockSystem

open YfsRpc.Rpc
open LockProtocol (LockId)

variable {ι : Type} {nonce : ι → UInt32} {s next : LockSystem ι}

/-- The acquire of the thread was executed, and its release was not. -/
def Current (nonce : ι → UInt32) (s : LockSystem ι) (c : ι) (id : Nat) (lid : LockId) : Prop :=
  lid ∈ (s.threads c id).holds ∨ ∃ number,
    ((s.threads c id).status = .calling (.acquire lid) number ∧
      s.hasRun nonce c number = true) ∨
    ((s.threads c id).status = .calling (.release lid) number ∧
      s.hasRun nonce c number = false)

/-- No thread has failed the assertion on a result. -/
def NoneAborted (s : LockSystem ι) : Prop :=
  ∀ c id op number, (s.threads c id).status ≠ .aborted op number

/-- A lock that is held for a client is the current acquisition of exactly one of
its threads, and of no thread of another client. -/
def Accounted (nonce : ι → UInt32) (s : LockSystem ι) : Prop :=
  ∀ lid clt, s.rpc.server.service.lockedBy lid = some clt →
    ∃ c, (nonce c).toInt32 = clt ∧ ∃ id, s.Current nonce c id lid ∧
      ∀ c' id', s.Current nonce c' id' lid → c' = c ∧ id' = id

theorem tokens_of_current {c : ι} {id : Nat} {lid : LockId} (current : s.Current nonce c id lid) :
    s.tokens nonce c id lid ≠ 0 := by
  rcases current with holds | ⟨number, ⟨calling, ran⟩ | ⟨calling, ran⟩⟩
  · exact tokens_of_holds holds
  · unfold tokens ClientThread.tokens
    rw [ClientThread.callTokens_eq (call?_calling calling), ran]
    simp [Op.tokens]
  · unfold tokens ClientThread.tokens
    rw [ClientThread.callTokens_eq (call?_calling calling), ran]
    simp [Op.tokens]

/-- A thread that has a lock and did not fail is in its acquisition. -/
theorem NoneAborted.current_of_tokens (none : NoneAborted s) {c : ι} {id : Nat} {lid : LockId}
    (some : s.tokens nonce c id lid ≠ 0) : s.Current nonce c id lid := by
  by_cases holds : lid ∈ (s.threads c id).holds
  · exact Or.inl holds
  · right
    have called : (s.threads c id).callTokens (s.hasRun nonce c) lid ≠ 0 := by
      unfold tokens ClientThread.tokens at some
      rw [List.count_eq_zero.mpr holds] at some
      omega
    cases status : (s.threads c id).status with
    | idle => simp [ClientThread.callTokens, status, Status.call?] at called
    | aborted op number => exact absurd status (none c id op number)
    | calling op number =>
        rw [ClientThread.callTokens_eq (call?_calling status)] at called
        refine ⟨number, ?_⟩
        cases ran : s.hasRun nonce c number with
        | true =>
            left
            cases op with
            | acquire l =>
                by_cases same : l = lid
                · exact ⟨by rw [same], rfl⟩
                · simp [Op.tokens, same] at called
            | bind | stat | release => simp [Op.tokens, ran] at called
        | false =>
            right
            cases op with
            | release l =>
                by_cases same : l = lid
                · exact ⟨by rw [same], rfl⟩
                · simp [Op.tokens, same] at called
            | bind | stat | acquire => simp [Op.tokens, ran] at called

theorem Locks.accounted (locks : Locks nonce s) (none : NoneAborted s) : Accounted nonce s := by
  intro lid clt owner
  rcases locks.held lid clt owner with ⟨c, id, client, one, unique⟩
  refine ⟨c, client, id, none.current_of_tokens (by omega), fun c' id' current => ?_⟩
  exact unique c' id' (tokens_of_current current)

/-! ## No call fails -/

theorem callM_ok (req : Request) (x : Int32) :
    callM { req, ret := LockProtocol.ok, payload := Server.encodeInt x } = LockProtocol.ok := by
  unfold callM
  rw [if_neg (show ¬ LockProtocol.ok < 0 by decide), decodeInt_encodeInt]

/-- The executions of the lock server are `OK` for the clients. -/
def Succeeded (s : LockSystem ι) : Prop :=
  ∀ ex ∈ s.rpc.server.finished, ex.req.proc ≠ RpcConst.bind →
    callM { req := ex.req, ret := ex.ret, payload := ex.payload } = LockProtocol.ok

theorem Succeeded.dispatched (succeeded : Succeeded s) (inv : Inv nonce s) (sys : s.RpcInv nonce)
    (distinct : Function.Injective nonce) {tid : Nat} {t : Thread ι Handler}
    (current : s.rpc.server.threads tid = some t) {server : Server ι LockServer Handler}
    {sent : Option (Message ι)}
    (step : Server.Dispatched lockService s.rpc.server tid t server sent) :
    ∀ ex ∈ server.finished, ex.req.proc ≠ RpcConst.bind →
      callM { req := ex.req, ret := ex.ret, payload := ex.payload } = LockProtocol.ok := by
  cases step with
  | bound place =>
      intro ex member other
      rcases List.mem_append.mp member with old | isNew
      · exact succeeded ex old other
      · rw [List.mem_singleton.mp isNew] at other
        have which := inv.calls.handling tid t _ current place
        rw [if_neg other] at which
        contradiction
  | returned l place choice state ret payload resumed =>
      intro ex member other
      rcases List.mem_append.mp member with old | isNew
      · exact succeeded ex old other
      · rcases inv.call_of_handler sys distinct current place with ⟨_, id, op, _, notBind, rfl⟩
        rcases resume_ok (Op.handler_unmarshalled _ notBind) resumed with ⟨rfl, r, rfl⟩
        rw [List.mem_singleton.mp isNew]
        exact callM_ok t.req r
  | _ => exact succeeded

variable [DecidableEq ι] {action : Action ι} {srvNonce : Nat}

/-- The RPC layer of a run without timeouts is one of clients that wait. -/
theorem Stepped.patient (stepped : Stepped nonce s action next) (few : FewCalls s action)
    (noTimeout : NoTimeout s action) :
    ∃ action', s.rpcStep nonce action' = some next.rpc ∧ System.Patient s.rpc action' := by
  cases stepped with
  | enter c id op _ admitted rpc called =>
      refine ⟨_, called, few, fun bind => ?_⟩
      rw [Op.proc_eq_bind.mp bind] at admitted
      exact admitted
  | leave c id op number calling rpc finished =>
      refine ⟨_, finished, ?_⟩
      simp only [NoTimeout, calling] at noTimeout
      exact noTimeout
  | rpc action quiet rpc stepped =>
      refine ⟨action, stepped, ?_⟩
      cases action with
      | call | finish | cancel => contradiction
      | _ => trivial

/-- Few calls, and none returns after its last timeout. -/
def Settled (s : LockSystem ι) (action : Action ι) : Prop :=
  FewCalls s action ∧ NoTimeout s action

theorem rpc_patient (reachable : (machine nonce srvNonce).ReachableUnder Settled s) :
    (System.machine (fun c => (nonce c).toNat) lockService srvNonce).ReachableUnder
      System.Patient s.rpc := by
  induction reachable with
  | initial => exact .initial
  | step _ settled taken induction =>
      rcases (step_cases taken).patient settled.1 settled.2 with ⟨action, stepped, patient⟩
      exact induction.step patient stepped

theorem Succeeded.step (succeeded : Succeeded s) (inv : Inv nonce s) (sys : s.RpcInv nonce)
    (distinct : Function.Injective nonce) (stepped : Stepped nonce s action next) :
    Succeeded next := by
  cases stepped with
  | enter c id op _ _ rpc called =>
      cases System.step_cases called
      exact succeeded
  | leave c id op number _ rpc finished =>
      cases System.step_cases finished
      exact succeeded
  | rpc action quiet rpc stepped =>
      cases System.step_cases stepped with
      | dispatch tid choice isdead server sent t current done =>
          exact succeeded.dispatched inv sys distinct current done
      | gotRequest tid conn req server sent done =>
          rcases Server.gotPdu_eq done with ⟨_, rfl⟩
          exact succeeded
      | _ => exact succeeded

theorem NoneAborted.setThread (none : NoneAborted s) {c : ι} {id : Nat} {t : ClientThread}
    (going : ∀ op number, t.status ≠ .aborted op number)
    (threads : next.threads = s.setThread c id t) : NoneAborted next := by
  intro c' id' op number
  rcases thread_cases threads c' id' with ⟨_, _, now⟩ | ⟨_, same⟩
  · rw [now]
    exact going op number
  · rw [same]
    exact none c' id' op number

/-- A thread that leaves a call with `OK` goes on. -/
theorem leave_not_aborted (t : ClientThread) (op : Op) (number : Nat) {result : Int}
    (ok : op ≠ .bind → result = LockProtocol.ok) (op' : Op) (number' : Nat) :
    (t.leave op number result).status ≠ .aborted op' number' := by
  cases op with
  | bind => exact nofun
  | stat | acquire | release =>
      rw [ok nofun]
      exact nofun

/-- A call that returns is `OK`, so its thread goes on. -/
theorem NoneAborted.step (none : NoneAborted s) (succeeded : Succeeded s) (inv : Inv nonce s)
    (sys : s.RpcInv nonce) (served : s.rpc.Served fun c => (nonce c).toNat)
    (noTimeout : NoTimeout s action) (stepped : Stepped nonce s action next) :
    NoneAborted next := by
  cases stepped with
  | rpc => exact none
  | enter c id op => exact none.setThread (by intro _ _ same; cases same) rfl
  | leave c id op number calling rpc finished ret returned =>
      refine none.setThread (leave_not_aborted _ op number fun other => ?_) rfl
      simp only [NoTimeout, calling] at noTimeout
      cases System.step_cases finished with
      | finish _ _ cl done =>
          rcases Client.finish_eq (sys.clients c) done with ⟨ca, current, rfl⟩
          rw [System.setClient_self, List.getLast?_concat] at returned
          cases returned
          have placed := (sys.clients c).callers number ca current
          have answered : ca.done = true := by
            cases pending : ca.done with
            | true => rfl
            | false => exact absurd ⟨ca, current, pending⟩ noTimeout
          have produced := (served.clients c).callers number ca current answered
          have call := call?_calling calling
          rw [← placed.reqXid] at call
          have proc := (inv.calls.of_call sys placed.req call).1
          simp only [answered, if_true]
          apply succeeded _ produced
          rw [proc]
          exact mt Op.proc_eq_bind.mp other

/-- In a run in which no call times out, every lock that the server holds for a
client is the current acquisition of exactly one thread of the client, which did
not fail. -/
theorem grants_accounted (distinct : Function.Injective nonce) (nonzero : ∀ c, nonce c ≠ 0)
    (small : srvNonce < 2 ^ 31) (reachable : (machine nonce srvNonce).ReachableUnder Settled s) :
    Accounted nonce s ∧ NoneAborted s := by
  have few {s : LockSystem ι} (reached : (machine nonce srvNonce).ReachableUnder Settled s) :
      s.RpcInv nonce ∧ Inv nonce s := by
    have fewCalls := reached.mono fun s action settled => settled.1
    exact reachable_inv distinct nonzero fewCalls
  have all : Succeeded s ∧ NoneAborted s := by
    apply reachable.invariant fun s => Succeeded s ∧ NoneAborted s
    · exact ⟨nofun, fun _ _ _ _ => nofun⟩
    · rintro state action next before ⟨succeeded, none⟩ settled taken
      rcases few before with ⟨sys, inv⟩
      have served := (System.reachable_served (fun c c' same => distinct (UInt32.toNat_inj.mp same))
        (fun c zero => nonzero c (UInt32.toNat_inj.mp zero)) small (rpc_patient before)).2
      exact ⟨succeeded.step inv sys distinct (step_cases taken),
        none.step succeeded inv sys served settled.2 (step_cases taken)⟩
  exact ⟨(few reachable).2.locks.accounted all.2, all.2⟩

end YfsRpc.LockService.LockSystem
