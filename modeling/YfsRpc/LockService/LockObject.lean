import YfsRpc.LockService.MutualExclusion
import YfsRpc.LockService.Waiters
import YfsRpc.Rpc.Linearizability

/-! # The lock server as an object

Seen by its clients the lock server is a table of owners. The results of all RPCs are
those of acquires and releases executed one after the other on the table, and a lock
that was acquired is acquired again only after its owner has called release.
-/

namespace YfsRpc.LockService

open YfsRpc.Rpc
open LockProtocol (LockId)

/-- What a call asks of the locks. -/
inductive Command
  | bind
  | handler (h : Handler)

/-- The command of a procedure number and the marshalled arguments. -/
def command (op : Nat × List UInt8) : Command :=
  if op.1 = RpcConst.bind then .bind else .handler (handler op.1 op.2)

theorem command_op (clt : UInt32) {op : Op} (other : op ≠ .bind) :
    command (op.proc, op.payload clt) = .handler (op.handler clt) := by
  unfold command
  rw [if_neg (mt Op.proc_eq_bind.mp other), handler_payload clt other]

/-- A grant takes a lock that is free; a release by its owner frees it, and by anybody
else does nothing. -/
def lockObject : SharedObject (LockId → Option Int32) Command Int where
  initial := fun _ => none
  effect owners call result next :=
    match call with
    | .bind => next = owners
    | .handler .unmarshalArgsFailure => next = owners ∧ result = RpcConst.unmarshalArgsFailure
    | .handler (.stat _ _) => next = owners ∧ result = LockProtocol.ok
    | .handler (.grant clt lid) =>
        owners lid = none ∧ next = Function.update owners lid (some clt) ∧
          result = LockProtocol.ok
    | .handler (.release clt lid) =>
        next = (if owners lid = some clt then Function.update owners lid none else owners) ∧
          result = LockProtocol.ok

/-! ## The lock server implements the object -/

namespace LockServer

theorem lockedBy_grant {clt : Int32} {lid : LockId} {s next : LockServer}
    (done : s.grant clt lid = some next) :
    s.lockedBy lid = none ∧ next.lockedBy = Function.update s.lockedBy lid (some clt) := by
  rcases grant_some done with ⟨free, taken, others⟩
  refine ⟨free, ?_⟩
  funext other
  by_cases here : other = lid
  · rw [here, Function.update_self, taken]
  · rw [Function.update_of_ne here, others other here]

theorem lockedBy_release {clt : Int32} {lid : LockId} {s next : LockServer}
    (done : s.release clt lid = some next) :
    next.lockedBy =
      if s.lockedBy lid = some clt then Function.update s.lockedBy lid none else s.lockedBy := by
  by_cases owner : s.lockedBy lid = some clt
  · rw [if_pos owner]
    rcases release_owner done owner with ⟨free, others⟩
    funext other
    by_cases here : other = lid
    · rw [here, Function.update_self, free]
    · rw [Function.update_of_ne here, others other here]
  · rw [if_neg owner, release_other done owner]

end LockServer

/-- A handler that waits stays what it was. -/
theorem stage_eq {start h : Handler} (stage : lockService.Stage start h) : h = start := by
  induction stage with
  | start => rfl
  | paused _ resumed induction =>
      rw [(resume_waits resumed).2]
      exact induction

theorem lockService_atomic : lockService.Atomic := by
  intro state h choice next later resumed
  exact (resume_waits resumed).1

theorem resume_failure {s state : LockServer} {choice : Nat} {ret : Int} {payload : List UInt8}
    (resumed : lockService.resume s .unmarshalArgsFailure choice =
      some (state, .inr (ret, payload))) : ret = RpcConst.unmarshalArgsFailure := by
  cases resumed
  rfl

/-- What the handlers do to the locks is what the commands do to the owners. -/
theorem lockObject_abstracts (srvNonce : Nat) :
    lockObject.Abstracts (lockService.object srvNonce) LockServer.lockedBy command Prod.fst where
  initial := rfl
  effect := by
    intro state op result next taken
    rcases result with ⟨ret, payload⟩
    by_cases bind : op.1 = RpcConst.bind
    · simp only [Service.object, if_pos bind] at taken
      simp only [command, if_pos bind, lockObject]
      rw [taken.1]
    · simp only [Service.object, if_neg bind] at taken
      rcases taken with ⟨l, choice, stage, resumed⟩
      rw [stage_eq stage] at resumed
      change lockService.resume state (handler op.1 op.2) choice = _ at resumed
      simp only [command, if_neg bind]
      generalize handler op.1 op.2 = h at resumed ⊢
      have effect := resume_returns resumed
      have ok (unmarshalled : h ≠ .unmarshalArgsFailure) : ret = LockProtocol.ok :=
        (resume_ok unmarshalled resumed).1
      cases h with
      | unmarshalArgsFailure =>
          cases effect
          exact ⟨rfl, resume_failure resumed⟩
      | stat clt lid =>
          cases effect
          exact ⟨rfl, ok (by simp)⟩
      | grant clt lid =>
          rcases LockServer.lockedBy_grant effect with ⟨free, taken⟩
          exact ⟨free, taken, ok (by simp)⟩
      | release clt lid => exact ⟨LockServer.lockedBy_release effect, ok (by simp)⟩

/-! ## Acquires in a row -/

/-- After a grant its client has the lock, or a release of it was executed since. -/
theorem held_or_released {calls before between : List (Command × Int)}
    {owners : LockId → Option Int32} {clt : Int32} {lid : LockId} {result : Int}
    (sequential : lockObject.Sequential calls owners)
    (split : calls = before ++ (.handler (.grant clt lid), result) :: between) :
    owners lid = some clt ∨ ∃ r, (.handler (.release clt lid), r) ∈ between := by
  induction sequential generalizing between with
  | nil => exact absurd split.symm (List.append_ne_nil_of_right_ne_nil _ (List.cons_ne_nil _ _))
  | @snoc calls state next op res executed taken induction =>
      rcases List.eq_nil_or_concat between with rfl | ⟨rest, last, rfl⟩
      · rcases List.append_inj' split rfl with ⟨_, ends⟩
        cases ends
        left
        rw [taken.2.1, Function.update_self]
      · rw [List.concat_eq_append, ← List.cons_append, ← List.append_assoc] at split
        rcases List.append_inj' split rfl with ⟨shorter, ends⟩
        cases ends
        rw [List.concat_eq_append]
        rcases induction shorter with held | ⟨r, member⟩
        · match op, taken with
          | .bind, same => exact Or.inl (same ▸ held)
          | .handler .unmarshalArgsFailure, taken => exact Or.inl (taken.1 ▸ held)
          | .handler (.stat _ _), taken => exact Or.inl (taken.1 ▸ held)
          | .handler (.grant other lid'), taken =>
              left
              have differs : lid ≠ lid' := by
                intro same
                rw [same, taken.1] at held
                contradiction
              rw [taken.2.1, Function.update_of_ne differs]
              exact held
          | .handler (.release other lid'), taken =>
              by_cases owner : state lid' = some other
              · by_cases same : lid = lid'
                · subst same
                  rw [held] at owner
                  cases owner
                  exact Or.inr ⟨res, List.mem_append_right _ (List.mem_singleton_self _)⟩
                · left
                  rw [taken.1, if_pos owner, Function.update_of_ne same]
                  exact held
              · left
                rw [taken.1, if_neg owner]
                exact held
        · exact Or.inr ⟨r, List.mem_append_left _ member⟩

/-- Between two grants of one lock the client of the first one released it. -/
theorem released_between {before between after : List (Command × Int)}
    {owners : LockId → Option Int32} {clt clt' : Int32} {lid : LockId} {result result' : Int}
    (sequential : lockObject.Sequential ((before ++ (.handler (.grant clt lid), result) :: between) ++
      (.handler (.grant clt' lid), result') :: after) owners) :
    ∃ r, (.handler (.release clt lid), r) ∈ between := by
  rw [List.append_cons] at sequential
  rcases sequential.front with ⟨_, both⟩
  rcases both.last with ⟨state, first, taken⟩
  have free : state lid = none := taken.1
  rcases held_or_released first rfl with held | released
  · rw [free] at held
    contradiction
  · exact released

/-! ## Runs -/

namespace LockObject

variable {ι : Type} [DecidableEq ι] {nonce : ι → Nat} {srvNonce : Nat}
  {s : RawSystem ι LockServer Handler} {history : List RpcEvent}

/-! ### A lock that is handed over -/

/-- A call of the client, whose request and reply arrive once. -/
def callOnce (xid : Nat) (op : Op) (result : Int32) : List (System.Action Unit × Nat) :=
  [(.call () op.proc (op.payload 5), 0), (.transmit () xid 0 0, 0),
    (.gotRequest 0 LockSystem.lockConn (LockSystem.request xid op), 0)] ++
    List.replicate 7 (.dispatch 0 0 false, xid % 2) ++
    [(.gotReply () (LockSystem.reply xid op result), 0), (.finish () xid, 0)]

/-- A client is bound, and acquires, releases and acquires the lock 7. -/
def handOver : List (System.Action Unit × Nat) :=
  callOnce 1 .bind 9 ++
    [(.bind () { req := LockSystem.request 1 .bind, ret := 0, payload := Server.encodeInt 9 },
      0)] ++
    callOnce 2 (.acquire 7) 0 ++ callOnce 3 (.release 7) 0 ++ callOnce 4 (.acquire 7) 0

/-- What is seen of a call that returned. -/
def callEvents (xid : Nat) (op : Op) (result : Int32) : List RpcEvent :=
  [.invoke (5, xid) (op.proc, op.payload 5), .respond (5, xid) (0, Server.encodeInt result)]

def handOverHistory : List RpcEvent :=
  callEvents 1 .bind 9 ++ callEvents 2 (.acquire 7) 0 ++ callEvents 3 (.release 7) 0 ++
    callEvents 4 (.acquire 7) 0

theorem handOver_reachable :
    ∃ s : RawSystem Unit LockServer Handler, s.server.service.lockedBy 7 = some 5 ∧
      (RawSystem.recorded (fun _ => 5) lockService 9).ReachableUnder
        (fun r => RawSystem.Careful r.1) (s, handOverHistory) := by
  let recording := RawSystem.recorded (ι := Unit) (fun _ => 5) lockService 9
  have run : ((recording.restrict fun r => RawSystem.Careful r.1).run recording.initial
      handOver).map (fun r => (r.1.server.service.lockedBy 7, r.2)) =
        some (some 5, handOverHistory) := by
    decide +kernel
  rcases Option.map_eq_some_iff.mp run with ⟨⟨s, history⟩, taken, same⟩
  rcases Prod.mk.inj same with ⟨owner, rfl⟩
  exact ⟨s, owner, Machine.reachableUnder_of_run taken⟩

/-! ### The history of any run -/

/-- A call of acquire that begins after another one has got the lock returns only when release
was called for the client of the first one, and this release was not over before. -/
theorem handed_over (distinct : Function.Injective nonce) (nonzero : ∀ c, nonce c ≠ 0)
    (reachable : (RawSystem.recorded nonce lockService srvNonce).ReachableUnder
      (fun r => RawSystem.Careful r.1) (s, history))
    {k k' : Nat × Nat} {op op' : Nat × List UInt8} {res res' : Int × List UInt8}
    {clt clt' : Int32} {lid : LockId} (first : command op = .handler (.grant clt lid))
    (second : command op' = .handler (.grant clt' lid)) (invoked : .invoke k op ∈ history)
    (pair : [CallEvent.respond k res, .invoke k' op'].Sublist history)
    (returned : .respond k' res' ∈ history) :
    ∃ k'' op'', command op'' = .handler (.release clt lid) ∧ .invoke k'' op'' ∈ history ∧
      (∀ r, ¬ [CallEvent.respond k' r, .invoke k'' op''].Sublist history) ∧
      ∀ r, ¬ [CallEvent.respond k'' r, .invoke k op].Sublist history := by
  have linear := System.reachable_linear distinct nonzero lockService_atomic
    (RawSystem.recorded_view reachable)
  rcases linear.linear.ordered linear.wellFormed pair invoked returned with
    ⟨before, between, after, split⟩
  have commands := linear.linear.legal.abstract (lockObject_abstracts srvNonce)
  rw [split] at commands
  simp only [List.map_append, List.map_cons, Prod.map_apply, first, second] at commands
  rcases released_between commands with ⟨r, member⟩
  rw [List.map_map] at member
  rcases List.mem_map.mp member with ⟨⟨k'', op'', res''⟩, found, same⟩
  have isRelease : command op'' = .handler (.release clt lid) := (Prod.mk.inj same).1
  have early : (k'', op'', res'') ∈ before ++ (k, op, res) :: between :=
    List.mem_append_right _ (List.mem_cons_of_mem _ found)
  rcases linear.linear.began split early with ⟨begun, notLater⟩
  rcases List.append_of_mem found with ⟨left, right, rfl⟩
  have second : s.view.order = (before ++ (k, op, res) :: left) ++
      (k'', op'', res'') :: (right ++ (k', op', res') :: after) := by
    rw [split]
    simp
  have acquired : (k, op, res) ∈ before ++ (k, op, res) :: left :=
    List.mem_append_right _ List.mem_cons_self
  exact ⟨k'', op'', isRelease, begun, notLater, (linear.linear.began second acquired).2⟩

/-- The second acquire waited for the call of release. -/
theorem handed_over_handOver :
    ∃ k'' op'', command op'' = .handler (.release 5 7) ∧ .invoke k'' op'' ∈ handOverHistory ∧
      (∀ r, ¬ [CallEvent.respond (5, 4) r, .invoke k'' op''].Sublist handOverHistory) ∧
      ∀ r, ¬ [CallEvent.respond k'' r,
        .invoke (5, 2) (LockProtocol.acquire, (Op.acquire 7).payload 5)].Sublist
          handOverHistory := by
  rcases handOver_reachable with ⟨s, _, reachable⟩
  have acquire : Op.acquire 7 ≠ .bind := nofun
  have acquires := command_op 5 acquire
  have invoked : .invoke (5, 2) (LockProtocol.acquire, (Op.acquire 7).payload 5) ∈
      handOverHistory := by decide
  have pair : [CallEvent.respond (5, 2) (0, Server.encodeInt 0),
      .invoke (5, 4) (LockProtocol.acquire, (Op.acquire 7).payload 5)].Sublist
        handOverHistory := by decide
  have returned : .respond (5, 4) (0, Server.encodeInt 0) ∈ handOverHistory := by decide
  exact handed_over (Function.injective_of_subsingleton _) (fun _ => by decide) reachable
    acquires acquires invoked pair returned

end LockObject

end YfsRpc.LockService
