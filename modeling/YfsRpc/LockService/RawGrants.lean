import YfsRpc.LockService.Acquisitions
import YfsRpc.LockService.RawLocks
import YfsRpc.LockService.XidWrap

/-! # Grants of the lock server

At most one thread holds a lock, and a lock that the server holds for a client is the
current acquisition of one of its threads, until xids come back: a reply to an old acquire
is then taken for that of a new one.
-/

namespace YfsRpc.LockService

open YfsRpc.Rpc
open LockProtocol (LockId)

namespace RawLocks

variable {ι : Type} [DecidableEq ι] {nonce : ι → UInt32} {srvNonce : Nat} {s : RawLocks ι}

/-! ## Runs of clients and of the server -/

/-- What a client does it does here too, and the server does not change. -/
theorem exists_clientStep {v : LockSystem ι} (taken : LockSystem.ClientStep nonce s.view v) :
    ∃ action next, s.Undisturbed action ∧ step nonce s action = some next ∧ next.view = v ∧
      next.rpc.server = s.rpc.server := by
  rcases taken with ⟨action, ofClient, taken⟩
  cases action with
  | enter c id op =>
      simp only [LockSystem.step] at taken
      split at taken
      · next admitted =>
          rcases Option.map_eq_some_iff.mp taken with ⟨_, called, rfl⟩
          rcases Option.map_eq_some_iff.mp called with ⟨cl, issued, rfl⟩
          have admitted' : (s.threads c id).status = .idle ∧
              (s.threads c id).admits (s.rpc.clients c).issued op := admitted
          have called' : s.rpcStep nonce (.call c op.proc (op.payload (nonce c))) 0 =
              some (s.rpc.setClient c cl) := Option.map_eq_some_iff.mpr ⟨cl, issued, rfl⟩
          refine ⟨.enter c id op, { rpc := s.rpc.setClient c cl, threads := s.setThread c id _ },
            ⟨trivial, trivial⟩, ?_, rfl, rfl⟩
          simp only [step, if_pos admitted', called', Option.map_some]
          rfl
      · contradiction
  | leave c id =>
      simp only [LockSystem.step] at taken
      split at taken
      · next op number calling =>
          rcases Option.bind_eq_some_iff.mp taken with ⟨_, finished, later⟩
          rcases Option.map_eq_some_iff.mp finished with ⟨cl, done, rfl⟩
          rcases Option.map_eq_some_iff.mp later with ⟨ret, returned, rfl⟩
          have calling' : (s.threads c id).status = .calling op number := calling
          have finished' : s.rpcStep nonce (.finish c number) 0 = some (s.rpc.setClient c cl) :=
            Option.map_eq_some_iff.mpr ⟨cl, done, rfl⟩
          have returned' : ((s.rpc.setClient c cl).clients c).returned.getLast? = some ret :=
            returned
          refine ⟨.leave c id, { rpc := s.rpc.setClient c cl, threads := s.setThread c id _ },
            ⟨ofClient, trivial⟩, ?_, rfl, rfl⟩
          simp only [step, calling', finished', Option.bind_some, returned', Option.map_some]
          rfl
      · contradiction
  | rpc action =>
      cases action with
      | transmit c number serial createTime =>
          rcases Option.map_eq_some_iff.mp taken with ⟨_, sent, rfl⟩
          rcases Option.map_eq_some_iff.mp sent with ⟨ca, current, rfl⟩
          have sent' : s.rpcStep nonce (.transmit c number serial createTime) 0 = some _ :=
            Option.map_eq_some_iff.mpr ⟨ca, current, rfl⟩
          refine ⟨.rpc (.transmit c number serial createTime) 0, _, ⟨trivial, trivial⟩,
            Option.map_eq_some_iff.mpr ⟨_, sent', rfl⟩, rfl, rfl⟩
      | gotReply c m =>
          rcases Option.map_eq_some_iff.mp taken with ⟨_, received, rfl⟩
          simp only [LockSystem.rpcStep, System.step] at received
          split at received
          · next sent =>
              cases received
              have received' : s.rpcStep nonce (.gotReply c m) 0 = some _ := if_pos sent
              refine ⟨.rpc (.gotReply c m) 0, _, ⟨trivial, trivial⟩,
                Option.map_eq_some_iff.mpr ⟨_, received', rfl⟩, rfl, rfl⟩
          · contradiction
      | call | finish | cancel | bind | gotRequest | dispatch => contradiction

theorem exists_clientRun {v : LockSystem ι} (run : LockSystem.ClientRun nonce s.view v)
    (reachable : (machine nonce srvNonce).ReachableUnder Undisturbed s) :
    ∃ next, (machine nonce srvNonce).ReachableUnder Undisturbed next ∧ next.view = v ∧
      next.rpc.server = s.rpc.server := by
  induction run with
  | refl => exact ⟨s, reachable, rfl, rfl⟩
  | tail _ taken induction =>
      rcases induction with ⟨before, reached, rfl, server⟩
      rcases exists_clientStep taken with ⟨action, next, undisturbed, stepped, view, same⟩
      exact ⟨next, reached.step undisturbed stepped, view, same.trans server⟩

/-- A call may be made and its request sent. -/
theorem exists_requested {srvNonce' xid : Nat} {window : List Nat} {c : ι} {id : Nat} (op : Op)
    (reachable : (machine nonce srvNonce).ReachableUnder Undisturbed s)
    (idle : (s.threads c id).status = .idle)
    (admitted : (s.threads c id).admits (s.rpc.clients c).issued op)
    (ready : (s.rpc.clients c).Ready srvNonce' xid window) (other : op ≠ .bind) {h : Request}
    (request : h = LockSystem.packed op (nonce c) srvNonce' xid (window.headD 0)) :
    ∃ next, (machine nonce srvNonce).ReachableUnder Undisturbed next ∧
      next.rpc.server = s.rpc.server ∧ next.rpc.clients c = (s.rpc.clients c).register h ∧
      next.threads = s.setThread c id
        ((s.threads c id).enter op ((s.rpc.clients c).issued.length + 1)) ∧
      ({ client := c, serial := 0, createTime := 0 }, h) ∈ next.rpc.requests := by
  have viewed : (s.view.rpc.clients c).Ready srvNonce' xid window := ready
  rcases LockSystem.exists_requested (s := s.view) nonce op idle admitted viewed other
    request with ⟨v, run, entered, sent⟩
  rcases exists_clientRun run reachable with ⟨next, reached, rfl, server⟩
  exact ⟨next, reached, server, entered.client, entered.threads, sent⟩

/-- A thread of the server goes some steps in which it sends nothing and checks deliver. -/
def goOn (id block : Nat) : Nat → RawServer ι LockServer Handler →
    Option (RawServer ι LockServer Handler)
  | 0, s => some s
  | steps + 1, s =>
      match s.dispatch lockService id 0 false block with
      | some (next, none) => if s.Delivered id then goOn id block steps next else none
      | _ => none

/-- A request arrives, and the thread that gets it goes on until it has called the handler. -/
def serve (id block : Nat) (conn : Conn ι) (h : Request) (s : RawServer ι LockServer Handler) :
    Option (RawServer ι LockServer Handler) :=
  (s.gotPdu id conn h).bind (goOn id block 4)

theorem goneOn_reachable {id block steps : Nat} {server : RawServer ι LockServer Handler}
    (gone : goOn id block steps s.rpc.server = some server)
    (reachable : (machine nonce srvNonce).ReachableUnder Undisturbed s) :
    (machine nonce srvNonce).ReachableUnder Undisturbed
      { s with rpc := { s.rpc with server } } := by
  induction steps generalizing s with
  | zero =>
      cases gone
      exact reachable
  | succ steps induction =>
      unfold goOn at gone
      split at gone
      · next next done =>
          split at gone
          · next delivered =>
              have stepped : step nonce s (.rpc (.dispatch id 0 false) block) =
                  some { s with rpc := { s.rpc with server := next } } := by
                simp [step, rpcStep, RawSystem.step, done]
              have undisturbed : s.Undisturbed (.rpc (.dispatch id 0 false) block) :=
                ⟨trivial, delivered⟩
              exact induction (s := { s with rpc := { s.rpc with server := next } }) gone
                (reachable.step undisturbed stepped)
          · contradiction
      · contradiction

theorem served_reachable {id block : Nat} {conn : Conn ι} {h : Request}
    {server : RawServer ι LockServer Handler} (sent : (conn, h) ∈ s.rpc.requests)
    (served : serve id block conn h s.rpc.server = some server)
    (reachable : (machine nonce srvNonce).ReachableUnder Undisturbed s) :
    (machine nonce srvNonce).ReachableUnder Undisturbed
      { s with rpc := { s.rpc with server } } := by
  rcases Option.bind_eq_some_iff.mp served with ⟨first, arrived, gone⟩
  have stepped : step nonce s (.rpc (.gotRequest id conn h) 0) =
      some { s with rpc := { s.rpc with server := first } } := by
    simp [step, rpcStep, RawSystem.step, sent, arrived]
  have undisturbed : s.Undisturbed (.rpc (.gotRequest id conn h) 0) := ⟨trivial, trivial⟩
  exact goneOn_reachable (s := { s with rpc := { s.rpc with server := first } }) gone
    (reachable.step undisturbed stepped)

/-! ## Mutual exclusion -/

/-- At most one thread of all clients holds a lock. -/
def MutuallyExclusive (s : RawLocks ι) : Prop :=
  ∀ lid c id c' id', lid ∈ (s.threads c id).holds → lid ∈ (s.threads c' id').holds →
    c = c' ∧ id = id'

/-- No two threads hold a lock together in a run in which every client issues fewer than
2^32 - 1 calls and no reply is freed while it is being sent. -/
theorem at_most_one_holds (distinct : Function.Injective nonce) (nonzero : ∀ c, nonce c ≠ 0)
    (reachable : (machine nonce srvNonce).ReachableUnder Careful s) : s.MutuallyExclusive :=
  LockSystem.mutually_exclusive distinct nonzero (careful_view reachable)

/-! ## Runs of one client -/

/-- One client and an instance of the server. -/
def lockMachine : Machine (RawLocks Unit) (Action Unit) := machine (fun _ => 5) 9

open LockSystem (lockConn request reply)

/-- A thread calls, the request arrives once, and the reply arrives. -/
def callOnce (id xid : Nat) (op : Op) (result : Int32) (block : Nat) : List (Action Unit) :=
  [.enter () id op, .rpc (.transmit () xid 0 0) 0,
    .rpc (.gotRequest 0 lockConn (request xid op)) 0] ++
    List.replicate 7 (.rpc (.dispatch 0 0 false) block) ++
    [.rpc (.gotReply () (reply xid op result)) 0, .leave () id]

/-- The constructor binds the client, and the first thread acquires the lock. -/
def acquireFirst : List (Action Unit) :=
  callOnce 0 1 .bind 9 0 ++
    [.rpc (.bind () { req := request 1 .bind, ret := 0, payload := Server.encodeInt 9 }) 0] ++
    callOnce 1 2 (.acquire 7) 0 1

/-- The first thread releases the lock, and then the second one acquires it. Their replies
take the blocks of the first two. -/
def handOver : List (Action Unit) :=
  acquireFirst ++ callOnce 1 3 (.release 7) 0 0 ++ callOnce 2 4 (.acquire 7) 0 1

theorem at_most_one_holds_handOver :
    ∃ s, lockMachine.ReachableUnder Careful s ∧ 7 ∈ (s.threads () 2).holds ∧
      s.MutuallyExclusive := by
  have run : ((lockMachine.restrict Careful).run lockMachine.initial handOver).map
      (fun s => (s.threads () 2).holds) = some [7] := by decide +kernel
  rcases Option.map_eq_some_iff.mp run with ⟨s, taken, holds⟩
  have reachable := Machine.reachableUnder_of_run taken
  exact ⟨s, reachable, holds ▸ List.mem_singleton_self _,
    at_most_one_holds (Function.injective_of_subsingleton _) (fun _ => by decide) reachable⟩

/-! ## A reply to an old acquire -/

/-- The request of the second thread, which releases the lock under the xid 3. -/
def staleRelease : Request := request 3 (.release 7)

/-- The request of the third thread, which acquires the lock under the xid 4. -/
def thirdAcquire : Request := { request 4 (.acquire 7) with xidRep := 2 }

/-- After 2^32 - 1 more calls of the client its second thread acquires the lock that the
first one holds, under the xid 2 again, with the reply to the first acquire. The server then
executes the release of the second thread and an acquire of a third one. -/
theorem exists_acquiredTwice :
    ∃ s server final, lockMachine.ReachableUnder Undisturbed s ∧
      (7 ∈ (s.threads () 1).holds ∧ 7 ∈ (s.threads () 2).holds) ∧
      ((s.threads () 2).status = .idle ∧ (s.threads () 3).status = .idle) ∧
      (s.rpc.clients ()).Ready 9 3 [2] ∧
      serve 0 0 lockConn staleRelease s.rpc.server = some server ∧
      serve 1 2 lockConn thirdAcquire server = some final ∧
      final.service.lockedBy 7 = some 5 ∧ thirdAcquire ∈ final.finished.map Execution.req := by
  have parts : ((lockMachine.restrict Undisturbed).run lockMachine.initial acquireFirst).bind
      (fun s => (serve 0 0 lockConn staleRelease s.rpc.server).bind fun server =>
        (serve 1 2 lockConn thirdAcquire server).map fun final =>
          (decide (7 ∈ (s.threads () 1).holds ∧ (s.threads () 2).status = .idle ∧
              (s.threads () 3).status = .idle),
            decide ((s.rpc.clients ()).bindDone = true ∧
              (s.rpc.clients ()).destroyWait = false ∧ (s.rpc.clients ()).srvNonce = 9 ∧
              (s.rpc.clients ()).xid = 3 ∧ (s.rpc.clients ()).xidRepWindow = [2]),
            decide (reply 2 (.acquire 7) 0 ∈ s.rpc.replies),
            decide (final.service.lockedBy 7 = some 5 ∧
              thirdAcquire ∈ final.finished.map Execution.req))) =
      some (true, true, true, true) := by decide +kernel
  rcases Option.bind_eq_some_iff.mp parts with ⟨s, taken, parts⟩
  rcases Option.bind_eq_some_iff.mp parts with ⟨server, released, parts⟩
  rcases Option.map_eq_some_iff.mp parts with ⟨final, acquired, parts⟩
  simp only [Prod.mk.injEq, decide_eq_true_eq] at parts
  rcases parts with ⟨⟨first, second, third⟩, ⟨bindDone, going, srvNonce, xid, window⟩, sent,
    owner, executed⟩
  have reachable := Machine.reachableUnder_of_run taken
  have ready : (s.view.rpc.clients ()).Ready 9 3 [2] := ⟨bindDone, going, srvNonce, xid, window⟩
  have viewed := (reachable_view (fun _ _ => True) (fun _ _ h => h.2)
    (fun _ _ _ => trivial) reachable).2
  rcases LockSystem.reachable_idle viewed () with ⟨bound, idle⟩
  -- the lost calls are those of threads that never called before
  rcases LockSystem.exists_movedOn (fun _ => 5) ready (by decide) (max bound 4)
    (2 ^ 32 - 1) (fun id above => idle id (by omega)) with ⟨v, run, moved, back⟩
  have idle' : (v.threads () 2).status = .idle := by
    rw [moved.others 2 (by omega)]
    exact second
  rcases LockSystem.exists_answered (fun _ => 5) (.acquire 7) (m := reply 2 (.acquire 7) 0) idle'
    trivial back nofun (moved.replies ▸ sent) rfl (fun req => LockSystem.callM_ok req 0) with
    ⟨w, number, run', server', ready', threads⟩
  rcases exists_clientRun (run.trans run') reachable with ⟨next, reached, rfl, kept⟩
  have others (id : Nat) (other : id ≠ 2) (below : id < max bound 4) :
      next.threads () id = s.threads () id := by
    change next.view.threads () id = _
    rw [threads]
    simp only [LockSystem.setThread, Function.update_self, Function.update_of_ne other]
    exact moved.others id below
  refine ⟨next, server, final, reached, ⟨?_, ?_⟩, ⟨?_, ?_⟩, ready', ?_, acquired, owner,
    executed⟩
  · rw [others 1 (by decide) (by omega)]
    exact first
  · change 7 ∈ (next.view.threads () 2).holds
    rw [threads]
    simp [LockSystem.setThread, ClientThread.leave]
  · change (next.view.threads () 2).status = _
    rw [threads]
    simp [LockSystem.setThread, ClientThread.leave]
  · rw [others 3 (by decide) (by omega)]
    exact third
  · rw [kept]
    exact released

theorem acquiredTwice_not_exclusive :
    ∃ s, lockMachine.ReachableUnder Undisturbed s ∧ ¬ s.MutuallyExclusive := by
  rcases exists_acquiredTwice with ⟨s, _, _, reachable, holds, _⟩
  refine ⟨s, reachable, fun exclusive => ?_⟩
  exact absurd (exclusive 7 () 1 () 2 holds.1 holds.2).2 (by decide)

/-! ## Current acquisitions -/

/-- The server has executed the request that the call of this number packed. -/
def Executed (s : RawLocks ι) (c : ι) (number : Nat) : Prop :=
  ∃ r, (s.rpc.clients c).issued[number - 1]? = some r ∧
    r ∈ s.rpc.server.finished.map Execution.req

/-- The acquire of the thread was executed, and its release was not. -/
def Current (s : RawLocks ι) (c : ι) (id : Nat) (lid : LockId) : Prop :=
  lid ∈ (s.threads c id).holds ∨ ∃ number,
    ((s.threads c id).status = .calling (.acquire lid) number ∧ s.Executed c number) ∨
    ((s.threads c id).status = .calling (.release lid) number ∧ ¬ s.Executed c number)

/-- A lock that is held for a client is the current acquisition of exactly one of its
threads, and of no thread of another client. -/
def Accounted (nonce : ι → UInt32) (s : RawLocks ι) : Prop :=
  ∀ lid clt, s.rpc.server.service.lockedBy lid = some clt →
    ∃ c, (nonce c).toInt32 = clt ∧ ∃ id, s.Current c id lid ∧
      ∀ c' id', s.Current c' id' lid → c' = c ∧ id' = id

/-- No thread has failed the assertion on a result. -/
def NoneAborted (s : RawLocks ι) : Prop :=
  ∀ c id op number, (s.threads c id).status ≠ .aborted op number

/-- While the xids do not come back they tell which calls were executed. -/
theorem executed_iff_hasRun (distinct : Function.Injective nonce) (nonzero : ∀ c, nonce c ≠ 0)
    (reachable : (LockSystem.machine nonce srvNonce).ReachableUnder LockSystem.FewCalls s.view)
    {c : ι} {id number : Nat} {op : Op} (calling : (s.threads c id).status = .calling op number) :
    s.Executed c number ↔ s.view.hasRun nonce c number = true := by
  rcases LockSystem.reachable_inv distinct nonzero reachable with ⟨sys, inv⟩
  have numbered := System.reachable_numbered (fun c c' same => distinct (UInt32.toNat_inj.mp same))
    (fun c zero => nonzero c (UInt32.toNat_inj.mp zero)) (LockSystem.rpc_reachable reachable)
  rcases inv.calls.issued c id op number (LockSystem.call?_calling calling) with
    ⟨r, issued, xid, _, _⟩
  have found : (s.rpc.clients c).issued[number - 1]? = some r := by
    rcases List.getElem?_of_mem issued with ⟨k, found⟩
    have position := numbered c k r found
    rw [← xid, position]
    exact found
  constructor
  · rintro ⟨r', found', executed⟩
    cases Option.some.inj (found.symm.trans found')
    rcases List.mem_map.mp executed with ⟨ex, member, rfl⟩
    refine decide_eq_true (List.mem_map.mpr ⟨ex, member, ?_⟩)
    rw [Request.key, sys.issued.cltNonce c _ issued, xid]
  · intro ran
    rcases List.mem_map.mp (of_decide_eq_true ran) with ⟨ex, executed, key⟩
    have history := sys.server.history
    rcases history.known _ (history.returned ex executed) with ⟨c', issued'⟩
    rw [Request.key, sys.issued.cltNonce c' _ issued', Prod.mk.injEq] at key
    cases distinct (UInt32.toNat_inj.mp key.1)
    have same := (sys.clients c).unique _ issued' _ issued (key.2.trans xid.symm)
    exact ⟨r, found, List.mem_map.mpr ⟨ex, executed, same⟩⟩

/-- In a run in which no call times out and no reply is freed while it is being sent, every
lock that the server holds for a client is the current acquisition of exactly one thread of
the client, which did not fail. -/
theorem grants_current (distinct : Function.Injective nonce) (nonzero : ∀ c, nonce c ≠ 0)
    (small : srvNonce < 2 ^ 31) (reachable : (machine nonce srvNonce).ReachableUnder Settled s) :
    s.Accounted nonce ∧ s.NoneAborted := by
  have viewed := settled_view reachable
  have few := viewed.mono fun _ _ settled => settled.1
  rcases LockSystem.grants_accounted distinct nonzero small viewed with ⟨accounted, none⟩
  have same (c : ι) (id : Nat) (lid : LockId) :
      s.Current c id lid ↔ s.view.Current nonce c id lid := by
    refine or_congr_right (exists_congr fun number => or_congr ?_ ?_)
    · exact and_congr_right fun calling => executed_iff_hasRun distinct nonzero few calling
    · refine and_congr_right fun calling => ?_
      rw [executed_iff_hasRun distinct nonzero few calling, Bool.not_eq_true]
  refine ⟨fun lid clt owner => ?_, none⟩
  rcases accounted lid clt owner with ⟨c, client, id, current, unique⟩
  exact ⟨c, client, id, (same c id lid).mpr current, fun c' id' current' =>
    unique c' id' ((same c' id' lid).mp current')⟩

theorem grants_current_handOver :
    ∃ s, lockMachine.ReachableUnder Settled s ∧ s.rpc.server.service.lockedBy 7 = some 5 ∧
      s.Accounted (fun _ => 5) ∧ s.NoneAborted := by
  have run : ((lockMachine.restrict Settled).run lockMachine.initial handOver).map
      (fun s => s.rpc.server.service.lockedBy 7) = some (some 5) := by decide +kernel
  rcases Option.map_eq_some_iff.mp run with ⟨s, taken, owner⟩
  have reachable := Machine.reachableUnder_of_run taken
  exact ⟨s, reachable, owner, grants_current (Function.injective_of_subsingleton _)
    (fun _ => by decide) (by decide) reachable⟩

/-- The release of the second thread frees the lock of the first one, and the third thread
gets it too: two acquires were executed and not released. -/
theorem acquiredTwice_not_accounted :
    ∃ s, lockMachine.ReachableUnder Undisturbed s ∧ ¬ s.Accounted fun _ => 5 := by
  rcases exists_acquiredTwice with ⟨s, server, final, reachable, holds, idle, ready, released,
    acquired, owner, executed⟩
  rcases exists_requested (.release 7) reachable idle.1 holds.2 ready nofun
    (h := staleRelease) rfl with ⟨s₁, reached₁, kept₁, client₁, threads₁, sent₁⟩
  rw [← kept₁] at released
  have reached₂ := served_reachable sent₁ released reached₁
  have ready₂ : (s₁.rpc.clients ()).Ready 9 4 [2] := client₁ ▸ ready.register staleRelease
  have others₁ (id : Nat) (other : id ≠ 2) : s₁.threads () id = s.threads () id := by
    rw [threads₁]
    simp [setThread, other]
  have idle₂ : (s₁.threads () 3).status = .idle := others₁ 3 (by decide) ▸ idle.2
  rcases exists_requested (.acquire 7) reached₂ idle₂ trivial ready₂ nofun
    (h := thirdAcquire) rfl with ⟨s₃, reached₃, kept₃, client₃, threads₃, sent₃⟩
  have acquired₃ : serve 1 2 lockConn thirdAcquire s₃.rpc.server = some final := kept₃ ▸ acquired
  have holds₃ : 7 ∈ (s₃.threads () 1).holds := by
    rw [threads₃]
    simp only [setThread]
    simp [others₁, holds.1]
  have calling₃ : (s₃.threads () 3).status =
      .calling (.acquire 7) ((s₁.rpc.clients ()).issued.length + 1) := by
    rw [threads₃]
    simp only [setThread, Function.update_self, ClientThread.enter]
  have issued₃ : (s₃.rpc.clients ()).issued[(s₁.rpc.clients ()).issued.length]? =
      some thirdAcquire := by
    rw [client₃]
    exact List.getElem?_concat_length
  refine ⟨_, served_reachable sent₃ acquired₃ reached₃, fun accounted => ?_⟩
  rcases accounted 7 5 owner with ⟨_, _, id, _, unique⟩
  have first := (unique () 1 (Or.inl holds₃)).2
  have third := (unique () 3 (Or.inr ⟨_, Or.inl ⟨calling₃, thirdAcquire, issued₃, executed⟩⟩)).2
  omega

end RawLocks

end YfsRpc.LockService
