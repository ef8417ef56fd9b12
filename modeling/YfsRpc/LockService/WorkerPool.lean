import YfsRpc.LockService.MutualExclusion
import YfsRpc.LockService.RawLocks
import YfsRpc.LockService.StandingAcquires
import YfsRpc.Rpc.ServerConns

/-! # The workers of the lock server

`got_pdu` puts a job for every request that arrives into the queue of a pool of ten
workers. A worker takes the first job and runs `dispatch` for it to the end, and while
that waits in `grant` the worker does nothing else.
-/

namespace YfsRpc.LockService

open YfsRpc.Rpc
open LockProtocol (LockId)

/-- A thread of the server is in `lock_server::grant`. -/
def RawLocks.InGrant {ι : Type} (s : RawLocks ι) (tid : Nat) : Prop :=
  ∃ t clt lid, s.rpc.server.threads.held tid = some t ∧ t.pc = .handling (.user (.grant clt lid))

/-- A thread in `grant` is there when one looks through the pointers. -/
theorem RawLocks.InGrant.view {ι : Type} {s : RawLocks ι} {tid : Nat} (inGrant : s.InGrant tid) :
    s.view.InGrant tid := by
  rcases inGrant with ⟨t, clt, lid, current, place⟩
  refine ⟨t.view s.rpc.server.shows, clt, lid, ?_, ?_⟩
  · change (s.rpc.server.threads.held tid).map _ = _
    rw [current]
    rfl
  · change t.pc.view _ _ = _
    rw [place]
    rfl

structure WorkerPool (ι : Type) where
  sys : RawLocks ι
  jobq : List (Conn ι × Request) := []
  /-- the threads of `dispatch`, each on one worker -/
  running : Finset Nat := ∅
  /-- history: the threads of the clients whose call was issued and has not returned -/
  outstanding : Finset (ι × Nat) := ∅

namespace WorkerPool

variable {ι : Type}

/-- The number of threads of the tester, which is that of the workers. -/
def nt : Nat := 10

inductive Action (ι : Type)
  | enter (c : ι) (id : Nat) (op : Op)
  | leave (c : ι) (id : Nat)
  /-- `got_pdu` adds a job -/
  | gotPdu (conn : Conn ι) (req : Request)
  /-- a worker takes the first job, which becomes the thread `id` of `dispatch` -/
  | takeJob (id : Nat)
  /-- the other steps of the RPC layer, and the block of a handler that returns -/
  | rpc (action : System.Action ι) (block : Nat)

section Step

variable [DecidableEq ι]

def rpcStep (nonce : ι → UInt32) (s : WorkerPool ι) (action : System.Action ι) (block : Nat) :
    Option (WorkerPool ι) :=
  (s.sys.step nonce (.rpc action block)).map fun sys => { s with sys }

/-- The worker is free when its thread of `dispatch` has ended. -/
def step (nonce : ι → UInt32) (s : WorkerPool ι) : Action ι → Option (WorkerPool ι)
  | .enter c id op => (s.sys.step nonce (.enter c id op)).map fun sys =>
      { s with sys, outstanding := insert (c, id) s.outstanding }
  | .leave c id => (s.sys.step nonce (.leave c id)).map fun sys =>
      { s with sys, outstanding := s.outstanding.erase (c, id) }
  | .gotPdu conn req =>
      if (conn, req) ∈ s.sys.rpc.requests ∧ s.jobq.length < ServerConns.queueLimit then
        some { s with jobq := s.jobq ++ [(conn, req)] }
      else
        none
  | .takeJob id =>
      match s.jobq with
      | [] => none
      | (conn, req) :: jobq =>
          if s.running.card < ServerConns.poolSize then
            (s.rpcStep nonce (.gotRequest id conn req) 0).map fun s =>
              { s with jobq, running := insert id s.running }
          else
            none
  | .rpc action block =>
      match action with
      | .transmit .. | .gotReply .. | .bind .. => s.rpcStep nonce action block
      | .dispatch id .. => (s.rpcStep nonce action block).map fun s =>
          if (s.sys.rpc.server.threads.held id).isNone then
            { s with running := s.running.erase id }
          else
            s
      | .call .. | .finish .. | .cancel .. | .gotRequest .. => none

def machine (nonce : ι → UInt32) (srvNonce : UInt32) : Machine (WorkerPool ι) (Action ι) where
  initial := { sys := (RawLocks.machine nonce srvNonce.toNat).initial }
  step := step nonce

end Step

/-- No more calls than the tester has threads are outstanding, and none times out. -/
def WithinLimit (s : WorkerPool ι) : Action ι → Prop
  | .enter .. => s.outstanding.card < nt
  | .leave c id => s.sys.NoTimeout (.leave c id)
  | _ => True

/-- A check frees no buffer that is being sent. -/
def Delivered (s : WorkerPool ι) : Action ι → Prop
  | .rpc action block => s.sys.Delivered (.rpc action block)
  | _ => True

/-- Within the limit, and no reply that is freed while it is being sent. -/
def Careful (s : WorkerPool ι) (action : Action ι) : Prop :=
  WithinLimit s action ∧ Delivered s action

/-- The request of an outstanding call of release is in the queue. -/
def ReleaseQueued (s : WorkerPool ι) : Prop :=
  ∃ c id lid number ca conn, (c, id) ∈ s.outstanding ∧
    (s.sys.threads c id).status = .calling (.release lid) number ∧
    (s.sys.rpc.clients c).callers number = some ca ∧ (conn, ca.req) ∈ s.jobq

/-- No worker is left to run the release that the workers in `grant` wait for. -/
structure Starved (s : WorkerPool ι) : Prop where
  full : s.running.card = ServerConns.poolSize
  inGrant : ∀ id ∈ s.running, s.sys.InGrant id
  queued : s.ReleaseQueued

/-! ## Outstanding calls -/

structure Inv (nonce : ι → UInt32) (s : WorkerPool ι) : Prop where
  kept : s.sys.rpc.server.Kept
  promptly : s.sys.view.Promptly nonce
  outstanding : ∀ c id op number, (s.sys.threads c id).status = .calling op number →
    (c, id) ∈ s.outstanding
  limit : s.outstanding.card ≤ nt

variable {nonce : ι → UInt32} {s next : WorkerPool ι}

/-- A thread that has left its call calls nothing. -/
theorem leave_not_calling (t : ClientThread) (op op' : Op) (number number' : Nat) (result : Int) :
    (t.leave op number result).status ≠ .calling op' number' := by
  cases op with
  | bind => exact nofun
  | stat | acquire | release =>
      by_cases ok : result = LockProtocol.ok
      · simp [ClientThread.leave, ok]
      · simp [ClientThread.leave, ok]

/-- A call that is outstanding was outstanding before, or it is entered now. -/
theorem calling_enter [DecidableEq ι] {sys after : LockSystem ι} {c c' : ι} {id id' : Nat}
    {op op' : Op} {number : Nat} (step : LockSystem.Stepped nonce sys (.enter c id op) after)
    (calling : (after.threads c' id').status = .calling op' number) :
    (c', id') = (c, id) ∨ (sys.threads c' id').status = .calling op' number := by
  have threads : ∃ t, after.threads = sys.setThread c id t := by
    cases step with
    | enter => exact ⟨_, rfl⟩
  rcases threads with ⟨t, threads⟩
  rcases LockSystem.thread_cases threads c' id' with ⟨rfl, rfl, _⟩ | ⟨_, same⟩
  · exact Or.inl rfl
  · exact Or.inr (same ▸ calling)

/-- The call that is left is outstanding no more. -/
theorem calling_leave [DecidableEq ι] {sys after : LockSystem ι} {c c' : ι} {id id' : Nat}
    {op' : Op} {number : Nat} (step : LockSystem.Stepped nonce sys (.leave c id) after)
    (calling : (after.threads c' id').status = .calling op' number) :
    (c', id') ≠ (c, id) ∧ (sys.threads c' id').status = .calling op' number := by
  have threads : ∃ op number result, after.threads =
      sys.setThread c id ((sys.threads c id).leave op number result) := by
    cases step with
    | leave => exact ⟨_, _, _, rfl⟩
  rcases threads with ⟨op, number', result, threads⟩
  rcases LockSystem.thread_cases threads c' id' with ⟨rfl, rfl, left⟩ | ⟨away, same⟩
  · rw [left] at calling
    exact absurd calling (leave_not_calling _ _ _ _ _ _)
  · refine ⟨?_, same ▸ calling⟩
    rintro ⟨⟩
    exact away ⟨rfl, rfl⟩

/-- The workers in `grant` are there for as many outstanding calls of acquire, and the
call of release is one more. -/
theorem Inv.not_starved [DecidableEq ι] (inv : Inv nonce s) : ¬ s.Starved := by
  intro starved
  rcases starved.queued with ⟨c, id, lid, number, _, _, issued, releasing, _⟩
  have served : ∀ tid : s.running, ∃ caller, s.sys.view.Serves tid caller :=
    fun tid => inv.promptly.serves_of_inGrant (RawLocks.InGrant.view (starved.inGrant tid tid.2))
  choose caller serves using served
  have distinct : Function.Injective caller := by
    intro first second same
    have serves' := serves second
    rw [← same] at serves'
    exact Subtype.ext (inv.promptly.serves_unique (serves first) serves')
  have others : ∀ tid, caller tid ∈ s.outstanding.erase (c, id) := by
    intro tid
    rcases serves tid with ⟨_, lid', number', _, _, _, acquiring, _⟩
    have acquiring : (s.sys.threads (caller tid).1 (caller tid).2).status =
      .calling (.acquire lid') number' := acquiring
    refine Finset.mem_erase.mpr ⟨?_, inv.outstanding _ _ _ _ acquiring⟩
    intro same
    rw [same, releasing] at acquiring
    cases acquiring
  have fits : s.running.card ≤ (s.outstanding.erase (c, id)).card := by
    rw [← Fintype.card_coe, ← Finset.card_univ]
    exact Finset.card_le_card_of_injOn caller (fun tid _ => others tid) distinct.injOn
  rw [starved.full, Finset.card_erase_of_mem issued] at fits
  have positive : 0 < s.outstanding.card := Finset.card_pos.mpr ⟨_, issued⟩
  have limit : s.outstanding.card ≤ ServerConns.poolSize := inv.limit
  omega

/-! ## Every step -/

variable [DecidableEq ι]

theorem Inv.quiet (inv : Inv nonce s) (nonzero : ∀ c, nonce c ≠ 0) {action : System.Action ι}
    {block : Nat} (taken : s.rpcStep nonce action block = some next)
    (delivered : s.sys.Delivered (.rpc action block)) : Inv nonce next := by
  rcases Option.map_eq_some_iff.mp taken with ⟨sys, stepped, rfl⟩
  have step := LockSystem.step_cases (RawLocks.step_view inv.kept delivered stepped)
  refine ⟨RawLocks.kept_step inv.kept delivered stepped, inv.promptly.step nonzero step trivial,
    ?_, inv.limit⟩
  have same : sys.threads = s.sys.threads := by
    cases action with
    | transmit | gotReply | bind | gotRequest | dispatch =>
        rcases Option.map_eq_some_iff.mp stepped with ⟨_, _, rfl⟩
        rfl
    | call | finish | cancel => contradiction
  intro c id op number calling
  rw [same] at calling
  exact inv.outstanding c id op number calling

theorem Inv.step (inv : Inv nonce s) (nonzero : ∀ c, nonce c ≠ 0) {action : Action ι}
    (allowed : Careful s action) (taken : s.step nonce action = some next) :
    Inv nonce next := by
  rcases allowed with ⟨within, delivered⟩
  cases action with
  | enter c id op =>
      rcases Option.map_eq_some_iff.mp taken with ⟨sys, stepped, rfl⟩
      have delivered : s.sys.Delivered (.enter c id op) := trivial
      have step := LockSystem.step_cases (RawLocks.step_view inv.kept delivered stepped)
      refine ⟨RawLocks.kept_step inv.kept delivered stepped,
        inv.promptly.step nonzero step trivial, ?_, ?_⟩
      · intro c' id' op' number calling
        rcases calling_enter step calling with same | before
        · exact Finset.mem_insert.mpr (Or.inl same)
        · exact Finset.mem_insert_of_mem (inv.outstanding c' id' op' number before)
      · exact Nat.le_trans (Finset.card_insert_le _ _) within
  | leave c id =>
      rcases Option.map_eq_some_iff.mp taken with ⟨sys, stepped, rfl⟩
      have delivered : s.sys.Delivered (.leave c id) := trivial
      have step := LockSystem.step_cases (RawLocks.step_view inv.kept delivered stepped)
      refine ⟨RawLocks.kept_step inv.kept delivered stepped,
        inv.promptly.step nonzero step within, ?_, ?_⟩
      · intro c' id' op' number calling
        rcases calling_leave step calling with ⟨other, before⟩
        exact Finset.mem_erase.mpr ⟨other, inv.outstanding c' id' op' number before⟩
      · exact Nat.le_trans Finset.card_erase_le inv.limit
  | gotPdu conn req =>
      simp only [WorkerPool.step] at taken
      split at taken
      · cases taken
        exact ⟨inv.kept, inv.promptly, inv.outstanding, inv.limit⟩
      · contradiction
  | takeJob id =>
      simp only [WorkerPool.step] at taken
      split at taken
      · contradiction
      · split at taken
        · rcases Option.map_eq_some_iff.mp taken with ⟨after, stepped, rfl⟩
          have quiet := inv.quiet nonzero stepped trivial
          exact ⟨quiet.kept, quiet.promptly, quiet.outstanding, quiet.limit⟩
        · contradiction
  | rpc action block =>
      cases action with
      | call | finish | cancel | gotRequest => contradiction
      | transmit | gotReply | bind => exact inv.quiet nonzero taken delivered
      | dispatch id choice isdead =>
          rcases Option.map_eq_some_iff.mp taken with ⟨after, stepped, rfl⟩
          have quiet := inv.quiet nonzero stepped delivered
          split
          · exact ⟨quiet.kept, quiet.promptly, quiet.outstanding, quiet.limit⟩
          · exact quiet

/-- Within the limit of the tester the workers are never starved, as long as no reply is
freed while it is being sent. -/
theorem never_starved {srvNonce : UInt32} (nonzero : ∀ c, nonce c ≠ 0)
    (reachable : (machine nonce srvNonce).ReachableUnder Careful s) : ¬ s.Starved := by
  have inv : Inv nonce s := by
    apply reachable.invariant (Inv nonce)
    · exact ⟨RawServer.kept_initial srvNonce.toNat lockService.initial,
        LockSystem.initial_promptly srvNonce.toNat_lt, nofun, Nat.zero_le _⟩
    · intro state action next _ inv allowed taken
      exact inv.step nonzero allowed taken
  exact inv.not_starved

/-! ## Runs of one client -/

instance (s : WorkerPool ι) : ∀ action, Decidable (WithinLimit s action)
  | .enter .. => Nat.decLt s.outstanding.card nt
  | .leave c id => inferInstanceAs (Decidable (s.sys.NoTimeout (.leave c id)))
  | .gotPdu .. | .takeJob _ | .rpc .. => instDecidableTrue

instance (s : WorkerPool ι) : ∀ action, Decidable (Delivered s action)
  | .rpc action block => inferInstanceAs (Decidable (s.sys.Delivered (.rpc action block)))
  | .enter .. | .leave .. | .gotPdu .. | .takeJob _ => instDecidableTrue

instance (s : WorkerPool ι) (action : Action ι) : Decidable (Careful s action) :=
  inferInstanceAs (Decidable (_ ∧ _))

instance (s : RawLocks ι) (tid : Nat) : Decidable (s.InGrant tid) :=
  decidable_of_iff ((s.rpc.server.threads.held tid).any fun t =>
      match t.pc with
      | .handling (.user (.grant ..)) => true
      | _ => false) (by
    rw [Option.any_eq_true]
    constructor
    · rintro ⟨t, current, grant⟩
      split at grant
      · next clt lid place => exact ⟨t, clt, lid, current, place⟩
      · contradiction
    · rintro ⟨t, clt, lid, current, place⟩
      exact ⟨t, current, by rw [place]⟩)

open LockSystem (lockConn)

def request (clt : UInt32) (xid xidRep : Nat) (op : Op) : Request where
  xid := xid
  proc := op.proc
  cltNonce := clt.toNat
  srvNonce := if op = .bind then 0 else 9
  xidRep := xidRep
  payload := op.payload clt

/-- A request arrives, a worker takes it, and its thread of `dispatch` runs. -/
def arrive (req : Request) (tid steps block : Nat) : List (Action Unit) :=
  [.gotPdu lockConn req, .takeJob tid] ++ List.replicate steps (.rpc (.dispatch tid 0 false) block)

def callOnce (clt : UInt32) (steps id xid : Nat) (op : Op) (result : Int32) : List (Action Unit) :=
  let req := request clt xid (xid - 1) op
  let payload := Server.encodeInt result
  [.enter () id op, .rpc (.transmit () xid 0 0) 0] ++ arrive req 0 steps xid ++
    [.rpc (.gotReply () {
      dest := ()
      answer := { cause := req, reply := { xid, ret := 0, payload } }
      nonce := 9 }) 0, .leave () id]

/-- The first thread acquires the lock. -/
def acquireFirst (clt : UInt32) (steps : Nat) : List (Action Unit) :=
  callOnce clt steps 0 1 .bind 9 ++
    [.rpc (.bind () {
      req := request clt 1 0 .bind, ret := 0, payload := Server.encodeInt 9 }) 0] ++
    callOnce clt steps 1 2 (.acquire 7) 0

/-- A thread calls, and its request is sent. -/
def call (id xid : Nat) (op : Op) : List (Action Unit) :=
  [.enter () id op, .rpc (.transmit () xid 0 0) 0]

/-- One client with the given nonce and an instance of the server. -/
def poolMachine (clt : UInt32) : Machine (WorkerPool Unit) (Action Unit) := machine (fun _ => clt) 9

/-- The workers, and whether they all are in `grant`. -/
def workers (s : WorkerPool Unit) : Nat × Bool :=
  (s.running.card, decide (∀ tid ∈ s.running, s.sys.InGrant tid))

/-- Nine more threads acquire the lock, and the first one releases it. -/
def ninePlusOne : List (Action Unit) :=
  acquireFirst 5 7 ++
    (List.range 9).flatMap (fun i => call (i + 2) (i + 3) (.acquire 7) ++
      arrive (request 5 (i + 3) 2 (.acquire 7)) i 4 0) ++
    call 1 12 (.release 7) ++ [.gotPdu lockConn (request 5 12 2 (.release 7))]

theorem never_starved_ninePlusOne :
    ∃ s, (poolMachine 5).ReachableUnder Careful s ∧ s.running.card = 9 ∧
      (∀ tid ∈ s.running, s.sys.InGrant tid) ∧
      s.jobq = [(lockConn, request 5 12 2 (.release 7))] ∧ ¬ s.Starved := by
  have run : (((poolMachine 5).restrict Careful).run (poolMachine 5).initial ninePlusOne).map
      (fun s => (s.workers, s.jobq)) =
      some ((9, true), [(lockConn, request 5 12 2 (.release 7))]) := by decide +kernel
  rcases Option.map_eq_some_iff.mp run with ⟨s, taken, result⟩
  simp only [workers, Prod.mk.injEq, decide_eq_true_eq] at result
  have reachable := Machine.reachableUnder_of_run taken
  exact ⟨s, reachable, result.1.1, result.1.2, result.2,
    never_starved (fun _ => by decide) reachable⟩

/-- Without a client nonce each duplicate of an acquire occupies a worker. -/
def duplicates : List (Action Unit) :=
  acquireFirst 0 5 ++ call 2 3 (.acquire 7) ++
    (List.range 10).flatMap (fun i => arrive (request 0 3 2 (.acquire 7)) i 2 0) ++
    call 1 4 (.release 7) ++ [.gotPdu lockConn (request 0 4 2 (.release 7))]

theorem starved_duplicates :
    ∃ s, (poolMachine 0).ReachableUnder Careful s ∧ s.outstanding.card = 2 ∧ s.Starved := by
  have run : (((poolMachine 0).restrict Careful).run (poolMachine 0).initial duplicates).map
      (fun s => (s.workers, s.outstanding.card, decide (((), 1) ∈ s.outstanding ∧
        (s.sys.threads () 1).status = .calling (.release 7) 4 ∧
        ((s.sys.rpc.clients ()).callers 4).map Caller.req = some (request 0 4 2 (.release 7)) ∧
        s.jobq = [(lockConn, request 0 4 2 (.release 7))]))) = some ((10, true), 2, true) := by
    decide +kernel
  rcases Option.map_eq_some_iff.mp run with ⟨s, taken, result⟩
  simp only [workers, Prod.mk.injEq, decide_eq_true_eq] at result
  rcases result with ⟨⟨full, inGrant⟩, two, issued, releasing, called, queue⟩
  rcases Option.map_eq_some_iff.mp called with ⟨ca, current, req⟩
  refine ⟨s, Machine.reachableUnder_of_run taken, two, full, inGrant, ?_⟩
  refine ⟨(), 1, 7, 4, ca, lockConn, issued, releasing, current, ?_⟩
  rw [queue, req]
  exact List.mem_singleton_self _

end WorkerPool

end YfsRpc.LockService
