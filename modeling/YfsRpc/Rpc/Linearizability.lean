import YfsRpc.Foundation.Linearization
import YfsRpc.Rpc.Isolation
import YfsRpc.Rpc.ReplyIntegrity

/-! # The calls of all clients are linearizable

The handlers of a service whose handlers change nothing before they return act on the
service one after the other. The order in which they returned explains every result
that a client got, whatever the network lost, repeated or delayed.
-/

namespace YfsRpc.Rpc

variable {ι σ Local : Type}

namespace Service

/-- A handler that was invoked with the arguments may be here. -/
inductive Stage (service : Service σ Local) (start : Local) : Local → Prop
  | start : Stage service start start
  | paused {l later : Local} {state next : σ} {choice : Nat} (before : Stage service start l)
      (resumed : service.resume state l choice = some (next, .inl later)) :
      Stage service start later

/-- A handler that does not return has changed nothing. -/
def Atomic (service : Service σ Local) : Prop :=
  ∀ state l choice next later, service.resume state l choice = some (next, .inl later) →
    next = state

/-- The instance of the server as an object: an operation is a procedure number with its
marshalled arguments, its result what the handler returns. -/
def object (service : Service σ Local) (srvNonce : Nat) :
    SharedObject σ (Nat × List UInt8) (Int × List UInt8) where
  initial := service.initial
  effect state op result next :=
    if op.1 = RpcConst.bind then
      next = state ∧ result = Server.rpcbind srvNonce op.2
    else
      ∃ l choice, service.Stage (service.invoke op.1 op.2) l ∧
        service.resume state l choice = some (next, .inr result)

theorem object_effect_bind (service : Service σ Local) (srvNonce : Nat) {state : σ}
    {op : Nat × List UInt8} (bind : op.1 = RpcConst.bind) :
    (service.object srvNonce).effect state op
      ((Server.rpcbind srvNonce op.2).1, (Server.rpcbind srvNonce op.2).2) state := by
  simp only [object, if_pos bind, Prod.mk.eta, and_self]

theorem object_effect_user (service : Service σ Local) (srvNonce : Nat) {state next : σ}
    {op : Nat × List UInt8} {result : Int × List UInt8} (other : op.1 ≠ RpcConst.bind)
    {l : Local} {choice : Nat} (stage : service.Stage (service.invoke op.1 op.2) l)
    (resumed : service.resume state l choice = some (next, .inr result)) :
    (service.object srvNonce).effect state op result next := by
  simp only [object, if_neg other]
  exact ⟨l, choice, stage, resumed⟩

end Service

/-! ## Histories -/

/-- The event of a call of the client interface, a call being known by its nonce and xid. -/
abbrev RpcEvent := CallEvent (Nat × Nat) (Nat × List UInt8) (Int × List UInt8)

instance : DecidableEq RpcEvent := inferInstance

/-- The operation that a request asks for. -/
def Request.operation (r : Request) : Nat × List UInt8 := (r.proc, r.payload)

/-- What an execution did, in the order of the handlers' returns. -/
def Execution.entry (ex : Execution) :
    (Nat × Nat) × (Nat × List UInt8) × (Int × List UInt8) :=
  (ex.req.key, ex.req.operation, (ex.ret, ex.payload))

/-- The call has returned. -/
def Client.Gone (cl : Client) (number : Nat) : Prop :=
  number ≤ cl.issued.length ∧ cl.callers number = none

namespace System

/-- A call that returns a failure stays pending: it may have been executed, or may be yet. -/
def observe [DecidableEq ι] (nonce : ι → Nat) (s : System ι σ Local) :
    Action ι → List RpcEvent
  | .call c proc payload => [.invoke (nonce c, (s.clients c).xid) (proc, payload)]
  | .finish c number =>
      match (s.clients c).callers number with
      | some ca =>
          if ca.done = true ∧ 0 ≤ ca.intret then
            [.respond ca.req.key (ca.intret, ca.un)]
          else
            []
      | none => []
  | _ => []

/-- The clients and the server, with the history of the calls. -/
def recorded [DecidableEq ι] (nonce : ι → Nat) (service : Service σ Local) (srvNonce : Nat) :
    Machine (System ι σ Local × List RpcEvent) (Action ι) :=
  (machine nonce service srvNonce).recording (observe nonce)

/-! ## The handlers -/

/-- A handler that runs was started by the request of its thread. -/
def Staged (service : Service σ Local) (server : Server ι σ Local) : Prop :=
  ∀ id t, server.threads id = some t →
    (t.pc = .handling .rpcbind → t.req.proc = RpcConst.bind) ∧
    ∀ l, t.pc = .handling (.user l) → t.req.proc ≠ RpcConst.bind ∧
      service.Stage (service.invoke t.req.proc t.req.payload) l

/-- What a step does to the service: a handler returns, or nothing has changed. -/
inductive Acted (service : Service σ Local) (s : Server ι σ Local) (t : Thread ι Local)
    (next : Server ι σ Local) : Prop
  | returned (ret : Int) (payload : List UInt8)
      (effect : (service.object s.nonce).effect s.service t.req.operation (ret, payload)
        next.service)
      (finished : next.finished = s.finished ++ [{ req := t.req, ret, payload }])
  | unchanged (same : next.service = s.service) (finished : next.finished = s.finished)

theorem Staged.moved {service : Service σ Local} {s next : Server ι σ Local}
    (staged : Staged service s) (id : Nat) (t : Thread ι Local) (pc : Option (Pc ι Local))
    (threads : next.threads = Function.update s.threads id (pc.map fun pc => { t with pc }))
    (bind : pc = some (.handling .rpcbind) → t.req.proc = RpcConst.bind)
    (user : ∀ l, pc = some (.handling (.user l)) → t.req.proc ≠ RpcConst.bind ∧
      service.Stage (service.invoke t.req.proc t.req.payload) l) : Staged service next := by
  intro id' t' found
  rw [threads] at found
  rcases Server.thread_moved found with ⟨_, now, isNow, rfl⟩ | ⟨_, before⟩
  · constructor
    · intro place
      exact bind (isNow.trans (congrArg some place))
    · intro l place
      exact user l (isNow.trans (congrArg some place))
  · exact staged id' t' before

/-- The handler that the case `NEW` starts. -/
theorem Staged.invoked {service : Service σ Local} {s : Server ι σ Local}
    (staged : Staged service s) (id : Nat) (t : Thread ι Local) :
    Staged service (s.invoke service id t) := by
  by_cases bind : t.req.proc = RpcConst.bind
  · apply staged.moved id t (some (.handling .rpcbind))
    · simp [Server.invoke, Server.goto, bind]
    · exact fun _ => bind
    · nofun
  · apply staged.moved id t (some (.handling (.user (service.invoke t.req.proc t.req.payload))))
    · simp [Server.invoke, Server.goto, bind]
    · nofun
    · intro l same
      cases same
      exact ⟨bind, .start⟩

/-- A step keeps every handler in its stage. -/
theorem Staged.dispatched {service : Service σ Local} {s next : Server ι σ Local} {id : Nat}
    {t : Thread ι Local} {sent : Option (Message ι)} (staged : Staged service s)
    (current : s.threads id = some t)
    (step : Server.Dispatched service s id t next sent) : Staged service next := by
  cases step with
  | refused | admitted | saved | done | forgotten | returned | bound | recorded | unrecorded
  | chosen => exact staged.moved id t (some _) rfl nofun nofun
  | unregistered | inprogress | sent => exact staged.moved id t none rfl nofun nofun
  | untracked => exact staged.invoked id t
  | new place window =>
      have same : Staged service { s.updateWindow t.req.cltNonce window with
          news := s.news ++ [t.req.key] } := staged
      exact same.invoked id t
  | paused l place choice state later resumed =>
      rcases (staged id t current).2 l place with ⟨other, stage⟩
      apply staged.moved id t (some (.handling (.user later))) rfl nofun
      intro _ same
      cases same
      exact ⟨other, stage.paused resumed⟩

/-- A step of a thread acts on the service as the object does, or leaves it. -/
theorem Staged.acted {service : Service σ Local} (atomic : service.Atomic)
    {s next : Server ι σ Local} {id : Nat} {t : Thread ι Local} {sent : Option (Message ι)}
    (staged : Staged service s) (current : s.threads id = some t)
    (step : Server.Dispatched service s id t next sent) : Acted service s t next := by
  cases step with
  | returned l place choice state ret payload resumed =>
      rcases (staged id t current).2 l place with ⟨other, stage⟩
      exact .returned ret payload
        (service.object_effect_user s.nonce other stage resumed) rfl
  | bound place =>
      have bind := (staged id t current).1 place
      exact .returned _ _ (service.object_effect_bind s.nonce bind) rfl
  | paused l place choice state later resumed =>
      exact .unchanged (atomic _ _ _ _ _ resumed) rfl
  | _ => exact .unchanged rfl rfl

/-! ## The order of the executions -/

/-- The executions, in the order in which the handlers returned. -/
def order (s : System ι σ Local) : List ((Nat × Nat) × (Nat × List UInt8) × (Int × List UInt8)) :=
  s.server.finished.map Execution.entry

variable {nonce : ι → Nat} {s next : System ι σ Local}

/-- An execution in the order is of a request that was issued. -/
theorem Inv.issued_of_ordered (inv : Inv nonce s) {k : Nat × Nat}
    (ordered : k ∈ s.order.map Prod.fst) : ∃ c, ∃ req ∈ s.issued c, req.key = k := by
  rw [order, List.map_map] at ordered
  rcases List.mem_map.mp ordered with ⟨ex, executed, same⟩
  have known := inv.server.history
  rcases known.known _ (known.returned ex executed) with ⟨c, issued⟩
  exact ⟨c, ex.req, issued, same⟩

/-- The next xid of a client is the key of no request. -/
theorem Inv.next_fresh (inv : Inv nonce s) (distinct : Function.Injective nonce) (c c' : ι)
    {req : Request} (issued : req ∈ s.issued c') : req.key ≠ (nonce c, (s.clients c).xid) := by
  intro same
  rw [Request.key, inv.issued.cltNonce c' req issued, Prod.mk.injEq] at same
  cases distinct same.1
  have bound := ((inv.clients c).range req issued).2
  have count := (inv.clients c).count
  omega

/-! ## The invariant -/

/-- What is known of the history when the system is in the state. -/
structure Linear (nonce : ι → Nat) (service : Service σ Local) (srvNonce : Nat)
    (s : System ι σ Local) (history : List RpcEvent) : Prop where
  instanceNonce : s.server.nonce = srvNonce
  staged : Staged service s.server
  wellFormed : WellFormed history
  linear : Linearizes (service.object srvNonce) history s.order s.server.service
  invoked : ∀ c, ∀ req ∈ s.issued c, .invoke req.key req.operation ∈ history
  known : ∀ k op, .invoke k op ∈ history → ∃ c, ∃ req ∈ s.issued c, req.key = k
  gone : ∀ k res, .respond k res ∈ history →
    ∃ c number, k = (nonce c, number) ∧ (s.clients c).Gone number

variable {service : Service σ Local} {srvNonce : Nat} {history : List RpcEvent}

/-- The executions and the calls are as before. -/
theorem Linear.frame (linear : Linear nonce service srvNonce s history)
    (instanceNonce : next.server.nonce = s.server.nonce) (staged : Staged service next.server)
    (state : next.server.service = s.server.service)
    (finished : next.server.finished = s.server.finished)
    (issued : ∀ c, next.issued c = s.issued c)
    (gone : ∀ c number, (s.clients c).Gone number → (next.clients c).Gone number) :
    Linear nonce service srvNonce next history where
  instanceNonce := instanceNonce.trans linear.instanceNonce
  staged := staged
  wellFormed := linear.wellFormed
  linear := by
    rw [order, finished, state]
    exact linear.linear
  invoked := by
    intro c req member
    rw [issued] at member
    exact linear.invoked c req member
  known := by
    intro k op member
    rcases linear.known k op member with ⟨c, req, found, same⟩
    rw [← issued] at found
    exact ⟨c, req, found, same⟩
  gone := by
    intro k res member
    rcases linear.gone k res member with ⟨c, number, same, before⟩
    exact ⟨c, number, same, gone c number before⟩

/-- A call returns what its execution produced. -/
theorem Linear.respond (linear : Linear nonce service srvNonce s history) (inv : Inv nonce s)
    (distinct : Function.Injective nonce) {c : ι} {number : Nat} {ca : Caller}
    (current : (s.clients c).callers number = some ca) (done : ca.done = true)
    (valid : 0 ≤ ca.intret) (after : Linear nonce service srvNonce next history)
    (finished : next.server.finished = s.server.finished)
    (gone : (next.clients c).Gone number) :
    Linear nonce service srvNonce next
      (history ++ [.respond ca.req.key (ca.intret, ca.un)]) := by
  have placed := (inv.clients c).callers number ca current
  have executed := placed.result done valid
  have key : ca.req.key = (nonce c, number) := by
    rw [Request.key, (inv.clients c).nonce ca.req placed.req, placed.reqXid]
  have begun := linear.invoked c ca.req placed.req
  refine ⟨after.instanceNonce, after.staged, ?_, ?_, ?_, ?_, ?_⟩
  · apply after.wellFormed.respond ?_ begun
    intro res member
    rcases linear.gone _ res member with ⟨c', number', same, _, absent⟩
    rw [key, Prod.mk.injEq] at same
    rw [← distinct same.1, ← same.2, current] at absent
    contradiction
  · apply after.linear.respond
    rw [order, finished]
    exact List.mem_map.mpr ⟨_, executed, rfl⟩
  · intro c' req member
    exact List.mem_append_left _ (after.invoked c' req member)
  · intro k op member
    rcases List.mem_append.mp member with old | new
    · exact after.known k op old
    · cases List.mem_singleton.mp new
  · intro k res member
    rcases List.mem_append.mp member with old | new
    · exact after.gone k res old
    · cases List.mem_singleton.mp new
      exact ⟨c, number, key, gone⟩

/-- A thread of the server takes a step. -/
theorem Linear.dispatched (linear : Linear nonce service srvNonce s history) (inv : Inv nonce s)
    (kept : Inv nonce next) (atomic : service.Atomic) {id : Nat} {t : Thread ι Local}
    {server : Server ι σ Local} {sent : Option (Message ι)}
    (current : s.server.threads id = some t)
    (step : Server.Dispatched service s.server id t server sent)
    (clients : next.clients = s.clients) (after : next.server = server) :
    Linear nonce service srvNonce next history := by
  subst after
  have staged := linear.staged.dispatched current step
  have issued : next.issued = s.issued := by
    funext c
    exact congrArg (fun clients => (clients c).issued) clients
  cases linear.staged.acted atomic current step with
  | unchanged state finished =>
      apply linear.frame step.nonce_eq staged state finished
      · exact fun c => congrFun issued c
      · intro c number gone
        rw [clients]
        exact gone
  | returned ret payload effect finished =>
      have own := inv.server.threads.known id t current
      have entries : next.order =
          s.order ++ [(t.req.key, t.req.operation, (ret, payload))] := by
        rw [order, finished, List.map_append]
        rfl
      have keys := kept.finished_keys
      rw [List.map_map, finished, List.map_append, List.nodup_append] at keys
      have fresh : t.req.key ∉ s.order.map Prod.fst := by
        rw [order, List.map_map]
        intro member
        exact keys.2.2 _ member _ (List.mem_singleton_self _) rfl
      rw [linear.instanceNonce] at effect
      refine ⟨step.nonce_eq.trans linear.instanceNonce, staged, linear.wellFormed, ?_, ?_, ?_, ?_⟩
      · rw [entries]
        exact linear.linear.commit fresh (linear.invoked _ _ own) effect
      · rw [issued]
        exact linear.invoked
      · rw [issued]
        exact linear.known
      · rw [clients]
        exact linear.gone

/-! ## Calls that have returned -/

variable [DecidableEq ι]

/-- A call that has returned does not come back. -/
theorem Inv.gone (inv : Inv nonce s) {service : Service σ Local} {action : Action ι}
    (step : Stepped nonce service s action next) {c : ι} {number : Nat}
    (gone : (s.clients c).Gone number) : (next.clients c).Gone number := by
  have update (other : ι) (cl : Client)
      (kept : (s.clients other).Gone number → cl.Gone number) :
      ((s.setClient other cl).clients c).Gone number :=
    forall_setClient (fun c cl => (s.clients c).Gone number → cl.Gone number) kept
      (fun _ => id) c gone
  cases step with
  | call other proc payload cl done =>
      apply update
      intro ⟨bound, absent⟩
      rcases Client.call1_eq done with ⟨_, _, rfl⟩
      constructor
      · rw [Client.issued_register, List.length_append]
        exact Nat.le_trans bound (Nat.le_add_right _ _)
      · rw [Client.callers_register_of_ne _ (by omega)]
        exact absent
  | gotReply other m =>
      apply update
      intro ⟨bound, absent⟩
      constructor
      · rw [Client.issued_gotPdu]
        exact bound
      · rcases Client.gotPdu_cases (inv.clients other) m.answer.reply with
          ⟨_, same⟩ | ⟨ca, current, _, same⟩
        · rw [same]
          exact absent
        · rw [same]
          have elsewhere : number ≠ m.answer.reply.xid := by
            intro here
            rw [here, current] at absent
            contradiction
          exact (Function.update_of_ne elsewhere _ _).trans absent
  | finish other n cl done =>
      apply update
      intro ⟨bound, absent⟩
      rcases Client.finish_eq (inv.clients other) done with ⟨_, _, rfl⟩
      refine ⟨bound, ?_⟩
      change Function.update (s.clients other).callers n none number = none
      by_cases here : number = n
      · rw [here, Function.update_self]
      · rw [Function.update_of_ne here]
        exact absent
  | bind other ret cl done =>
      apply update
      rcases Client.bind_eq done with ⟨_, _, _, rfl⟩
      exact id
  | cancel other =>
      apply update
      intro ⟨bound, absent⟩
      refine ⟨bound, ?_⟩
      change ((s.clients other).callers number).map _ = none
      rw [absent]
      rfl
  | transmit | gotRequest | dispatch => exact gone

/-! ## The steps -/

theorem Linear.initial (nonce : ι → Nat) (service : Service σ Local) (srvNonce : Nat) :
    Linear nonce service srvNonce (machine nonce service srvNonce).initial [] where
  instanceNonce := rfl
  staged := nofun
  wellFormed := .nil
  linear := Linearizes.initial (service.object srvNonce)
  invoked := nofun
  known := nofun
  gone := nofun

/-- A call begins. -/
theorem Linear.call (linear : Linear nonce service srvNonce s history) (inv : Inv nonce s)
    (distinct : Function.Injective nonce) {c : ι} {proc : Nat} {payload : List UInt8}
    {cl : Client} (done : (s.clients c).call1 (nonce c) proc payload = some cl) :
    Linear nonce service srvNonce (s.setClient c cl)
      (history ++ [.invoke (nonce c, (s.clients c).xid) (proc, payload)]) := by
  have stepped : Stepped nonce service s (.call c proc payload) (s.setClient c cl) :=
    .call c proc payload cl done
  have gone : ∀ c' number, (s.clients c').Gone number →
      ((s.setClient c cl).clients c').Gone number := fun _ _ => inv.gone stepped
  rcases Client.call1_eq done with ⟨_, _, rfl⟩
  have fresh (c' : ι) (req : Request) (issued : req ∈ s.issued c') :=
    inv.next_fresh distinct c c' issued
  have more (c' : ι) : s.issued c' ⊆
      (s.setClient c ((s.clients c).register ((s.clients c).pack (nonce c) proc payload))).issued
        c' := issued_setClient (List.subset_append_left _ _) c'
  refine ⟨linear.instanceNonce, linear.staged, ?_, ?_, ?_, ?_, ?_⟩
  · apply linear.wellFormed.invoke
    intro op member
    rcases linear.known _ op member with ⟨c', req, issued, same⟩
    exact fresh c' req issued same
  · apply linear.linear.invoke
    intro ordered
    rcases inv.issued_of_ordered ordered with ⟨c', req, issued, same⟩
    exact fresh c' req issued same
  · intro c' req member
    by_cases here : c' = c
    · subst here
      rw [issued, setClient_self, Client.issued_register] at member
      rcases List.mem_append.mp member with old | new
      · exact List.mem_append_left _ (linear.invoked c' req old)
      · rw [List.mem_singleton.mp new]
        exact List.mem_append_right _ (List.mem_singleton_self _)
    · rw [issued, setClient_of_ne _ _ here] at member
      exact List.mem_append_left _ (linear.invoked c' req member)
  · intro k op member
    rcases List.mem_append.mp member with old | new
    · rcases linear.known k op old with ⟨c', req, issued, same⟩
      exact ⟨c', req, more c' issued, same⟩
    · cases List.mem_singleton.mp new
      refine ⟨c, (s.clients c).pack (nonce c) proc payload, ?_, rfl⟩
      rw [issued, setClient_self, Client.issued_register]
      exact List.mem_append_right _ (List.mem_singleton_self _)
  · intro k res member
    rcases List.mem_append.mp member with old | new
    · rcases linear.gone k res old with ⟨c', number, same, before⟩
      exact ⟨c', number, same, gone c' number before⟩
    · cases List.mem_singleton.mp new

/-- A client settles some of its calls. -/
theorem Linear.settled (linear : Linear nonce service srvNonce s history) {c : ι} {cl : Client}
    (settles : (s.clients c).Settles cl)
    (gone : ∀ c' number, (s.clients c').Gone number →
      ((s.setClient c cl).clients c').Gone number) :
    Linear nonce service srvNonce (s.setClient c cl) history := by
  have issued : ∀ c', (s.setClient c cl).issued c' = s.issued c' :=
    forall_setClient (fun c' cl => cl.issued = s.issued c') settles.issued fun _ => rfl
  exact linear.frame rfl linear.staged rfl rfl issued gone

/-- A call leaves `call1`. -/
theorem Linear.finish (linear : Linear nonce service srvNonce s history) (inv : Inv nonce s)
    (distinct : Function.Injective nonce) {c : ι} {number : Nat} {cl : Client}
    (done : (s.clients c).finish number = some cl)
    (gone : ∀ c' number, (s.clients c').Gone number →
      ((s.setClient c cl).clients c').Gone number) :
    Linear nonce service srvNonce (s.setClient c cl)
      (history ++ observe nonce s (.finish c number)) := by
  have after := linear.settled ((inv.clients c).finish_settles done) gone
  rcases Client.finish_eq (inv.clients c) done with ⟨ca, current, same⟩
  have placed := (inv.clients c).callers number ca current
  have returned : ((s.setClient c cl).clients c).Gone number := by
    rw [setClient_self, same]
    refine ⟨?_, Function.update_self _ _ _⟩
    rw [← placed.reqXid]
    exact ((inv.clients c).range ca.req placed.req).2
  by_cases answered : ca.done = true ∧ 0 ≤ ca.intret
  · simp only [observe, current, if_pos answered]
    exact linear.respond inv distinct current answered.1 answered.2 after rfl returned
  · simp only [observe, current, if_neg answered, List.append_nil]
    exact after

/-- Every step keeps the order an explanation of the history. -/
theorem Linear.step (linear : Linear nonce service srvNonce s history) (inv : Inv nonce s)
    (kept : Inv nonce next) (distinct : Function.Injective nonce) (atomic : service.Atomic)
    {action : Action ι} (step : Stepped nonce service s action next) :
    Linear nonce service srvNonce next (history ++ observe nonce s action) := by
  have gone : ∀ c number, (s.clients c).Gone number → (next.clients c).Gone number :=
    fun _ _ => inv.gone step
  have unseen (after : Linear nonce service srvNonce next history)
      (silent : observe nonce s action = []) :
      Linear nonce service srvNonce next (history ++ observe nonce s action) := by
    rw [silent, List.append_nil]
    exact after
  cases step with
  | call c proc payload cl done => exact linear.call inv distinct done
  | finish c number cl done => exact linear.finish inv distinct done gone
  | dispatch id choice isdead server sent t current done =>
      exact unseen (linear.dispatched inv kept atomic current done rfl rfl) rfl
  | transmit c number serial createTime ca current =>
      exact unseen (linear.frame rfl linear.staged rfl rfl (fun _ => rfl) gone) rfl
  | gotReply c m =>
      exact unseen (linear.settled ((inv.clients c).gotPdu_settles _) gone) rfl
  | bind c ret cl done => exact unseen (linear.settled (Client.bind_settles done) gone) rfl
  | cancel c => exact unseen (linear.settled (Client.cancel_settles _) gone) rfl
  | gotRequest id conn req server sent done =>
      apply unseen ?_ rfl
      rcases Server.gotPdu_eq done with ⟨_, rfl⟩
      have staged : Staged service { s.server with
          threads := Function.update s.server.threads id (some { conn, req, pc := .received }) } :=
        linear.staged.moved id { conn, req, pc := .received } (some .received) rfl nofun nofun
      exact linear.frame rfl staged rfl rfl (fun _ => rfl) gone

/-- Every run in which no client runs out of xids has a history that the order of the
executions explains. -/
theorem reachable_linear (distinct : Function.Injective nonce) (nonzero : ∀ c, nonce c ≠ 0)
    (atomic : service.Atomic) {r : System ι σ Local × List RpcEvent}
    (reachable : (recorded nonce service srvNonce).ReachableUnder (fun r => FewCalls r.1) r) :
    Linear nonce service srvNonce r.1 r.2 := by
  refine reachable.invariant (fun r => Linear nonce service srvNonce r.1 r.2) ?_ ?_
  · exact Linear.initial nonce service srvNonce
  · intro r action after before linear few taken
    have inv := reachable_inv distinct nonzero before.recorded
    rcases Option.map_eq_some_iff.mp taken with ⟨next, stepped, rfl⟩
    exact linear.step inv (inv.step distinct nonzero few stepped) distinct atomic
      (step_cases stepped)

end System

/-! ## Replies in memory -/

namespace RawSystem

variable [DecidableEq ι] {nonce : ι → Nat} {service : Service σ Local} {srvNonce : Nat}
  {s : RawSystem ι σ Local} {history : List RpcEvent}

/-- The clients and the server, with the history of the calls. -/
def recorded (nonce : ι → Nat) (service : Service σ Local) (srvNonce : Nat) :
    Machine (RawSystem ι σ Local × List RpcEvent) (System.Action ι × Nat) :=
  (machine nonce service srvNonce).recording fun s action => s.view.observe nonce action.1

/-- The executions, in the order in which the handlers returned. -/
def order (s : RawSystem ι σ Local) :
    List ((Nat × Nat) × (Nat × List UInt8) × (Int × List UInt8)) :=
  s.server.finished.map Execution.entry

theorem recorded_view (reachable : (recorded nonce service srvNonce).ReachableUnder
      (fun r => Careful r.1) (s, history)) :
    (System.recorded nonce service srvNonce).ReachableUnder (fun r => System.FewCalls r.1)
      (s.view, history) := by
  refine Machine.ReachableUnder.recorded_view (fun s => s.server.Kept) view Prod.fst ?_ ?_ ?_
    reachable
  · exact RawServer.kept_initial srvNonce service.initial
  · rfl
  · exact fun _ _ _ kept careful taken => careful_step kept careful taken

open YfsRpc.Rpc.System (echo)

theorem echo_atomic : echo.Atomic := nofun

/-- What is seen of a call that returned. -/
def callEvents (c : Bool) (xid : Nat) : List RpcEvent :=
  [.invoke (echoNonce c, xid) (requestOf c xid 0).operation,
    .respond (echoNonce c, xid) (0, payloadOf c xid)]

end RawSystem

end YfsRpc.Rpc
