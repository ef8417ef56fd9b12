import YfsRpc.Foundation.Slots
import YfsRpc.Rpc.Client
import YfsRpc.Rpc.ReplyWindow

/-! # The server endpoint

`rpcs::dispatch` runs in a thread of its own for every request that arrives. A
step of a thread is one stretch of code under one lock. The registered
procedures form a service, whose handlers may block and so take several steps.
Replies are values here. The code passes pointers to them on: `RawServer` has the
blocks, and shows what this server does as long as none is freed while it is sent.
-/

namespace YfsRpc.Rpc

/-- A connection between a client and the server, as the server sees it. -/
structure Conn (ι : Type) where
  client : ι
  serial : Nat
  createTime : Nat
  deriving DecidableEq

/-- The registered procedures other than `bind`. `invoke` starts a handler;
`resume` lets it run to the next point where it gives up a lock, or to its
result, unless it is blocked. The last argument of `resume` resolves what the
handler leaves open. -/
structure Service (σ Local : Type) where
  initial : σ
  registered : Nat → Bool
  invoke : Nat → List UInt8 → Local
  resume : σ → Local → Nat → Option (σ × (Local ⊕ (Int × List UInt8)))

/-- A reply, and as history the request whose execution it answers. -/
structure Answer where
  cause : Request
  reply : Reply
  deriving DecidableEq, Repr

/-- A handler that is running. -/
inductive Running (Local : Type)
  | rpcbind
  | user (l : Local)

/-- Where a thread is in `dispatch`. -/
inductive Pc (ι Local : Type)
  /-- before the checks of the server instance and the procedure -/
  | received
  /-- before the update of `conns_` -/
  | saving
  /-- before `checkduplicate_and_update` -/
  | checking
  /-- in `f->fn` -/
  | handling (h : Running Local)
  /-- before `add_reply` -/
  | replying (a : Answer)
  /-- before the choice of the latest connection -/
  | choosing (a : Answer)
  /-- before `send` -/
  | sending (c : Conn ι) (a : Answer)

structure Thread (ι Local : Type) where
  conn : Conn ι
  req : Request
  pc : Pc ι Local

/-- History: a handler that returned. -/
structure Execution where
  req : Request
  ret : Int
  payload : List UInt8
  deriving DecidableEq, Repr

structure Server (ι σ Local : Type) where
  nonce : Nat
  service : σ
  replyWindow : Nat → List (ReplyT Answer) := fun _ => []
  conns : Nat → Option (Conn ι) := fun _ => none
  threads : Nat → Option (Thread ι Local) := fun _ => none
  /-- history: the requests classified `NEW` by `checkduplicate_and_update` -/
  news : List (Nat × Nat) := []
  /-- history: the requests whose handler was called -/
  begun : List Request := []
  /-- history: the handlers that returned -/
  finished : List Execution := []
  /-- history: the replies passed to `add_reply` -/
  recorded : List Answer := []

/-- A reply on its way to a client, and as history the nonce of the instance
that sent it. -/
structure Message (ι : Type) where
  dest : ι
  answer : Answer
  nonce : Nat
  deriving DecidableEq

/-- The nonce and the xid by which the server knows a call. -/
def Request.key (r : Request) : Nat × Nat := (r.cltNonce, r.xid)

namespace Server

variable {ι σ Local : Type}

def encodeInt (x : Int32) : List UInt8 := Ty.int.encode x

/-- The handler of `bind`: `args >> a`, `rpcbind(a, r)`, `ret << r`. -/
def rpcbind (nonce : Nat) (payload : List UInt8) : Int × List UInt8 :=
  match Client.decodeInt payload with
  | none => (RpcConst.unmarshalArgsFailure, [])
  | some _ => (0, encodeInt (UInt32.ofNat nonce).toInt32)

def goto (s : Server ι σ Local) (id : Nat) (t : Thread ι Local) (pc : Pc ι Local) :
    Server ι σ Local :=
  { s with threads := Function.update s.threads id (some { t with pc }) }

def exit (s : Server ι σ Local) (id : Nat) : Server ι σ Local :=
  { s with threads := Function.update s.threads id none }

/-- A job of the dispatch pool starts. -/
def gotPdu (id : Nat) (conn : Conn ι) (req : Request) (s : Server ι σ Local) :
    Option (Server ι σ Local) :=
  match s.threads id with
  | some _ => none
  | none => some { s with
      threads := Function.update s.threads id (some { conn, req, pc := .received }) }

/-- A reply that `dispatch` makes up without calling a handler. -/
def refuse (req : Request) (ret : Int) : Answer :=
  { cause := req, reply := { xid := req.xid, ret, payload := [] } }

/-- The case `NEW`: call the handler. -/
def invoke (service : Service σ Local) (s : Server ι σ Local) (id : Nat) (t : Thread ι Local) :
    Server ι σ Local :=
  let h :=
    if t.req.proc = RpcConst.bind then .rpcbind
    else .user (service.invoke t.req.proc t.req.payload)
  { s with begun := s.begun ++ [t.req] }.goto id t (.handling h)

def check (service : Service σ Local) (s : Server ι σ Local) (id : Nat) (t : Thread ι Local) :
    Server ι σ Local :=
  if t.req.srvNonce ≠ 0 ∧ t.req.srvNonce ≠ s.nonce then
    s.goto id t (.sending t.conn (refuse t.req RpcConst.oldsrvFailure))
  else if t.req.proc ≠ RpcConst.bind ∧ ¬ service.registered t.req.proc then
    s.exit id
  else if t.req.cltNonce ≠ 0 then
    s.goto id t .saving
  else
    s.invoke service id t

/-- Save the latest good connection to the client. -/
def saveConn (s : Server ι σ Local) (id : Nat) (t : Thread ι Local) : Server ι σ Local :=
  let conns :=
    match s.conns t.req.cltNonce with
    | none => Function.update s.conns t.req.cltNonce (some t.conn)
    | some old =>
        if old.createTime < t.conn.createTime then
          Function.update s.conns t.req.cltNonce (some t.conn)
        else
          s.conns
  { s with conns }.goto id t .checking

def updateWindow (s : Server ι σ Local) (cltNonce : Nat) (window : List (ReplyT Answer)) :
    Server ι σ Local :=
  { s with replyWindow := Function.update s.replyWindow cltNonce window }

/-- `DONE` with a null buffer has no successor. -/
def classify (service : Service σ Local) (s : Server ι σ Local) (id : Nat)
    (t : Thread ι Local) : Option (Server ι σ Local) :=
  let (stat, window) :=
    checkduplicateAndUpdate (s.replyWindow t.req.cltNonce) t.req.xid t.req.xidRep
  let s := s.updateWindow t.req.cltNonce window
  match stat with
  | .new => some ({ s with news := s.news ++ [t.req.key] }.invoke service id t)
  | .inprogress => some (s.exit id)
  | .done none => none
  | .done (some a) => some (s.goto id t (.sending t.conn a))
  | .forgotten =>
      some (s.goto id t (.sending t.conn (refuse t.req RpcConst.atmostonceFailure)))

/-- The handler has returned: pack the reply. -/
def finishHandler (s : Server ι σ Local) (id : Nat) (t : Thread ι Local) (ret : Int)
    (payload : List UInt8) : Server ι σ Local :=
  let a : Answer := { cause := t.req, reply := { xid := t.req.xid, ret, payload } }
  let finished := s.finished ++ [{ req := t.req, ret, payload : Execution }]
  { s with finished }.goto id t (.replying a)

/-- Let the handler run. Its result is 0 or more, or `unmarshal_args_failure`. -/
def handle (service : Service σ Local) (s : Server ι σ Local) (id : Nat) (t : Thread ι Local)
    (h : Running Local) (choice : Nat) : Option (Server ι σ Local) :=
  let resumed : Option (σ × (Local ⊕ (Int × List UInt8))) :=
    match h with
    | .rpcbind => some (s.service, .inr (rpcbind s.nonce t.req.payload))
    | .user l => service.resume s.service l choice
  match resumed with
  | none => none
  | some (state, .inl l) => some ({ s with service := state }.goto id t (.handling (.user l)))
  | some (state, .inr (ret, payload)) =>
      if ret ≥ 0 ∨ ret = RpcConst.unmarshalArgsFailure then
        some ({ s with service := state }.finishHandler id t ret payload)
      else
        none

def record (s : Server ι σ Local) (id : Nat) (t : Thread ι Local) (a : Answer) :
    Server ι σ Local :=
  if t.req.cltNonce > 0 then
    { s.updateWindow t.req.cltNonce
        (addReply t.req.xid a (s.replyWindow t.req.cltNonce)) with
      recorded := s.recorded ++ [a] }.goto id t (.choosing a)
  else
    s.goto id t (.choosing a)

/-- Get the latest connection to the client if this one is dead; without one
the null pointer is dereferenced. -/
def chooseConn [DecidableEq ι] (s : Server ι σ Local) (id : Nat) (t : Thread ι Local)
    (a : Answer) (isdead : Bool) : Option (Server ι σ Local) :=
  if isdead ∧ s.conns t.req.cltNonce ≠ some t.conn then
    (s.conns t.req.cltNonce).map fun c => s.goto id t (.sending c a)
  else
    some (s.goto id t (.sending t.conn a))

/-- One step of `dispatch`, and what it sends. -/
def dispatch [DecidableEq ι] (service : Service σ Local) (s : Server ι σ Local) (id choice : Nat)
    (isdead : Bool) : Option (Server ι σ Local × Option (Message ι)) :=
  match s.threads id with
  | none => none
  | some t =>
      match t.pc with
      | .received => some (s.check service id t, none)
      | .saving => some (s.saveConn id t, none)
      | .checking => (s.classify service id t).map fun s => (s, none)
      | .handling h => (s.handle service id t h choice).map fun s => (s, none)
      | .replying a => some (s.record id t a, none)
      | .choosing a => (s.chooseConn id t a isdead).map fun s => (s, none)
      | .sending c a => some (s.exit id, some { dest := c.client, answer := a, nonce := s.nonce })

/-! ## What a step can do -/

theorem gotPdu_eq {s next : Server ι σ Local} {id : Nat} {conn : Conn ι} {req : Request}
    (done : s.gotPdu id conn req = some next) :
    s.threads id = none ∧ next = { s with
      threads := Function.update s.threads id (some { conn, req, pc := .received }) } := by
  unfold gotPdu at done
  split at done
  · contradiction
  · next free =>
      cases done
      exact ⟨free, rfl⟩

/-- A thread that is found after another one moved on, or ended, was there before. -/
theorem thread_moved {threads : Nat → Option (Thread ι Local)} {id id' : Nat}
    {t t' : Thread ι Local} {pc : Option (Pc ι Local)}
    (found : Function.update threads id (pc.map fun pc => { t with pc }) id' = some t') :
    (id' = id ∧ ∃ now, pc = some now ∧ t' = { t with pc := now }) ∨
      (id' ≠ id ∧ threads id' = some t') := by
  rcases slot_changed found with ⟨here, same⟩ | before
  · rcases Option.map_eq_some_iff.mp same with ⟨now, isNow, rfl⟩
    exact Or.inl ⟨here, now, isNow, rfl⟩
  · exact Or.inr before

/-- The outcomes of a step of the thread `t` of `dispatch`. -/
inductive Dispatched (service : Service σ Local) (s : Server ι σ Local) (id : Nat)
    (t : Thread ι Local) : Server ι σ Local → Option (Message ι) → Prop
  | refused (place : t.pc = .received)
      (old : t.req.srvNonce ≠ 0 ∧ t.req.srvNonce ≠ s.nonce) :
      Dispatched service s id t
        (s.goto id t (.sending t.conn (refuse t.req RpcConst.oldsrvFailure))) none
  | unregistered (place : t.pc = .received) :
      Dispatched service s id t (s.exit id) none
  | admitted (place : t.pc = .received)
      (current : t.req.srvNonce = 0 ∨ t.req.srvNonce = s.nonce) (nonzero : t.req.cltNonce ≠ 0) :
      Dispatched service s id t (s.goto id t .saving) none
  | untracked (place : t.pc = .received) (zero : t.req.cltNonce = 0)
      (current : t.req.srvNonce = 0 ∨ t.req.srvNonce = s.nonce) :
      Dispatched service s id t (s.invoke service id t) none
  | saved (place : t.pc = .saving) (conns : Nat → Option (Conn ι))
      (latest : ∀ n c, conns n = some c →
        s.conns n = some c ∨ (n = t.req.cltNonce ∧ c = t.conn)) :
      Dispatched service s id t ({ s with conns }.goto id t .checking) none
  | new (place : t.pc = .checking) (window : List (ReplyT Answer))
      (result : checkduplicateAndUpdate (s.replyWindow t.req.cltNonce) t.req.xid
        t.req.xidRep = (.new, window)) :
      Dispatched service s id t
        ({ s.updateWindow t.req.cltNonce window with
          news := s.news ++ [t.req.key] }.invoke service id t) none
  | inprogress (place : t.pc = .checking) (window : List (ReplyT Answer))
      (result : checkduplicateAndUpdate (s.replyWindow t.req.cltNonce) t.req.xid
        t.req.xidRep = (.inprogress, window)) :
      Dispatched service s id t ((s.updateWindow t.req.cltNonce window).exit id) none
  | done (place : t.pc = .checking) (window : List (ReplyT Answer)) (a : Answer)
      (result : checkduplicateAndUpdate (s.replyWindow t.req.cltNonce) t.req.xid
        t.req.xidRep = (.done (some a), window)) :
      Dispatched service s id t
        ((s.updateWindow t.req.cltNonce window).goto id t (.sending t.conn a)) none
  | forgotten (place : t.pc = .checking) (window : List (ReplyT Answer))
      (result : checkduplicateAndUpdate (s.replyWindow t.req.cltNonce) t.req.xid
        t.req.xidRep = (.forgotten, window)) :
      Dispatched service s id t
        ((s.updateWindow t.req.cltNonce window).goto id t
          (.sending t.conn (refuse t.req RpcConst.atmostonceFailure))) none
  | paused (l : Local) (place : t.pc = .handling (.user l)) (choice : Nat) (state : σ)
      (later : Local) (resumed : service.resume s.service l choice = some (state, .inl later)) :
      Dispatched service s id t
        ({ s with service := state }.goto id t (.handling (.user later))) none
  | returned (l : Local) (place : t.pc = .handling (.user l)) (choice : Nat) (state : σ)
      (ret : Int) (payload : List UInt8)
      (resumed : service.resume s.service l choice = some (state, .inr (ret, payload)))
      (valid : ret ≥ 0 ∨ ret = RpcConst.unmarshalArgsFailure) :
      Dispatched service s id t ({ s with service := state }.finishHandler id t ret payload) none
  | bound (place : t.pc = .handling .rpcbind) :
      Dispatched service s id t
        (s.finishHandler id t (rpcbind s.nonce t.req.payload).1
          (rpcbind s.nonce t.req.payload).2) none
  | recorded (a : Answer) (place : t.pc = .replying a) (positive : 0 < t.req.cltNonce) :
      Dispatched service s id t
        ({ s.updateWindow t.req.cltNonce
            (addReply t.req.xid a (s.replyWindow t.req.cltNonce)) with
          recorded := s.recorded ++ [a] }.goto id t (.choosing a)) none
  | unrecorded (a : Answer) (place : t.pc = .replying a) :
      Dispatched service s id t (s.goto id t (.choosing a)) none
  | chosen (a : Answer) (place : t.pc = .choosing a) (c : Conn ι)
      (choice : c = t.conn ∨ s.conns t.req.cltNonce = some c) :
      Dispatched service s id t (s.goto id t (.sending c a)) none
  | sent (c : Conn ι) (a : Answer) (place : t.pc = .sending c a) :
      Dispatched service s id t (s.exit id)
        (some { dest := c.client, answer := a, nonce := s.nonce })

theorem check_dispatched (service : Service σ Local) (s : Server ι σ Local) (id : Nat)
    (t : Thread ι Local) (place : t.pc = .received) :
    Dispatched service s id t (s.check service id t) none := by
  unfold check
  split
  · next old => exact .refused place old
  · next notOld =>
      have current : t.req.srvNonce = 0 ∨ t.req.srvNonce = s.nonce := by
        by_contra neither
        exact notOld (not_or.mp neither)
      split
      · exact .unregistered place
      · split
        · next nonzero => exact .admitted place current nonzero
        · next zero => exact .untracked place (not_not.mp zero) current

theorem saveConn_dispatched (service : Service σ Local) (s : Server ι σ Local) (id : Nat)
    (t : Thread ι Local) (place : t.pc = .saving) :
    Dispatched service s id t (s.saveConn id t) none := by
  have saved : ∀ n c, Function.update s.conns t.req.cltNonce (some t.conn) n = some c →
      s.conns n = some c ∨ (n = t.req.cltNonce ∧ c = t.conn) := by
    intro n c found
    by_cases here : n = t.req.cltNonce
    · subst here
      rw [Function.update_self] at found
      cases found
      exact Or.inr ⟨rfl, rfl⟩
    · rw [Function.update_of_ne here] at found
      exact Or.inl found
  apply Dispatched.saved place
  intro n c found
  split at found
  · exact saved n c found
  · split at found
    · exact saved n c found
    · exact Or.inl found

theorem classify_dispatched (service : Service σ Local) {s next : Server ι σ Local} {id : Nat}
    {t : Thread ι Local} (place : t.pc = .checking)
    (done : s.classify service id t = some next) : Dispatched service s id t next none := by
  unfold classify at done
  cases result : checkduplicateAndUpdate (s.replyWindow t.req.cltNonce) t.req.xid t.req.xidRep with
  | mk stat window =>
      simp only [result] at done
      cases stat with
      | new =>
          cases done
          exact .new place window result
      | inprogress =>
          cases done
          exact .inprogress place window result
      | done b =>
          cases b with
          | none => contradiction
          | some a =>
              cases done
              exact .done place window a result
      | forgotten =>
          cases done
          exact .forgotten place window result

theorem handle_dispatched (service : Service σ Local) {s next : Server ι σ Local} {id : Nat}
    {t : Thread ι Local} {h : Running Local} (place : t.pc = .handling h) {choice : Nat}
    (done : s.handle service id t h choice = some next) :
    Dispatched service s id t next none := by
  unfold handle at done
  cases h with
  | rpcbind =>
      simp only at done
      split at done
      · cases done
        exact .bound place
      · contradiction
  | user l =>
      cases resumed : service.resume s.service l choice with
      | none =>
          simp only [resumed] at done
          contradiction
      | some result =>
          rcases result with ⟨state, later | ⟨ret, payload⟩⟩
          · simp only [resumed] at done
            cases done
            exact .paused l place choice state later resumed
          · simp only [resumed] at done
            split at done
            · next valid =>
                cases done
                exact .returned l place choice state ret payload resumed valid
            · contradiction

theorem dispatch_cases [DecidableEq ι] {service : Service σ Local} {s next : Server ι σ Local}
    {id choice : Nat} {isdead : Bool} {sent : Option (Message ι)}
    (done : s.dispatch service id choice isdead = some (next, sent)) :
    ∃ t, s.threads id = some t ∧ Dispatched service s id t next sent := by
  unfold dispatch at done
  cases current : s.threads id with
  | none =>
      rw [current] at done
      contradiction
  | some t =>
      rw [current] at done
      refine ⟨t, rfl, ?_⟩
      cases place : t.pc with
      | received =>
          simp only [place] at done
          cases done
          exact check_dispatched service s id t place
      | saving =>
          simp only [place] at done
          cases done
          exact saveConn_dispatched service s id t place
      | checking =>
          simp only [place] at done
          rcases Option.map_eq_some_iff.mp done with ⟨_, stepped, same⟩
          cases same
          exact classify_dispatched service place stepped
      | handling h =>
          simp only [place] at done
          rcases Option.map_eq_some_iff.mp done with ⟨_, stepped, same⟩
          cases same
          exact handle_dispatched service place stepped
      | replying a =>
          simp only [place] at done
          cases done
          unfold record
          split
          · next positive => exact .recorded a place positive
          · exact .unrecorded a place
      | choosing a =>
          simp only [place] at done
          rcases Option.map_eq_some_iff.mp done with ⟨_, stepped, same⟩
          cases same
          unfold chooseConn at stepped
          split at stepped
          · rcases Option.map_eq_some_iff.mp stepped with ⟨c, latest, rfl⟩
            exact .chosen a place c (Or.inr latest)
          · cases stepped
            exact .chosen a place t.conn (Or.inl rfl)
      | sending c a =>
          simp only [place] at done
          cases done
          exact .sent c a place

/-- What a step does to the reply windows. -/
inductive WindowStep (s : Server ι σ Local) (t : Thread ι Local) (next : Server ι σ Local) : Prop
  | same (windows : next.replyWindow = s.replyWindow) (news : next.news = s.news)
      (recorded : next.recorded = s.recorded)
  | checked (place : t.pc = .checking) (stat : RpcState Answer) (window : List (ReplyT Answer))
      (result : checkduplicateAndUpdate (s.replyWindow t.req.cltNonce) t.req.xid
        t.req.xidRep = (stat, window))
      (windows : next.replyWindow = Function.update s.replyWindow t.req.cltNonce window)
      (kept : s.news ⊆ next.news)
      (grown : ∀ key ∈ next.news, key ∈ s.news ∨ (key = t.req.key ∧ stat = .new))
      (new : stat = .new → t.req.key ∈ next.news)
      (recorded : next.recorded = s.recorded)
  | recorded (place : t.pc = .replying a)
      (windows : next.replyWindow = Function.update s.replyWindow t.req.cltNonce
        (addReply t.req.xid a (s.replyWindow t.req.cltNonce)))
      (news : next.news = s.news) (recorded : next.recorded = s.recorded ++ [a])

theorem Dispatched.windowStep {service : Service σ Local} {s next : Server ι σ Local} {id : Nat}
    {t : Thread ι Local} {sent : Option (Message ι)}
    (step : Dispatched service s id t next sent) : WindowStep s t next := by
  cases step with
  | new place window result =>
      refine .checked place .new window result rfl ?_ ?_ ?_ rfl
      · exact List.subset_append_left _ _
      · intro key member
        rcases List.mem_append.mp member with old | new
        · exact Or.inl old
        · exact Or.inr ⟨List.mem_singleton.mp new, rfl⟩
      · exact fun _ => List.mem_append_right _ (List.mem_singleton_self _)
  | inprogress place window result | done place window _ result | forgotten place window result =>
      exact .checked place _ window result rfl (List.Subset.refl _) (fun _ => Or.inl) nofun rfl
  | recorded a place => exact .recorded place rfl rfl rfl
  | _ => exact .same rfl rfl rfl

end Server

end YfsRpc.Rpc
