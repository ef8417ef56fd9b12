import YfsRpc.Foundation.Progress
import YfsRpc.Rpc.Retention
import YfsRpc.Rpc.Settled
import Mathlib.Logic.Relation

/-! # Calls that can still be answered

A request is lost, its reply is lost, a duplicate finds it in progress: whatever happened to
a call that waits, the client sends it again, and a run of the threads that are there and of
one for the new copy ends with a reply to it. This needs that an entry without a reply is
attended: a thread executes its request.
-/

namespace YfsRpc.Rpc

variable {ι σ Local : Type}

namespace Server

/-! ## Entries without a reply -/

/-- A thread executes the request with this key. -/
def Attends (s : Server ι σ Local) (n x : Nat) : Prop :=
  ∃ id t, s.threads id = some t ∧ Executes t.pc ∧ t.req.key = (n, x)

def Attended (s : Server ι σ Local) : Prop :=
  ∀ n x, Pending (s.replyWindow n) x → s.Attends n x

variable {s next : Server ι σ Local} {id : Nat} {t : Thread ι Local} {n x : Nat}

theorem Attends.goto (attends : s.Attends n x) (current : s.threads id = some t)
    {pc : Pc ι Local} (executes : Executes t.pc → Executes pc) :
    (s.goto id t pc).Attends n x := by
  rcases attends with ⟨id', t', there, execution, key⟩
  by_cases here : id' = id
  · subst here
    cases current.symm.trans there
    exact ⟨id', { t with pc }, Function.update_self .., executes execution, key⟩
  · exact ⟨id', t', (Function.update_of_ne here ..).trans there, execution, key⟩

/-- A thread that does not execute the request steps or ends. -/
theorem Attends.others (attends : s.Attends n x) (current : s.threads id = some t)
    (away : Executes t.pc → t.req.key ≠ (n, x)) (now : Option (Thread ι Local)) :
    ∃ id' t', Function.update s.threads id now id' = some t' ∧ Executes t'.pc ∧
      t'.req.key = (n, x) := by
  rcases attends with ⟨id', t', there, execution, key⟩
  by_cases here : id' = id
  · subst here
    cases current.symm.trans there
    exact absurd key (away execution)
  · exact ⟨id', t', (Function.update_of_ne here ..).trans there, execution, key⟩

theorem Attended.goto (attended : s.Attended) (current : s.threads id = some t)
    {pc : Pc ι Local} (executes : Executes t.pc → Executes pc) :
    (s.goto id t pc).Attended :=
  fun n x pending => (attended n x pending).goto current executes

theorem Attended.exit (attended : s.Attended) (current : s.threads id = some t)
    (away : ¬ Executes t.pc) : (s.exit id).Attended :=
  fun n x pending => (attended n x pending).others current (fun executes => absurd executes away)
    none

/-- The duplicate check leaves no entry without a reply behind but that of a new request,
whose thread goes on to the handler. -/
theorem Attended.checked (attended : s.Attended) (current : s.threads id = some t)
    (ascending : ∀ n, StrictlyAscending ReplyT.xid (s.replyWindow n)) (place : t.pc = .checking)
    {stat : RpcState Answer} {window : List (ReplyT Answer)}
    (result : checkduplicateAndUpdate (s.replyWindow t.req.cltNonce) t.req.xid t.req.xidRep =
      (stat, window)) (now : Option (Pc ι Local))
    (new : stat = .new → ∃ pc, now = some pc ∧ Executes pc)
    (pending : Pending (Function.update s.replyWindow t.req.cltNonce window n) x) :
    ∃ id' t', Function.update s.threads id (now.map fun pc => { t with pc }) id' = some t' ∧
      Executes t'.pc ∧ t'.req.key = (n, x) := by
  rcases pending with ⟨e, member, rfl, absent⟩
  have checked := checkduplicateAndUpdate_classified t.req.xid t.req.xidRep
    (ascending t.req.cltNonce)
  rw [result] at checked
  rcases mem_checked checked member with old | ⟨rfl, rfl, isNew⟩
  · apply (attended n e.xid ⟨e, old, rfl, absent⟩).others current
    intro executes
    rw [place] at executes
    exact executes.elim
  · rcases new isNew with ⟨pc, rfl, executes⟩
    exact ⟨id, { t with pc }, Function.update_self .., executes, rfl⟩

theorem Attended.record (attended : s.Attended) (current : s.threads id = some t) {a : Answer}
    (ascending : ∀ n, StrictlyAscending ReplyT.xid (s.replyWindow n))
    {recorded : List Answer} {pc : Pc ι Local} :
    ({ s.updateWindow t.req.cltNonce
        (addReply t.req.xid a (s.replyWindow t.req.cltNonce)) with
      recorded }.goto id t pc).Attended := by
  intro n x pending
  rcases pending with ⟨e, member, rfl, absent⟩
  rcases mem_recorded ascending member with ⟨old, other⟩ | ⟨_, rfl, _⟩
  · apply (attended n e.xid ⟨e, old, rfl, absent⟩).others current
    exact fun _ same => other same.symm
  · contradiction

theorem Attended.gotPdu (attended : s.Attended) {conn : Conn ι} {req : Request}
    (done : s.gotPdu id conn req = some next) : next.Attended := by
  rcases gotPdu_eq done with ⟨free, rfl⟩
  intro n x pending
  rcases attended n x pending with ⟨id', t', there, execution, key⟩
  have away : id' ≠ id := by
    intro here
    subst here
    have found := free.symm.trans there
    contradiction
  exact ⟨id', t', (Function.update_of_ne away ..).trans there, execution, key⟩

variable [DecidableEq ι] {service : Service σ Local} {choice : Nat} {isdead : Bool}
  {sent : Option (Message ι)}

/-- A reply to a client with a nonce is recorded. -/
theorem replying_eq (current : s.threads id = some t) {a : Answer} (place : t.pc = .replying a)
    (positive : 0 < t.req.cltNonce)
    (done : s.dispatch service id choice isdead = some (next, sent)) :
    next = { s.updateWindow t.req.cltNonce
        (addReply t.req.xid a (s.replyWindow t.req.cltNonce)) with
      recorded := s.recorded ++ [a] }.goto id t (.choosing a) := by
  simp only [dispatch, current, place, record, if_pos positive] at done
  cases done
  rfl

theorem Attended.dispatched (attended : s.Attended) (current : s.threads id = some t)
    (ascending : ∀ n, StrictlyAscending ReplyT.xid (s.replyWindow n))
    (positive : 0 < t.req.cltNonce)
    (done : s.dispatch service id choice isdead = some (next, sent)) : next.Attended := by
  rcases dispatch_cases done with ⟨t', same, step⟩
  cases current.symm.trans same
  -- a thread that does not execute has no part in this
  have idle {pc now : Pc ι Local} (place : t.pc = pc) (idle : ¬ Executes pc)
      (executes : Executes t.pc) : Executes now := by
    rw [place] at executes
    exact absurd executes idle
  cases step with
  | refused place | admitted place | untracked place | saved place | chosen a place =>
      exact attended.goto current (idle place not_false)
  | unregistered place | sent c a place =>
      apply attended.exit current
      rw [place]
      exact not_false
  | new place window result =>
      intro n x pending
      exact attended.checked current ascending place result (some (.handling _))
        (fun _ => ⟨_, rfl, trivial⟩) pending
  | inprogress place window result =>
      intro n x pending
      exact attended.checked current ascending place result none (by simp) pending
  | done place window a result =>
      intro n x pending
      exact attended.checked current ascending place result (some (.sending t.conn a)) (by simp)
        pending
  | forgotten place window result =>
      intro n x pending
      exact attended.checked current ascending place result (some (.sending t.conn _)) (by simp)
        pending
  | paused | returned | bound => exact attended.goto current fun _ => trivial
  | recorded a place | unrecorded a place =>
      rw [replying_eq current place positive done]
      exact attended.record current ascending

end Server

/-! ## From a request to its reply -/

/-- From this state on, the handler can be run to its result. -/
inductive Service.Ends (service : Service σ Local) : σ → Local → Prop
  | returned {state : σ} {l : Local} (choice : Nat) (after : σ) (ret : Int)
      (payload : List UInt8)
      (resumed : service.resume state l choice = some (after, .inr (ret, payload)))
      (valid : ret ≥ 0 ∨ ret = RpcConst.unmarshalArgsFailure) : Ends service state l
  | paused {state : σ} {l : Local} (choice : Nat) (after : σ) (later : Local)
      (resumed : service.resume state l choice = some (after, .inl later))
      (ends : Ends service after later) : Ends service state l

/-- No handler waits for another call. -/
def Service.Finishes (service : Service σ Local) : Prop :=
  ∀ state l, service.Ends state l

namespace Server

variable [DecidableEq ι] {service : Service σ Local} {s next : Server ι σ Local} {id : Nat}
  {t : Thread ι Local}

/-- A step of one thread that sends nothing. -/
def Moves (service : Service σ Local) (id : Nat) (s next : Server ι σ Local) : Prop :=
  ∃ choice, s.dispatch service id choice false = some (next, none)

/-- The thread gets to `send` with a reply to its request. -/
def Answers (service : Service σ Local) (id : Nat) (t : Thread ι Local) (s : Server ι σ Local) :
    Prop :=
  ∃ final a, Relation.ReflTransGen (Moves service id) s final ∧
    final.threads id = some { t with pc := .sending t.conn a } ∧ a.reply.xid = t.req.xid

theorem Answers.head {pc : Pc ι Local} (moves : Moves service id s next)
    (answers : Answers service id { t with pc } next) : Answers service id t s := by
  rcases answers with ⟨final, a, path, there, same⟩
  exact ⟨final, a, path.head moves, there, same⟩

theorem answers_sending (current : s.threads id = some t) {a : Answer}
    (place : t.pc = .sending t.conn a) (same : a.reply.xid = t.req.xid) :
    Answers service id t s := by
  refine ⟨s, a, .refl, ?_, same⟩
  rw [current, ← place]

theorem answers_choosing (current : s.threads id = some t) {a : Answer}
    (place : t.pc = .choosing a) (same : a.reply.xid = t.req.xid) :
    Answers service id t s := by
  have moves : Moves service id s (s.goto id t (.sending t.conn a)) :=
    ⟨0, by simp [dispatch, current, place, chooseConn]⟩
  exact .head moves (answers_sending (Function.update_self ..) rfl same)

theorem answers_replying (current : s.threads id = some t) {a : Answer}
    (place : t.pc = .replying a) (same : a.reply.xid = t.req.xid) :
    Answers service id t s := by
  have moves : Moves service id s (s.record id t a) :=
    ⟨0, by simp [dispatch, current, place]⟩
  have there : (s.record id t a).threads id = some { t with pc := .choosing a } := by
    unfold record
    split <;> exact Function.update_self ..
  exact .head moves (answers_choosing there rfl same)

/-- A handler that returns is followed by its reply. -/
theorem answers_returned (current : s.threads id = some t) {h : Running Local}
    (place : t.pc = .handling h) (choice : Nat) {state : σ} {ret : Int} {payload : List UInt8}
    (done : s.handle service id t h choice =
      some ({ s with service := state }.finishHandler id t ret payload)) :
    Answers service id t s := by
  have moves : Moves service id s ({ s with service := state }.finishHandler id t ret payload) :=
    ⟨choice, by simp [dispatch, current, place, done]⟩
  exact .head moves (answers_replying (Function.update_self ..) rfl rfl)

theorem answers_user {state : σ} {l : Local} (ends : service.Ends state l) :
    ∀ {s : Server ι σ Local} {t : Thread ι Local}, s.service = state →
      s.threads id = some t → t.pc = .handling (.user l) → Answers service id t s := by
  induction ends with
  | returned choice after ret payload resumed valid =>
      intro s t same current place
      subst same
      apply answers_returned current place choice
      simp only [handle, resumed]
      exact if_pos valid
  | paused choice after later resumed ends induction =>
      intro s t same current place
      subst same
      have moves : Moves service id s
          ({ s with service := after }.goto id t (.handling (.user later))) :=
        ⟨choice, by simp [dispatch, current, place, handle, resumed]⟩
      exact .head moves (induction rfl (Function.update_self ..) rfl)

theorem answers_handling (current : s.threads id = some t) {h : Running Local}
    (place : t.pc = .handling h) (ends : ∀ l, h = .user l → service.Ends s.service l) :
    Answers service id t s := by
  cases h with
  | user l => exact answers_user (ends l rfl) rfl current place
  | rpcbind =>
      have valid : (rpcbind s.nonce t.req.payload).1 ≥ 0 ∨
          (rpcbind s.nonce t.req.payload).1 = RpcConst.unmarshalArgsFailure := by
        unfold rpcbind
        split
        · exact Or.inr rfl
        · exact Or.inl (Int.le_refl 0)
      apply answers_returned current place 0
      simp only [handle]
      exact if_pos valid

/-- A thread that executes a request comes to its reply. -/
theorem answers_executing (current : s.threads id = some t) (executes : Executes t.pc)
    (ends : ∀ l, t.pc = .handling (.user l) → service.Ends s.service l)
    (held : ∀ a, t.pc = .replying a → a.reply.xid = t.req.xid) : Answers service id t s := by
  cases place : t.pc with
  | handling h =>
      apply answers_handling current place
      rintro l rfl
      exact ends l place
  | replying a => exact answers_replying current place (held a place)
  | received | saving | checking | choosing | sending =>
      rw [place] at executes
      exact executes.elim

/-- What the duplicate check may answer, if the request is not in progress. -/
inductive Answerable (xid : Nat) : RpcState Answer → Prop
  | new : Answerable xid .new
  | done (a : Answer) (same : a.reply.xid = xid) : Answerable xid (.done (some a))
  | forgotten : Answerable xid .forgotten

/-- The handler of a request ends, if the duplicate check calls it. -/
def EndsIfNew (service : Service σ Local) (s : Server ι σ Local) (r : Request) : Prop :=
  (checkduplicateAndUpdate (s.replyWindow r.cltNonce) r.xid r.xidRep).1 = .new →
    r.proc ≠ RpcConst.bind → service.Ends s.service (service.invoke r.proc r.payload)

theorem answers_checking (current : s.threads id = some t) (place : t.pc = .checking)
    (ends : s.EndsIfNew service t.req)
    (answerable : Answerable t.req.xid
      (checkduplicateAndUpdate (s.replyWindow t.req.cltNonce) t.req.xid t.req.xidRep).1) :
    Answers service id t s := by
  unfold EndsIfNew at ends
  cases result : checkduplicateAndUpdate (s.replyWindow t.req.cltNonce) t.req.xid
    t.req.xidRep with
  | mk stat window =>
      have moves {after : Server ι σ Local} (done : s.classify service id t = some after) :
          Moves service id s after :=
        ⟨0, by simp [dispatch, current, place, done]⟩
      rw [result] at answerable ends
      cases answerable with
      | new =>
          have done : s.classify service id t = some
              ({ s.updateWindow t.req.cltNonce window with
                news := s.news ++ [t.req.key] }.invoke service id t) := by
            simp only [classify, result, updateWindow]
          apply Answers.head (moves done)
          apply answers_handling (Function.update_self ..) rfl
          intro l user
          split at user
          · contradiction
          · next other =>
              cases user
              exact ends rfl other
      | done a same =>
          have done : s.classify service id t = some
              ((s.updateWindow t.req.cltNonce window).goto id t (.sending t.conn a)) := by
            simp only [classify, result]
          apply Answers.head (moves done)
          exact answers_sending (Function.update_self ..) rfl same
      | forgotten =>
          have done : s.classify service id t = some
              ((s.updateWindow t.req.cltNonce window).goto id t
                (.sending t.conn (refuse t.req RpcConst.atmostonceFailure))) := by
            simp only [classify, result]
          apply Answers.head (moves done)
          exact answers_sending (Function.update_self ..) rfl rfl

/-- A request for a procedure that there is comes to its reply, if it is not in progress. -/
theorem answers_received (current : s.threads id = some t) (place : t.pc = .received)
    (nonzero : t.req.cltNonce ≠ 0)
    (known : t.req.proc = RpcConst.bind ∨ service.registered t.req.proc = true)
    (ends : s.EndsIfNew service t.req)
    (answerable : Answerable t.req.xid
      (checkduplicateAndUpdate (s.replyWindow t.req.cltNonce) t.req.xid t.req.xidRep).1) :
    Answers service id t s := by
  have checks : Moves service id s (s.check service id t) :=
    ⟨0, by simp [dispatch, current, place]⟩
  have there : ¬ (t.req.proc ≠ RpcConst.bind ∧ ¬ service.registered t.req.proc = true) := by
    intro unknown
    exact known.elim unknown.1 unknown.2
  by_cases old : t.req.srvNonce ≠ 0 ∧ t.req.srvNonce ≠ s.nonce
  · have refused : s.check service id t =
        s.goto id t (.sending t.conn (refuse t.req RpcConst.oldsrvFailure)) := by
      simp only [check, if_pos old]
    rw [refused] at checks
    exact .head checks (answers_sending (Function.update_self ..) rfl rfl)
  · have admitted : s.check service id t = s.goto id t .saving := by
      simp only [check, if_neg old, if_neg there, if_pos nonzero]
    rw [admitted] at checks
    have saves : Moves service id (s.goto id t .saving)
        ((s.goto id t .saving).saveConn id { t with pc := .saving }) :=
      ⟨0, by simp [dispatch, goto]⟩
    apply Answers.head checks
    apply Answers.head saves
    exact answers_checking (Function.update_self ..) rfl ends answerable

end Server

/-! ## A call and its reply -/

theorem Dispatched.threads_others {service : Service σ Local} {s next : Server ι σ Local}
    {id other : Nat} {t : Thread ι Local} {sent : Option (Message ι)} (differs : other ≠ id)
    (step : Server.Dispatched service s id t next sent) :
    next.threads other = s.threads other := by
  cases step with
  | _ => exact Function.update_of_ne differs _ _

namespace System

/-- What the network and the threads of the server do, and a reply that arrives. -/
def Network : Action ι → Prop
  | .transmit .. | .gotReply .. | .gotRequest .. | .dispatch .. => True
  | .call .. | .finish .. | .bind .. | .cancel _ => False

/-- Entries without a reply are attended, and a thread can start. -/
structure Ready (s : System ι σ Local) : Prop where
  attended : s.server.Attended
  bounded : ∃ bound, ∀ id, bound ≤ id → s.server.threads id = none

variable {nonce : ι → Nat} {service : Service σ Local} {srvNonce : Nat}
  {s next : System ι σ Local} {c : ι} {number : Nat}

/-- Without a thread that executes the request, the duplicate check answers it. -/
theorem answerable_of_unattended (inv : Inv nonce s) (ready : Ready s)
    (retained : Retained nonce s) {r : Request}
    (nobody : ¬ s.server.Attends r.cltNonce r.xid) :
    Server.Answerable r.xid
      (checkduplicateAndUpdate (s.server.replyWindow r.cltNonce) r.xid r.xidRep).1 := by
  have checked := checkduplicateAndUpdate_classified r.xid r.xidRep
    (inv.server.windows.ascending r.cltNonce)
  generalize (checkduplicateAndUpdate (s.server.replyWindow r.cltNonce) r.xid r.xidRep).1 =
    state at checked ⊢
  generalize (checkduplicateAndUpdate (s.server.replyWindow r.cltNonce) r.xid r.xidRep).2 =
    window at checked
  cases checked with
  | new => exact .new
  | forgotten => exact .forgotten
  | known e member same =>
      have present := (mem_trim.mp member).1
      cases recorded : e.cbPresent with
      | false =>
          have pending : Server.Pending (s.server.replyWindow r.cltNonce) r.xid :=
            ⟨e, present, same, recorded⟩
          exact absurd (ready.attended _ _ pending) nobody
      | true =>
          rcases retained.replies.present _ e present recorded with ⟨a, member, key⟩
          rcases Prod.mk.inj key with ⟨cltNonce, xid⟩
          rw [← cltNonce] at present
          have held := retained.replies.held a member e present xid.symm
          rw [ReplyT.answer, recorded, if_pos rfl, held.2]
          apply Server.Answerable.done
          exact (retained.replies.recorded a member).2.xid.trans (xid.trans same)

variable [DecidableEq ι]

theorem initial_ready (nonce : ι → Nat) (service : Service σ Local) (srvNonce : Nat) :
    Ready (machine nonce service srvNonce).initial where
  attended n x pending := by
    rcases pending with ⟨e, member, _⟩
    exact absurd member List.not_mem_nil
  bounded := ⟨0, fun _ _ => rfl⟩

theorem Ready.step (ready : Ready s) (inv : Inv nonce s) (nonzero : ∀ c, nonce c ≠ 0)
    {action : Action ι} (taken : step nonce service s action = some next) : Ready next := by
  cases step_cases taken with
  | call | transmit | gotReply | finish | bind | cancel =>
      exact ⟨ready.attended, ready.bounded⟩
  | gotRequest id conn req server sent done =>
      refine ⟨ready.attended.gotPdu done, ?_⟩
      rcases ready.bounded with ⟨bound, free⟩
      rcases Server.gotPdu_eq done with ⟨_, rfl⟩
      refine ⟨max bound (id + 1), fun other above => ?_⟩
      have differs : other ≠ id := by omega
      exact (Function.update_of_ne differs ..).trans (free other (by omega))
  | dispatch id choice isdead server sent t current stepped =>
      rcases Option.map_eq_some_iff.mp taken with ⟨⟨server', sent'⟩, done, same⟩
      have positive : 0 < t.req.cltNonce := by
        rw [inv.issued.cltNonce _ _ (inv.server.threads.known id t current)]
        exact Nat.pos_of_ne_zero (nonzero _)
      have server_eq : server' = server := congrArg System.server same
      constructor
      · have attended := ready.attended.dispatched current inv.server.windows.ascending positive
          done
        rw [server_eq] at attended
        exact attended
      · rcases ready.bounded with ⟨bound, free⟩
        refine ⟨max bound (id + 1), fun other above => ?_⟩
        have differs : other ≠ id := by omega
        exact (Dispatched.threads_others differs stepped).trans (free other (by omega))

/-- Some run of the network and the threads ends with a result for the call. -/
def CanBeAnswered (nonce : ι → Nat) (service : Service σ Local) (srvNonce : Nat)
    (s : System ι σ Local) (c : ι) (number : Nat) (ca : Caller) : Prop :=
  ∃ final after, (machine nonce service srvNonce).Leads Network s final ∧
    (final.clients c).callers number = some after ∧ after.done = true ∧ after.req = ca.req

theorem leads_moves {id : Nat} {server : Server ι σ Local}
    (path : Relation.ReflTransGen (Server.Moves service id) s.server server) :
    (machine nonce service srvNonce).Leads Network s { s with server } := by
  induction path with
  | refl => exact .refl
  | tail _ moves induction =>
      rcases moves with ⟨choice, done⟩
      apply induction.trans
      apply Machine.Leads.head (.dispatch id choice false) trivial _ .refl
      simp [machine, step, done]

/-- The thread sends its reply, and the client gets it. -/
theorem leads_answered (inv : Inv nonce s) {ca : Caller}
    (current : (s.clients c).callers number = some ca) (pending : ca.done = false) {id : Nat}
    {t : Thread ι Local} (answers : Server.Answers service id t s.server)
    (client : t.conn.client = c) (xid : t.req.xid = number) :
    CanBeAnswered nonce service srvNonce s c number ca := by
  rcases answers with ⟨server, a, path, there, same⟩
  let m : Message ι := { dest := c, answer := a, nonce := server.nonce }
  let sent : System ι σ Local :=
    { s with server := server.exit id, replies := s.replies ++ [m] }
  have sends : step nonce service { s with server } (.dispatch id 0 false) = some sent := by
    subst client
    simp [step, Server.dispatch, there, sent, m]
  have arrives : step nonce service sent (.gotReply c m) =
      some (sent.setClient c ((s.clients c).gotPdu a.reply)) := by
    simp [step, sent, m]
  refine ⟨sent.setClient c ((s.clients c).gotPdu a.reply),
    { ca with un := a.reply.payload, intret := a.reply.ret, done := true }, ?_, ?_, rfl, rfl⟩
  · apply (leads_moves path).trans
    apply Machine.Leads.head (.dispatch id 0 false) trivial sends
    exact Machine.Leads.head (.gotReply c m) trivial arrives .refl
  · rw [setClient_self]
    have here : a.reply.xid = number := same.trans xid
    rcases Client.gotPdu_cases (inv.clients c) a.reply with ⟨settled, _⟩ | ⟨ca', found, _, got⟩
    · rw [here] at settled
      exact absurd ⟨ca, current, pending⟩ settled
    · rw [here] at found
      cases current.symm.trans found
      rw [got, here]
      exact Function.update_self ..

theorem CanBeAnswered.head {ca : Caller} (action : Action ι) (allowed : Network action)
    (taken : step nonce service s action = some next)
    (answered : CanBeAnswered nonce service srvNonce next c number ca) :
    CanBeAnswered nonce service srvNonce s c number ca := by
  rcases answered with ⟨final, after, leads, rest⟩
  exact ⟨final, after, .head action allowed taken leads, rest⟩

theorem reachable_ready (distinct : Function.Injective nonce) (nonzero : ∀ c, nonce c ≠ 0)
    (reachable : (machine nonce service srvNonce).ReachableUnder FewCalls s) : Ready s := by
  apply reachable.invariant Ready (initial_ready nonce service srvNonce)
  intro state action next before ready _ taken
  exact ready.step (reachable_inv distinct nonzero before) nonzero taken

/-- A call whose handler can end is answered: by a thread that executes its request, or when
the client sends it again. -/
theorem answered_of_ends (distinct : Function.Injective nonce) (nonzero : ∀ c, nonce c ≠ 0)
    (reachable : (machine nonce service srvNonce).ReachableUnder FewCalls s) {ca : Caller}
    (current : (s.clients c).callers number = some ca) (pending : ca.done = false)
    (known : ca.req.proc = RpcConst.bind ∨ service.registered ca.req.proc = true)
    (handling : ∀ id t l, s.server.threads id = some t → t.pc = .handling (.user l) →
      t.req.key = ca.req.key → service.Ends s.server.service l)
    (fresh : ca.req.key ∉ s.server.news → ca.req.proc ≠ RpcConst.bind →
      service.Ends s.server.service (service.invoke ca.req.proc ca.req.payload)) :
    CanBeAnswered nonce service srvNonce s c number ca := by
  have inv := reachable_inv distinct nonzero reachable
  have retained := reachable_retained distinct nonzero reachable
  have ready := reachable_ready distinct nonzero reachable
  have placed := (inv.clients c).callers number ca current
  have own : ca.req.cltNonce = nonce c := inv.issued.cltNonce c ca.req placed.req
  by_cases attends : s.server.Attends ca.req.cltNonce ca.req.xid
  · rcases attends with ⟨id, t, there, executes, key⟩
    rcases Prod.mk.inj key with ⟨cltNonce, xid⟩
    have mine := inv.server.threads.known id t there
    have client : t.conn.client = c := by
      apply distinct
      rw [← inv.issued.cltNonce _ _ mine, cltNonce, own]
    have held (a : Answer) (place : t.pc = .replying a) : a.reply.xid = t.req.xid := by
      have has := inv.server.threads.pcs id t there
      rw [place] at has
      rw [has.2.2.xid, has.1]
    have ends (l : Local) (place : t.pc = .handling (.user l)) : service.Ends s.server.service l :=
      handling id t l there place key
    exact leads_answered inv current pending
      (Server.answers_executing there executes ends held) client (xid.trans placed.reqXid)
  · -- the client sends the request again, and another thread takes it
    rcases ready.bounded with ⟨id, free⟩
    let conn : Conn ι := { client := c, serial := 0, createTime := 0 }
    let t : Thread ι Local := { conn, req := ca.req, pc := .received }
    let server := { s.server with threads := Function.update s.server.threads id (some t) }
    let sent : System ι σ Local := { s with requests := s.requests ++ [(conn, ca.req)] }
    have transmits : step nonce service s (.transmit c number 0 0) = some sent := by
      simp [step, current, sent, conn]
    have arrives : step nonce service sent (.gotRequest id conn ca.req) =
        some { sent with server } := by
      simp [step, sent, server, Server.gotPdu, free id (Nat.le_refl id), t]
    have there : server.threads id = some t := Function.update_self ..
    have later : Inv nonce { sent with server } := by
      have few : FewCalls s (.transmit c number 0 0) := trivial
      have few' : FewCalls sent (.gotRequest id conn ca.req) := trivial
      exact (inv.step distinct nonzero few transmits).step distinct nonzero few' arrives
    have ends : server.EndsIfNew service ca.req := by
      intro isNew other
      apply fresh _ other
      have checked := checkduplicateAndUpdate_classified ca.req.xid ca.req.xidRep
        (inv.server.windows.ascending ca.req.cltNonce)
      rw [show (checkduplicateAndUpdate (s.server.replyWindow ca.req.cltNonce) ca.req.xid
        ca.req.xidRep).1 = .new from isNew] at checked
      exact inv.server.windows.fresh_of_new (inv.issued.xidRep c ca.req placed.req) checked
    have answers : Server.Answers service id t server := by
      apply Server.answers_received there rfl _ known ends
      · exact answerable_of_unattended inv ready retained attends
      · change ca.req.cltNonce ≠ 0
        rw [own]
        exact nonzero c
    apply CanBeAnswered.head (.transmit c number 0 0) trivial transmits
    apply CanBeAnswered.head (.gotRequest id conn ca.req) trivial arrives
    exact leads_answered later current pending answers rfl placed.reqXid

theorem echo_finishes : echo.Finishes :=
  fun _ payload => .returned 0 () 0 payload rfl (Or.inl (Int.le_refl 0))

end System

end YfsRpc.Rpc
