import YfsRpc.Foundation.Machine
import YfsRpc.Rpc.AtMostOnce

/-! # The connection of a reply

A client that has lost its connection sends the request again on a new one, and the server
does not answer a duplicate of a call it is executing. The reply has to find the new
connection, but `dispatch` looks for it only if it has noticed that the old one is dead.
-/

namespace YfsRpc.Rpc

variable {ι σ Local : Type}

/-- The connection chosen for the reply of an executed call, and the connections of its
duplicates so far that were classified `INPROGRESS`. -/
structure Choice (ι : Type) where
  conn : Conn ι
  duplicates : List (Conn ι)

/-- A server whose requests come from anywhere. -/
structure Routed (ι σ Local : Type) where
  server : Server ι σ Local
  /-- history: the duplicates that were classified `INPROGRESS` -/
  duplicates : List ((Nat × Nat) × Conn ι) := []
  /-- history: the connections chosen for replies -/
  choices : List (Choice ι) := []

def Pc.isChoosing : Pc ι Local → Bool
  | .choosing _ => true
  | _ => false

namespace Routed

inductive Action (ι : Type)
  | gotPdu (id : Nat) (conn : Conn ι) (req : Request)
  | dispatch (id choice : Nat) (isdead : Bool)

def seen (s : Routed ι σ Local) (key : Nat × Nat) : List (Conn ι) :=
  (s.duplicates.filter fun d => d.1 = key).map Prod.snd

/-- The request of the thread, if `checkduplicate_and_update` is about to find that it is
being executed. -/
def inprogress (s : Routed ι σ Local) (t : Thread ι Local) : List ((Nat × Nat) × Conn ι) :=
  match t.pc, (checkduplicateAndUpdate (s.server.replyWindow t.req.cltNonce) t.req.xid
    t.req.xidRep).1 with
  | .checking, .inprogress => [(t.req.key, t.conn)]
  | _, _ => []

/-- The choice a thread has made when it is about to send. -/
def chosen (s : Routed ι σ Local) (t : Thread ι Local) (after : Option (Thread ι Local)) :
    List (Choice ι) :=
  match t.pc, after.map Thread.pc with
  | .choosing _, some (.sending c _) => [{ conn := c, duplicates := s.seen t.req.key }]
  | _, _ => []

def step [DecidableEq ι] (service : Service σ Local) (s : Routed ι σ Local) :
    Action ι → Option (Routed ι σ Local)
  | .gotPdu id conn req =>
      (s.server.gotPdu id conn req).map fun server => { s with server }
  | .dispatch id choice isdead =>
      (s.server.threads id).bind fun t =>
        (s.server.dispatch service id choice isdead).map fun result =>
          { server := result.1
            duplicates := s.duplicates ++ s.inprogress t
            choices := s.choices ++ s.chosen t (result.1.threads id) }

def machine [DecidableEq ι] (service : Service σ Local) (nonce : Nat) :
    Machine (Routed ι σ Local) (Action ι) where
  initial := { server := { nonce, service := service.initial } }
  step := step service

/-- Every reply was sent on the connection of each duplicate before, or on a newer one. -/
def AsNew (s : Routed ι σ Local) : Prop :=
  ∀ r ∈ s.choices, ∀ c ∈ r.duplicates, r.conn = c ∨ c.createTime < r.conn.createTime

/-- A thread that chooses a connection has noticed that its own is dead, and the latest one
is as old as the connection of a duplicate only if it is that one; or no duplicate came on
another connection that is not older than its own. -/
def Noticed (s : Routed ι σ Local) : Action ι → Prop
  | .dispatch id _ isdead => ∀ t ∈ s.server.threads id, t.pc.isChoosing = true →
      ∀ c ∈ s.seen t.req.key,
        (isdead = true ∧ ∀ latest ∈ s.server.conns t.req.cltNonce,
          latest.createTime = c.createTime → latest = c) ∨
        (isdead = false ∧ (t.conn = c ∨ c.createTime < t.conn.createTime))
  | .gotPdu .. => True

instance [DecidableEq ι] (s : Routed ι σ Local) (action : Action ι) :
    Decidable (Noticed s action) :=
  match action with
  | .dispatch id _ isdead => inferInstanceAs (Decidable (∀ t ∈ s.server.threads id,
      t.pc.isChoosing = true → ∀ c ∈ s.seen t.req.key,
        (isdead = true ∧ ∀ latest ∈ s.server.conns t.req.cltNonce,
          latest.createTime = c.createTime → latest = c) ∨
        (isdead = false ∧ (t.conn = c ∨ c.createTime < t.conn.createTime))))
  | .gotPdu .. => .isTrue trivial

/-! ## The latest connection -/

/-- The server has saved a connection to the client that is not older. -/
def Saved (server : Server ι σ Local) (n : Nat) (c : Conn ι) : Prop :=
  ∃ latest, server.conns n = some latest ∧ c.createTime ≤ latest.createTime

structure Inv (s : Routed ι σ Local) : Prop where
  checking : ∀ id t, s.server.threads id = some t → t.pc = .checking →
    Saved s.server t.req.cltNonce t.conn
  duplicates : ∀ d ∈ s.duplicates, Saved s.server d.1.1 d.2

/-- Nothing but the update of `conns_` changes it. -/
theorem conns_dispatched {service : Service σ Local} {server next : Server ι σ Local} {id : Nat}
    {t : Thread ι Local} {sent : Option (Message ι)}
    (dispatched : server.Dispatched service id t next sent) (elsewhere : t.pc ≠ .saving) :
    next.conns = server.conns := by
  cases dispatched with
  | saved place => exact absurd place elsewhere
  | _ => rfl

/-- A thread comes to the check from the update of `conns_`. -/
theorem checking_dispatched {service : Service σ Local} {server next : Server ι σ Local}
    {id other : Nat} {t u : Thread ι Local} {sent : Option (Message ι)}
    (dispatched : server.Dispatched service id t next sent)
    (held : next.threads other = some u) (place : u.pc = .checking) :
    server.threads other = some u ∨ (t.pc = .saving ∧ u.req = t.req ∧ u.conn = t.conn) := by
  by_cases here : other = id
  · subst here
    cases dispatched with
    | saved saving =>
        simp only [Server.goto, Function.update_self, Option.some.injEq] at held
        subst held
        exact Or.inr ⟨saving, rfl, rfl⟩
    | unregistered | inprogress | sent =>
        simp only [Server.exit, Function.update_self] at held
        contradiction
    | untracked | new =>
        simp only [Server.invoke, Server.goto, Function.update_self, Option.some.injEq] at held
        subst held
        contradiction
    | returned | bound =>
        simp only [Server.finishHandler, Server.goto, Function.update_self,
          Option.some.injEq] at held
        subst held
        contradiction
    | refused | admitted | done | forgotten | paused | recorded | unrecorded | chosen =>
        simp only [Server.goto, Function.update_self, Option.some.injEq] at held
        subst held
        contradiction
  · left
    cases dispatched with
    | refused | unregistered | admitted | untracked | saved | new | inprogress | done | forgotten |
      paused | returned | bound | recorded | unrecorded | chosen | sent =>
        exact (Function.update_of_ne here ..).symm.trans held

theorem saved_saveConn (server : Server ι σ Local) (id : Nat) (t : Thread ι Local) :
    Saved (server.saveConn id t) t.req.cltNonce t.conn := by
  unfold Saved Server.saveConn
  dsimp only [Server.goto]
  cases known : server.conns t.req.cltNonce with
  | none => exact ⟨t.conn, Function.update_self .., Nat.le_refl _⟩
  | some old =>
      dsimp only
      split
      · exact ⟨t.conn, Function.update_self .., Nat.le_refl _⟩
      · next newer => exact ⟨old, known, Nat.le_of_not_lt newer⟩

/-- The saved connection of a client is only replaced by a newer one. -/
theorem Saved.saveConn {server : Server ι σ Local} {n : Nat} {c : Conn ι}
    (saved : Saved server n c) (id : Nat) (t : Thread ι Local) :
    Saved (server.saveConn id t) n c := by
  rcases saved with ⟨latest, found, older⟩
  unfold Saved Server.saveConn
  dsimp only [Server.goto]
  by_cases here : n = t.req.cltNonce
  · subst here
    rw [found]
    dsimp only
    split
    · next newer =>
        exact ⟨t.conn, Function.update_self .., Nat.le_trans older (Nat.le_of_lt newer)⟩
    · exact ⟨latest, found, older⟩
  · split
    · exact ⟨latest, (Function.update_of_ne here ..).trans found, older⟩
    · split
      · exact ⟨latest, (Function.update_of_ne here ..).trans found, older⟩
      · exact ⟨latest, found, older⟩

theorem initial_inv (service : Service σ Local) (nonce : Nat) :
    Inv ({ server := { nonce, service := service.initial } } : Routed ι σ Local) where
  checking _ _ held := nomatch held
  duplicates _ member := nomatch member

section

variable [DecidableEq ι] {service : Service σ Local} {s next : Routed ι σ Local}

theorem Inv.dispatch (inv : Inv s) {id choice : Nat} {isdead : Bool}
    (taken : s.step service (.dispatch id choice isdead) = some next) : Inv next := by
  rcases Option.bind_eq_some_iff.mp taken with ⟨t, held, mapped⟩
  rcases Option.map_eq_some_iff.mp mapped with ⟨⟨server, sent⟩, dispatched, rfl⟩
  rcases Server.dispatch_cases dispatched with ⟨t', held', cases⟩
  cases Option.some.inj (held.symm.trans held')
  have kept : ∀ n c, Saved s.server n c → Saved server n c := by
    intro n c saved
    by_cases saving : t.pc = .saving
    · simp only [Server.dispatch, held, saving, Option.some.injEq, Prod.mk.injEq] at dispatched
      rw [← dispatched.1]
      exact saved.saveConn id t
    · unfold Saved
      rw [conns_dispatched cases saving]
      exact saved
  constructor
  · intro other u after place
    rcases checking_dispatched cases after place with before | ⟨saving, req, conn⟩
    · exact kept _ _ (inv.checking other u before place)
    · simp only [Server.dispatch, held, saving, Option.some.injEq, Prod.mk.injEq] at dispatched
      dsimp only
      rw [req, conn, ← dispatched.1]
      exact saved_saveConn s.server id t
  · intro d member
    rcases List.mem_append.mp member with old | new
    · exact kept _ _ (inv.duplicates d old)
    · unfold inprogress at new
      split at new
      · next checking _ =>
          cases List.mem_singleton.mp new
          exact kept _ _ (inv.checking id t held checking)
      · contradiction

theorem Inv.gotPdu (inv : Inv s) {id : Nat} {conn : Conn ι} {req : Request}
    (taken : s.step service (.gotPdu id conn req) = some next) : Inv next := by
  rcases Option.map_eq_some_iff.mp taken with ⟨server, got, rfl⟩
  rcases Server.gotPdu_eq got with ⟨_, rfl⟩
  constructor
  · intro other u after place
    by_cases here : other = id
    · subst here
      simp only [Function.update_self, Option.some.injEq] at after
      subst after
      contradiction
    · simp only [Function.update_of_ne here] at after
      exact inv.checking other u after place
  · exact inv.duplicates

theorem Inv.step (inv : Inv s) {action : Action ι}
    (taken : s.step service action = some next) : Inv next := by
  cases action with
  | gotPdu => exact inv.gotPdu taken
  | dispatch => exact inv.dispatch taken

end

theorem Inv.seen {s : Routed ι σ Local} (inv : Inv s) {n x : Nat} {c : Conn ι} (member : c ∈ s.seen (n, x)) :
    Saved s.server n c := by
  rcases List.mem_map.mp member with ⟨d, found, rfl⟩
  rcases List.mem_filter.mp found with ⟨known, key⟩
  have saved := inv.duplicates d known
  rwa [of_decide_eq_true key] at saved

/-! ## The choice -/

/-- A connection that answers a duplicate. -/
def Answers (c duplicate : Conn ι) : Prop := c = duplicate ∨ duplicate.createTime < c.createTime

variable [DecidableEq ι] {service : Service σ Local} {s next : Routed ι σ Local}

theorem chosen_eq {t : Thread ι Local} {id choice : Nat} {isdead : Bool}
    (held : s.server.threads id = some t) (place : t.pc.isChoosing = true)
    (taken : s.step service (.dispatch id choice isdead) = some next) :
    ∃ c, next.choices = s.choices ++ [{ conn := c, duplicates := s.seen t.req.key }] ∧
      ((isdead = true ∧ s.server.conns t.req.cltNonce = some c) ∨
        (isdead = false ∧ c = t.conn)) := by
  rcases Option.bind_eq_some_iff.mp taken with ⟨t', held', mapped⟩
  cases Option.some.inj (held.symm.trans held')
  rcases Option.map_eq_some_iff.mp mapped with ⟨⟨server, sent⟩, dispatched, rfl⟩
  cases pc : t.pc with
  | choosing a =>
      simp only [Server.dispatch, held, pc] at dispatched
      rcases Option.map_eq_some_iff.mp dispatched with ⟨_, chose, same⟩
      cases same
      have sending : ∀ c, s.chosen t ((s.server.goto id t (.sending c a)).threads id) =
          [{ conn := c, duplicates := s.seen t.req.key }] := by
        intro c
        simp [chosen, pc, Server.goto]
      unfold Server.chooseConn at chose
      split at chose
      · next dead =>
          rcases Option.map_eq_some_iff.mp chose with ⟨c, saved, rfl⟩
          exact ⟨c, congrArg (s.choices ++ ·) (sending c), Or.inl ⟨dead.1, saved⟩⟩
      · next stays =>
          cases chose
          refine ⟨t.conn, congrArg (s.choices ++ ·) (sending t.conn), ?_⟩
          cases isdead with
          | false => exact Or.inr ⟨rfl, rfl⟩
          | true =>
              have latest : s.server.conns t.req.cltNonce = some t.conn := by
                by_contra other
                exact stays ⟨rfl, other⟩
              exact Or.inl ⟨rfl, latest⟩
  | received | saving | checking | handling | replying | sending =>
      rw [pc] at place
      contradiction

/-- The choice answers the duplicates so far if and only if the thread has noticed. -/
theorem Inv.noticed_iff (inv : Inv s) {t : Thread ι Local} {id choice : Nat} {isdead : Bool}
    (held : s.server.threads id = some t) (place : t.pc.isChoosing = true) {c : Conn ι}
    (chose : (isdead = true ∧ s.server.conns t.req.cltNonce = some c) ∨
      (isdead = false ∧ c = t.conn)) :
    Noticed s (.dispatch id choice isdead) ↔ ∀ d ∈ s.seen t.req.key, Answers c d := by
  have here : Noticed s (.dispatch id choice isdead) ↔ ∀ d ∈ s.seen t.req.key,
      (isdead = true ∧ ∀ latest ∈ s.server.conns t.req.cltNonce,
        latest.createTime = d.createTime → latest = d) ∨
      (isdead = false ∧ (t.conn = d ∨ d.createTime < t.conn.createTime)) := by
    constructor
    · exact fun noticed => noticed t held place
    · intro every u held' _
      cases Option.some.inj (held.symm.trans held')
      exact every
  rw [here]
  refine forall₂_congr fun d member => ?_
  rcases chose with ⟨rfl, saved⟩ | ⟨rfl, rfl⟩
  · rcases inv.seen member with ⟨latest, found, older⟩
    cases Option.some.inj (saved.symm.trans found)
    unfold Answers
    simp only [saved, Option.mem_def, Option.some.injEq, forall_eq', true_and,
      Bool.true_eq_false, false_and, or_false]
    constructor
    · intro alone
      rcases Nat.lt_or_eq_of_le older with newer | same
      · exact Or.inr newer
      · exact Or.inl (alone same.symm)
    · rintro (equal | newer) same
      · exact equal
      · omega
  · simp [Answers]

theorem choices_eq {id choice : Nat} {isdead : Bool} {t : Thread ι Local}
    (held : s.server.threads id = some t) (elsewhere : t.pc.isChoosing ≠ true)
    (taken : s.step service (.dispatch id choice isdead) = some next) :
    next.choices = s.choices := by
  rcases Option.bind_eq_some_iff.mp taken with ⟨t', held', mapped⟩
  cases Option.some.inj (held.symm.trans held')
  rcases Option.map_eq_some_iff.mp mapped with ⟨⟨server, sent⟩, _, rfl⟩
  have nothing : s.chosen t (server.threads id) = [] := by
    unfold chosen
    split
    · next pc _ => exact absurd (by rw [pc]; rfl) elsewhere
    · rfl
  dsimp only
  rw [nothing, List.append_nil]

theorem asNew_iff (inv : Inv s) (before : s.AsNew) {action : Action ι}
    (taken : s.step service action = some next) : next.AsNew ↔ Noticed s action := by
  cases action with
  | gotPdu id conn req =>
      rcases Option.map_eq_some_iff.mp taken with ⟨server, _, rfl⟩
      exact ⟨fun _ => trivial, fun _ => before⟩
  | dispatch id choice isdead =>
      rcases Option.bind_eq_some_iff.mp taken with ⟨t, held, _⟩
      by_cases place : t.pc.isChoosing = true
      · rcases chosen_eq held place taken with ⟨c, added, chose⟩
        rw [inv.noticed_iff held place chose]
        constructor
        · intro after
          exact after _ (added ▸ List.mem_append_right _ (List.mem_singleton_self _))
        · intro answers r member
          rw [added] at member
          rcases List.mem_append.mp member with old | last
          · exact before r old
          · cases List.mem_singleton.mp last
            exact answers
      · unfold AsNew
        rw [choices_eq held place taken]
        refine ⟨fun _ u held' choosing => ?_, fun _ => before⟩
        cases Option.some.inj (held.symm.trans held')
        exact absurd choosing place

theorem reachable_inv {nonce : Nat} (reachable : (machine service nonce).Reachable s) : Inv s :=
  reachable.invariant Inv (initial_inv service nonce) fun _ _ _ _ inv taken => inv.step taken

/-- Replies follow the duplicates of their calls in every run in which `dispatch` notices
that it has to look for the latest connection, and a step keeps it so only if it does. -/
theorem replies_follow {nonce : Nat}
    (reachable : (machine service nonce).ReachableUnder Noticed s) :
    s.AsNew ∧ ∀ action next, s.step service action = some next →
      (next.AsNew ↔ Noticed s action) := by
  have asNew : s.AsNew := by
    refine reachable.invariant AsNew (by intro r member; cases member) ?_
    intro s action next before asNew noticed taken
    exact (asNew_iff (reachable_inv before.reachable) asNew taken).mpr noticed
  refine ⟨asNew, fun action next taken => ?_⟩
  exact asNew_iff (reachable_inv reachable.reachable) asNew taken

/-! ## Runs -/

/-- The connection of the client that replaces the first one. -/
def secondConn : Conn Unit := { client := (), serial := 1, createTime := 1 }

/-- A call and, while it is executed, its retransmission on the second connection; then the
first thread chooses. -/
def reconnect (isdead : Bool) : List (Action Unit) := [
  .gotPdu 0 System.echoConn System.bindRequest,
  .dispatch 0 0 false, .dispatch 0 0 false, .dispatch 0 0 false,
  .gotPdu 1 secondConn System.bindRequest,
  .dispatch 1 0 false, .dispatch 1 0 false, .dispatch 1 0 false,
  .dispatch 0 0 false, .dispatch 0 0 false, .dispatch 0 0 isdead]

theorem replies_follow_reconnect :
    ∃ s, (machine System.echo 9).ReachableUnder Noticed s ∧
      s.choices = [{ conn := secondConn, duplicates := [secondConn] }] ∧ s.AsNew := by
  have run : (((machine System.echo 9).restrict Noticed).run (machine System.echo 9).initial
      (reconnect true)).map (fun s => s.choices.map fun r => (r.conn, r.duplicates)) =
        some [(secondConn, [secondConn])] := by decide +kernel
  rcases Option.map_eq_some_iff.mp run with ⟨s, taken, choices⟩
  have reachable := Machine.reachableUnder_of_run taken
  refine ⟨s, reachable, ?_, (replies_follow reachable).1⟩
  rcases List.map_eq_singleton_iff.mp choices with ⟨⟨conn, duplicates⟩, only, same⟩
  cases same
  exact only

theorem reconnect_not_asNew :
    ¬ ∀ s : Routed Unit Unit (List UInt8), (machine System.echo 9).Reachable s → s.AsNew := by
  intro always
  have run : ((machine System.echo 9).run (machine System.echo 9).initial (reconnect false)).map
      (fun s => s.choices.map fun r => (r.conn, r.duplicates)) =
        some [(System.echoConn, [secondConn])] := by decide +kernel
  rcases Option.map_eq_some_iff.mp run with ⟨s, taken, choices⟩
  rcases List.map_eq_singleton_iff.mp choices with ⟨r, only, same⟩
  simp only [Prod.mk.injEq] at same
  have followed := always s (Machine.reachable_of_run taken) r (by simp [only]) secondConn
    (by simp [same.2])
  rw [same.1] at followed
  revert followed
  decide

end Routed

end YfsRpc.Rpc
