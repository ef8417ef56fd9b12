import YfsRpc.Rpc.Retention

/-! # When a request is forgotten

The server takes a request for forgotten if its window starts behind the xid.
That is right if the window still has an entry next to the xids the client has
acknowledged. It has none if the acknowledged calls timed out before they
reached the server, or if the first calls of a client overtake each other.
-/

namespace YfsRpc.Rpc.System

variable {ι σ Local : Type} {nonce : ι → Nat}

/-- A thread at the duplicate check finds a request forgotten only if its call
is completed, and finds it new if its call waits and was not new before. -/
def ForgottenCompleted (s : System ι σ Local) : Prop :=
  ∀ id t, s.server.threads id = some t → t.pc = .checking →
    let stat :=
      (checkduplicateAndUpdate (s.server.replyWindow t.req.cltNonce) t.req.xid t.req.xidRep).1
    (stat = .forgotten → (s.clients t.conn.client).Completed t.req.xid) ∧
      ((s.clients t.conn.client).Waiting t.req.xid → t.req.key ∉ s.server.news → stat = .new)

/-- A client issues fewer than 2^32 - 1 calls. It issues a call while another one
waits only if the server has an entry for the front of the acknowledgement window,
or for the xid behind it. -/
def Anchors (nonce : ι → Nat) (s : System ι σ Local) : Action ι → Prop
  | .call c _ _ =>
      (s.clients c).issued.length + 1 < 2 ^ 32 - 1 ∧
        ((∃ number, (s.clients c).Waiting number) →
          ∃ e ∈ s.server.replyWindow (nonce c),
            e.xid = (s.clients c).front ∨ e.xid = (s.clients c).front + 1)
  | _ => True

theorem Anchors.fewCalls {s : System ι σ Local} {action : Action ι}
    (anchors : Anchors nonce s action) : FewCalls s action := by
  cases action with
  | call => exact anchors.1
  | _ => trivial

/-- Only the last call of the client waits, or there is an entry that no request
acknowledges and that is not behind the front by more than one. -/
def Anchored (nonce : ι → Nat) (s : System ι σ Local) (c : ι) : Prop :=
  (∀ number, (s.clients c).Waiting number → number = (s.clients c).issued.length) ∨
    ∃ e ∈ s.server.replyWindow (nonce c),
      (∀ r ∈ (s.clients c).issued, r.xidRep ≤ e.xid) ∧ e.xid ≤ (s.clients c).front + 1

variable {s next : System ι σ Local}

theorem Inv.entry_dispatched (inv : Inv nonce s) {id : Nat} {t : Thread ι Local}
    (current : s.server.threads id = some t) {service : Service σ Local}
    {server : Server ι σ Local} {sent : Option (Message ι)}
    (step : Server.Dispatched service s.server id t server sent)
    (distinct : Function.Injective nonce) {c : ι} {e : ReplyT Answer}
    (present : e ∈ s.server.replyWindow (nonce c))
    (unacknowledged : ∀ r ∈ s.issued c, r.xidRep ≤ e.xid) :
    ∃ e' ∈ server.replyWindow (nonce c), e'.xid = e.xid := by
  have mine := inv.server.threads.known id t current
  have own := inv.issued.cltNonce _ _ mine
  cases step.windowStep with
  | same windows =>
      rw [windows]
      exact ⟨e, present, rfl⟩
  | checked place stat window result windows =>
      have checked := checkduplicateAndUpdate_classified t.req.xid t.req.xidRep
        (inv.server.windows.ascending t.req.cltNonce)
      rw [result] at checked
      rw [windows]
      by_cases here : nonce c = t.req.cltNonce
      · rw [here, Function.update_self]
        rw [here] at present
        cases distinct (here.trans own)
        exact ⟨e, checked.keeps (mem_trim.mpr ⟨present, unacknowledged _ mine⟩), rfl⟩
      · rw [Function.update_of_ne here]
        exact ⟨e, present, rfl⟩
  | recorded place windows =>
      rw [windows]
      by_cases here : nonce c = t.req.cltNonce
      · rw [here, Function.update_self, exists_xid_addReply, ← here]
        exact ⟨e, present, rfl⟩
      · rw [Function.update_of_ne here]
        exact ⟨e, present, rfl⟩

/-- The window has an entry that is not behind a waiting call. -/
theorem Anchored.not_forgotten {c : ι} (anchored : Anchored nonce s c) (inv : Inv nonce s)
    (distinct : Function.Injective nonce) {r : Request} (member : r ∈ s.issued c)
    (waiting : (s.clients c).Waiting r.xid) {window : List (ReplyT Answer)} :
    ¬ Classified (trim r.xidRep (s.server.replyWindow (nonce c))) r.xid .forgotten window := by
  intro forgotten
  rcases forgotten.of_forgotten with ⟨ne_nil, larger⟩
  rcases anchored with last | ⟨e, present, unacknowledged, near⟩
  · rcases List.exists_mem_of_ne_nil _ ne_nil with ⟨e, stays⟩
    have beyond := larger e stays
    have new := inv.server.windows.entries _ e (mem_trim.mp stays).1
    rcases inv.issued_of_new distinct new with ⟨r', member', same⟩
    have range := (inv.clients c).range r' member'
    have limit := last r.xid waiting
    omega
  · have beyond := larger e (mem_trim.mpr ⟨present, unacknowledged r member⟩)
    have ahead := (inv.clients c).front_lt_of_waiting waiting
    omega

/-- What an anchored client makes of a duplicate check. -/
theorem Anchored.checked {c : ι} (anchored : Anchored nonce s c) (inv : Inv nonce s)
    (distinct : Function.Injective nonce) {r : Request} (member : r ∈ s.issued c)
    {stat : RpcState Answer} {window : List (ReplyT Answer)}
    (classified : Classified (trim r.xidRep (s.server.replyWindow r.cltNonce)) r.xid stat window) :
    (stat = .forgotten → (s.clients c).Completed r.xid) ∧
      ((s.clients c).Waiting r.xid → r.key ∉ s.server.news → stat = .new) := by
  rw [inv.issued.cltNonce c r member] at classified
  constructor
  · rintro rfl
    have range := (inv.clients c).range r member
    exact ⟨range.1, range.2, fun waiting =>
      anchored.not_forgotten inv distinct member waiting classified⟩
  · intro waiting fresh
    cases classified with
    | known e stays same =>
        have new := inv.server.windows.entries _ e (mem_trim.mp stays).1
        rw [same, ← inv.issued.cltNonce c r member] at new
        exact absurd new fresh
    | forgotten ne_nil larger =>
        exact absurd (.forgotten ne_nil larger)
          (anchored.not_forgotten inv distinct member waiting)
    | new => rfl

variable [DecidableEq ι] {service : Service σ Local} {srvNonce : Nat} {action : Action ι}

/-- An entry that is not acknowledged stays in the window. -/
theorem Inv.entry_stays (inv : Inv nonce s) (step : Stepped nonce service s action next)
    (distinct : Function.Injective nonce) {c : ι} {e : ReplyT Answer}
    (present : e ∈ s.server.replyWindow (nonce c))
    (unacknowledged : ∀ r ∈ s.issued c, r.xidRep ≤ e.xid) :
    ∃ e' ∈ next.server.replyWindow (nonce c), e'.xid = e.xid := by
  cases step with
  | dispatch id choice isdead server sent t current done =>
      exact inv.entry_dispatched current done distinct present unacknowledged
  | gotRequest id conn req server sent done =>
      rcases Server.gotPdu_eq done with ⟨_, rfl⟩
      exact ⟨e, present, rfl⟩
  | call | transmit | gotReply | finish | bind | cancel => exact ⟨e, present, rfl⟩

theorem Anchored.step {c : ι} (anchored : Anchored nonce s c) (inv : Inv nonce s)
    (distinct : Function.Injective nonce) (anchors : Anchors nonce s action)
    (step : Stepped nonce service s action next) : Anchored nonce next c := by
  rcases inv.client_cases step c with ⟨proc, payload, rfl, done⟩ | settles
  · -- the new call has the front of before as its acknowledgement
    have server : next.server = s.server := by
      cases step
      rfl
    rcases Client.call1_eq done with ⟨_, _, issue⟩
    by_cases idle : ∃ number, (s.clients c).Waiting number
    · rcases anchors.2 idle with ⟨e, present, near⟩
      right
      rw [server, issue]
      refine ⟨e, present, ?_, ?_⟩
      · intro r member
        rcases List.mem_append.mp member with old | new
        · have below := ((inv.clients c).xidRep r old).2
          omega
        · rw [List.mem_singleton.mp new]
          change (s.clients c).front ≤ e.xid
          omega
      · change e.xid ≤ (s.clients c).front + 1
        omega
    · left
      rw [issue]
      intro number waiting
      rw [Client.issued_register, List.length_append]
      by_contra other
      rcases waiting with ⟨ca, current, pending⟩
      rw [Client.callers_register_of_ne _ other] at current
      exact idle ⟨number, ca, current, pending⟩
  · rcases anchored with last | ⟨e, present, unacknowledged, near⟩
    · left
      intro number waiting
      rw [settles.issued]
      exact last number (settles.waiting number waiting)
    · right
      rcases inv.entry_stays step distinct present unacknowledged with ⟨e', stays, same⟩
      have front := settles.front
      refine ⟨e', stays, ?_, by omega⟩
      rw [settles.issued, same]
      exact unacknowledged

theorem reachable_anchored (distinct : Function.Injective nonce) (nonzero : ∀ c, nonce c ≠ 0)
    (reachable : (machine nonce service srvNonce).ReachableUnder (Anchors nonce) s) :
    Inv nonce s ∧ ∀ c, Anchored nonce s c := by
  apply reachable.invariant fun s => Inv nonce s ∧ ∀ c, Anchored nonce s c
  · refine ⟨initial_inv nonce service srvNonce, fun c => Or.inl ?_⟩
    rintro number ⟨ca, current, _⟩
    contradiction
  · rintro state action next _ ⟨inv, anchored⟩ anchors taken
    exact ⟨inv.step distinct nonzero anchors.fewCalls taken,
      fun c => (anchored c).step inv distinct anchors (step_cases taken)⟩

/-- The first request of `bind` comes to the server and is new there. -/
def bindNew : List (Action Unit) := [
  .transmit () 1 0 0, .gotRequest 0 echoConn bindRequest,
  .dispatch 0 0 false, .dispatch 0 0 false, .dispatch 0 0 false]

/-- The request of another call of `bind` is at the duplicate check, and so is a duplicate of
the first. -/
def bindChecking : List (Action Unit) := [
  .transmit () 2 0 0, .gotRequest 1 echoConn { bindRequest with xid := 2 },
  .gotRequest 2 echoConn bindRequest, .dispatch 1 0 false, .dispatch 1 0 false,
  .dispatch 2 0 false, .dispatch 2 0 false]

/-- Two calls of `bind`; the request of the second one arrives first. -/
def bindOvertaken : List (Action Unit) := [
  .call () RpcConst.bind [0, 0, 0, 0], .call () RpcConst.bind [0, 0, 0, 0],
  .transmit () 2 0 0, .gotRequest 0 echoConn { bindRequest with xid := 2 },
  .dispatch 0 0 false, .dispatch 0 0 false, .dispatch 0 0 false,
  .transmit () 1 0 0, .gotRequest 1 echoConn bindRequest,
  .dispatch 1 0 false, .dispatch 1 0 false]

end YfsRpc.Rpc.System
