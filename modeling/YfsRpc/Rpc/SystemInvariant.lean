import YfsRpc.Rpc.ClientInvariant
import YfsRpc.Rpc.ServerInvariant
import YfsRpc.Rpc.System

/-! # Invariants of the clients and the server together

The requests under way were issued by the client of their connection, and the
replies under way answer requests of the client they go to. The server invariant
then holds for the requests the clients issued, and the client invariants for
the results the server produced.
-/

namespace YfsRpc.Rpc.System

variable {ι σ Local : Type} {nonce : ι → Nat}

/-- The handler for the request returned this. -/
def Produced (s : System ι σ Local) (req : Request) (ret : Int) (payload : List UInt8) : Prop :=
  { req, ret, payload } ∈ s.server.finished

structure Inv (nonce : ι → Nat) (s : System ι σ Local) : Prop where
  clients : ∀ c, (s.clients c).Inv (nonce c) s.Produced
  requests : ∀ conn req, (conn, req) ∈ s.requests → req ∈ s.issued conn.client
  replies : ∀ m ∈ s.replies,
    m.answer.cause ∈ s.issued m.dest ∧ Genuine s.server.finished m.answer
  server : s.server.Inv nonce s.issued

/-- What the server relies on. -/
theorem Inv.issued {s : System ι σ Local} (inv : Inv nonce s) : Issued nonce s.issued where
  cltNonce := fun c => (inv.clients c).nonce
  xidRep := fun c r member => ((inv.clients c).xidRep r member).1
  unique := fun c => (inv.clients c).unique

/-- A new request was issued. -/
theorem Inv.issued_of_new {s : System ι σ Local} (inv : Inv nonce s)
    (distinct : Function.Injective nonce) {c : ι} {xid : Nat}
    (new : (nonce c, xid) ∈ s.server.news) : ∃ r ∈ s.issued c, r.xid = xid := by
  have history := inv.server.history
  rw [← history.keys] at new
  rcases List.mem_map.mp new with ⟨r, begun, key⟩
  rcases history.known r begun with ⟨c', member⟩
  rw [Request.key, inv.issued.cltNonce c' r member, Prod.mk.injEq] at key
  cases distinct key.1
  exact ⟨r, member, key.2⟩

variable [DecidableEq ι] {s next : System ι σ Local}

theorem initial_inv (nonce : ι → Nat) (service : Service σ Local) (srvNonce : Nat) :
    Inv nonce (machine nonce service srvNonce).initial where
  clients := fun c => Client.initial_inv (nonce c) _
  requests := nofun
  replies := nofun
  server := Server.initial_inv nonce _ _ _

/-- A client takes a step that keeps its invariant. -/
theorem Inv.setClient (inv : Inv nonce s) {c : ι} {cl : Client}
    (kept : cl.Inv (nonce c) s.Produced) (grown : (s.clients c).issued ⊆ cl.issued) :
    Inv nonce (s.setClient c cl) := by
  have more := issued_setClient grown
  refine ⟨?_, ?_, ?_, inv.server.mono more⟩
  · exact forall_setClient (fun other cl => cl.Inv (nonce other) s.Produced) kept inv.clients
  · intro conn req sent
    exact more _ (inv.requests conn req sent)
  · intro m sent
    rcases inv.replies m sent with ⟨cause, genuine⟩
    exact ⟨more _ cause, genuine⟩

theorem Inv.step (inv : Inv nonce s) (distinct : Function.Injective nonce)
    (nonzero : ∀ c, nonce c ≠ 0) {service : Service σ Local} {action : Action ι}
    (few : FewCalls s action) (taken : step nonce service s action = some next) :
    Inv nonce next := by
  cases step_cases taken with
  | call c proc payload cl done =>
      apply inv.setClient ((inv.clients c).call1 few done)
      rcases Client.call1_eq done with ⟨_, _, rfl⟩
      exact List.subset_append_left _ _
  | transmit c number serial createTime ca current =>
      refine ⟨inv.clients, ?_, inv.replies, inv.server⟩
      intro conn req sent
      rcases List.mem_append.mp sent with old | new
      · exact inv.requests conn req old
      · cases List.mem_singleton.mp new
        exact ((inv.clients c).callers number ca current).req
  | gotReply c m sent dest =>
      subst dest
      rcases inv.replies m sent with ⟨cause, genuine⟩
      have own := inv.clients m.dest
      have range := own.range _ cause
      rw [← genuine.xid] at range
      apply inv.setClient (own.gotPdu range ?_)
      · rw [Client.issued_gotPdu]
        exact List.Subset.refl _
      · intro r member same valid
        rw [own.unique r member _ cause (same.trans genuine.xid)]
        exact genuine.result valid
  | finish c number cl done =>
      apply inv.setClient ((inv.clients c).finish done)
      rcases Client.finish_eq (inv.clients c) done with ⟨_, _, rfl⟩
      exact List.Subset.refl _
  | bind c ret cl done =>
      apply inv.setClient ((inv.clients c).bind done)
      rcases Client.bind_eq done with ⟨_, _, _, rfl⟩
      exact List.Subset.refl _
  | cancel c => exact inv.setClient (inv.clients c).cancel (List.Subset.refl _)
  | gotRequest id conn req server sent done =>
      have kept := inv.server.gotPdu (inv.requests conn req sent) done
      rcases Server.gotPdu_eq done with ⟨_, rfl⟩
      exact ⟨inv.clients, inv.requests, inv.replies, kept⟩
  | dispatch id choice isdead server sent t current done =>
      have more := done.finished_subset
      refine ⟨?_, inv.requests, ?_,
        inv.server.dispatched inv.issued distinct nonzero current done⟩
      · exact fun c => (inv.clients c).mono fun _ _ _ produced => more produced
      · intro m member
        rcases List.mem_append.mp member with old | new
        · rcases inv.replies m old with ⟨cause, genuine⟩
          exact ⟨cause, genuine.mono more⟩
        · rcases inv.server.sent current done m (by simpa using new) with ⟨cause, genuine⟩
          exact ⟨cause, genuine.mono more⟩

/-- The invariant holds in every run in which no client runs out of xids. -/
theorem reachable_inv (distinct : Function.Injective nonce) (nonzero : ∀ c, nonce c ≠ 0)
    {service : Service σ Local} {srvNonce : Nat}
    (reachable : (machine nonce service srvNonce).ReachableUnder FewCalls s) : Inv nonce s :=
  reachable.invariant (Inv nonce) (initial_inv nonce service srvNonce)
    fun _ _ _ _ inv few taken => inv.step distinct nonzero few taken

/-- A step issues a call of a client, or it only settles calls of the client. -/
theorem Inv.client_cases (inv : Inv nonce s) {service : Service σ Local} {action : Action ι}
    (step : Stepped nonce service s action next) (c : ι) :
    (∃ proc payload, action = .call c proc payload ∧
      (s.clients c).call1 (nonce c) proc payload = some (next.clients c)) ∨
      (s.clients c).Settles (next.clients c) := by
  have update (other : ι) (cl : Client) (settles : (s.clients other).Settles cl) :
      (s.clients c).Settles ((s.setClient other cl).clients c) :=
    forall_setClient (fun c cl => (s.clients c).Settles cl) settles
      (fun _ => Client.Settles.refl _) c
  cases step with
  | call other proc payload cl done =>
      by_cases here : c = other
      · subst here
        left
        rw [setClient_self]
        exact ⟨proc, payload, rfl, done⟩
      · right
        rw [setClient_of_ne s cl here]
        exact Client.Settles.refl _
  | gotReply other m => exact Or.inr (update other _ ((inv.clients other).gotPdu_settles _))
  | finish other number cl done =>
      exact Or.inr (update other cl ((inv.clients other).finish_settles done))
  | bind other ret cl done => exact Or.inr (update other cl (Client.bind_settles done))
  | cancel other => exact Or.inr (update other _ (Client.cancel_settles _))
  | transmit | gotRequest | dispatch => exact Or.inr (Client.Settles.refl _)

/-- The calls of a client are numbered by their xids. -/
theorem reachable_numbered (distinct : Function.Injective nonce) (nonzero : ∀ c, nonce c ≠ 0)
    {service : Service σ Local} {srvNonce : Nat}
    (reachable : (machine nonce service srvNonce).ReachableUnder FewCalls s) :
    ∀ c k r, (s.clients c).issued[k]? = some r → r.xid = k + 1 := by
  apply reachable.invariant fun s => ∀ (c : ι) (k : Nat) (r : Request),
    (s.clients c).issued[k]? = some r → r.xid = k + 1
  · rintro c k r found
    simp [machine] at found
  · intro state action next before numbered _ taken c k r found
    have inv := reachable_inv distinct nonzero before
    rcases inv.client_cases (step_cases taken) c with ⟨proc, payload, _, done⟩ | settles
    · rw [(Client.call1_eq done).2.2, Client.issued_register] at found
      rcases Nat.lt_trichotomy k (state.clients c).issued.length with old | rfl | beyond
      · rw [List.getElem?_append_left old] at found
        exact numbered c k r found
      · rw [List.getElem?_concat_length, Option.some.injEq] at found
        rw [← found]
        exact (inv.clients c).count
      · rw [List.getElem?_eq_none (by simp; omega)] at found
        contradiction
    · rw [settles.issued] at found
      exact numbered c k r found

/-- A completed call stays completed. -/
theorem Inv.completed (inv : Inv nonce s) {service : Service σ Local} {action : Action ι}
    (step : Stepped nonce service s action next) {c : ι} {number : Nat}
    (completed : (s.clients c).Completed number) : (next.clients c).Completed number := by
  rcases inv.client_cases step c with ⟨proc, payload, _, done⟩ | settles
  · rw [(Client.call1_eq done).2.2]
    exact completed.register _
  · exact settles.completed completed

end YfsRpc.Rpc.System
