import YfsRpc.Rpc.Forgotten
import YfsRpc.Rpc.Isolation

/-! # Clients that wait for their replies

A client that binds first, and whose calls never time out, is never refused: the
server has an entry for the front of its acknowledgements, so it forgets only
completed calls, and its requests name the right instance. Every call that
returns was executed, and returns the result of its execution.
-/

namespace YfsRpc.Rpc

namespace Client

/-- `produced` says which results the server has produced, and `new` which xids of
the client it has classified as new. -/
structure Served (produced : Request → Int → List UInt8 → Prop) (new : Nat → Prop)
    (cl : Client) : Prop where
  completed : ∀ x, cl.Completed x → new x
  binds : ∀ r ∈ cl.issued, r.proc = RpcConst.bind → r.xid = 1 ∧ r.srvNonce = 0
  unbound : cl.bindDone = false → cl.srvNonce = 0
  bound : cl.bindDone = true → new 1
  callers : ∀ number ca, cl.callers number = some ca → ca.done = true →
    produced ca.req ca.intret ca.un
  returned : ∀ ret ∈ cl.returned, produced ret.req ret.ret ret.payload

variable {nonce : Nat} {produced results : Request → Int → List UInt8 → Prop} {new : Nat → Prop}
  {cl next : Client}

theorem initial_served : Served produced new {} where
  completed := by
    intro x completed
    exact absurd (Nat.lt_of_lt_of_le completed.1 completed.2.1) (Nat.lt_irrefl 0)
  binds := nofun
  unbound := fun _ => rfl
  bound := nofun
  callers := nofun
  returned := nofun

theorem Served.mono {produced' : Request → Int → List UInt8 → Prop} {new' : Nat → Prop}
    (served : Served produced new cl)
    (more : ∀ r ret payload, produced r ret payload → produced' r ret payload)
    (grown : ∀ x, new x → new' x) : Served produced' new' cl where
  completed := fun x completed => grown x (served.completed x completed)
  binds := served.binds
  unbound := served.unbound
  bound := fun done => grown 1 (served.bound done)
  callers := fun number ca current done => more _ _ _ (served.callers number ca current done)
  returned := fun ret member => more _ _ _ (served.returned ret member)

theorem Served.call1 (served : Served produced new cl) (inv : cl.Inv nonce results) {proc : Nat}
    {payload : List UInt8} (first : proc = RpcConst.bind → cl.issued = [])
    (done : cl.call1 nonce proc payload = some next) : Served produced new next := by
  rcases call1_eq done with ⟨admitted, _, rfl⟩
  generalize packed : cl.pack nonce proc payload = h
  have hProc : h.proc = proc := by rw [← packed]; rfl
  have hXid : h.xid = cl.issued.length + 1 := by rw [← packed]; exact inv.count
  have hSrv : h.srvNonce = cl.srvNonce := by rw [← packed]; rfl
  refine ⟨?_, ?_, served.unbound, served.bound, ?_, served.returned⟩
  · rintro x ⟨positive, bound, settled⟩
    rw [issued_register, List.length_append, List.length_singleton] at bound
    by_cases same : x = cl.issued.length + 1
    · rw [same] at settled
      exact absurd (register_waiting h) settled
    · have old : x ≤ cl.issued.length := by omega
      exact served.completed x ⟨positive, old, fun waiting => settled
        ((waiting_register old).mpr waiting)⟩
  · intro r member bind
    rcases List.mem_append.mp member with old | isNew
    · exact served.binds r old bind
    · rw [List.mem_singleton.mp isNew] at bind ⊢
      rw [hProc] at bind
      rw [hXid, hSrv, first bind]
      exact ⟨rfl, served.unbound (admitted.mp bind)⟩
  · intro number ca current done
    by_cases same : number = cl.issued.length + 1
    · subst same
      rw [callers_register_self] at current
      cases current
      contradiction
    · rw [callers_register_of_ne h same] at current
      exact served.callers number ca current done

theorem Served.gotPdu (served : Served produced new cl) (inv : cl.Inv nonce results)
    {reply : Reply}
    (answered : ∀ r ∈ cl.issued, r.xid = reply.xid → cl.Waiting reply.xid →
      produced r reply.ret reply.payload ∧ new r.xid) : Served produced new (cl.gotPdu reply) := by
  rcases gotPdu_cases inv reply with ⟨_, same⟩ | ⟨ca, current, pending, same⟩
  · rw [same]
    exact ⟨served.completed, served.binds, served.unbound, served.bound, served.callers,
      served.returned⟩
  · rw [same]
    have placed := inv.callers _ ca current
    rcases answered ca.req placed.req placed.reqXid ⟨ca, current, pending⟩ with ⟨result, isNew⟩
    rw [placed.reqXid] at isNew
    refine ⟨?_, served.binds, served.unbound, served.bound, ?_, served.returned⟩
    · rintro x ⟨positive, bound, settled⟩
      by_cases here : x = reply.xid
      · rw [here]
        exact isNew
      · refine served.completed x ⟨positive, bound, ?_⟩
        rintro ⟨other, found, undone⟩
        exact settled ⟨other, (Function.update_of_ne here _ _).trans found, undone⟩
    · intro number other found done
      rcases slot_filled found with ⟨_, rfl⟩ | ⟨_, before⟩
      · exact result
      · exact served.callers number other before done

theorem Served.finish (served : Served produced new cl) (inv : cl.Inv nonce results)
    {number : Nat} (settled : ¬ cl.Waiting number) (done : cl.finish number = some next) :
    Served produced new next := by
  rcases finish_eq inv done with ⟨ca, current, rfl⟩
  have answered : ca.done = true := by
    cases pending : ca.done with
    | true => rfl
    | false => exact absurd ⟨ca, current, pending⟩ settled
  refine ⟨?_, served.binds, served.unbound, served.bound, ?_, ?_⟩
  · rintro x ⟨positive, bound, notWaiting⟩
    refine served.completed x ⟨positive, bound, fun waiting => ?_⟩
    by_cases here : x = number
    · rw [here] at waiting
      exact settled waiting
    · rcases waiting with ⟨other, found, undone⟩
      exact notWaiting ⟨other, (Function.update_of_ne here _ _).trans found, undone⟩
  · intro other after found
    exact served.callers other after (slot_emptied found).2
  · intro ret member
    rcases List.mem_append.mp member with old | isNew
    · exact served.returned ret old
    · rw [List.mem_singleton.mp isNew]
      simp only [answered, if_true]
      exact served.callers number ca current answered

theorem Served.bind (served : Served produced new cl) (inv : cl.Inv nonce results)
    (known : ∀ r ret payload, produced r ret payload → r ∈ cl.issued → new r.xid) {ret : Return}
    (done : cl.bind ret = some next) : Served produced new next := by
  rcases bind_eq done with ⟨⟨returned, proc, _⟩, r, _, rfl⟩
  have issued := (inv.returned ret returned).1
  have isNew := known _ _ _ (served.returned ret returned) issued
  rw [(served.binds ret.req issued proc).1] at isNew
  exact ⟨served.completed, served.binds, nofun, fun _ => isNew, served.callers, served.returned⟩

end Client

namespace System

variable {ι σ Local : Type} {nonce : ι → Nat}

/-- A client calls `bind` first, no call of it returns before its reply is there,
and it does not cancel. It issues fewer than 2^32 - 1 calls. -/
def Patient (s : System ι σ Local) : Action ι → Prop
  | .call c proc _ =>
      (s.clients c).issued.length + 1 < 2 ^ 32 - 1 ∧
        (proc = RpcConst.bind → (s.clients c).issued = [])
  | .finish c number => ¬ (s.clients c).Waiting number
  | .cancel _ => False
  | _ => True

theorem Patient.fewCalls {s : System ι σ Local} {action : Action ι}
    (patient : Patient s action) : FewCalls s action := by
  cases action with
  | call => exact patient.1
  | _ => trivial

/-- No call that waits is refused, and the clients get what executions produced. -/
structure Served (nonce : ι → Nat) (s : System ι σ Local) : Prop where
  clients : ∀ c, (s.clients c).Served s.Produced fun x => (nonce c, x) ∈ s.server.news
  entries : ∀ c x, (nonce c, x) ∈ s.server.news → (∀ r ∈ s.issued c, r.xidRep ≤ x) →
    ∃ e ∈ s.server.replyWindow (nonce c), e.xid = x
  sender : ∀ m ∈ s.replies, m.nonce = s.server.nonce
  replies : ∀ m ∈ s.replies, (s.clients m.dest).Waiting m.answer.cause.xid →
    Executed s.server.finished m.answer
  sending : ∀ id t c a, s.server.threads id = some t → t.pc = .sending c a →
    (s.clients c.client).Waiting a.cause.xid → Executed s.server.finished a

variable {s next : System ι σ Local} {action : Action ι}

theorem initial_served [DecidableEq ι] (service : Service σ Local) (srvNonce : Nat) :
    Served nonce (machine nonce service srvNonce).initial where
  clients := fun _ => Client.initial_served
  entries := nofun
  sender := nofun
  replies := nofun
  sending := nofun

/-- An execution is one of a new request. -/
theorem Inv.new_of_produced (inv : Inv nonce s) {c : ι} {r : Request} {ret : Int}
    {payload : List UInt8} (produced : s.Produced r ret payload) (issued : r ∈ s.issued c) :
    (nonce c, r.xid) ∈ s.server.news := by
  have begun := inv.server.history.returned _ produced
  rw [← inv.server.history.keys, ← inv.issued.cltNonce c r issued]
  exact List.mem_map_of_mem (f := Request.key) begun

/-- The requests of the clients are for this instance, or for none. -/
theorem Served.srvNonce (served : Served nonce s) (traced : Traced nonce s) {c : ι} {r : Request}
    (issued : r ∈ s.issued c) : r.srvNonce = 0 ∨ r.srvNonce = s.server.nonce := by
  by_cases bind : r.proc = RpcConst.bind
  · exact Or.inl ((served.clients c).binds r issued bind).2
  · rcases (traced.clients c).packed r issued bind with ⟨m, sent, _, sender, _⟩
    right
    rw [← sender]
    exact served.sender m sent

theorem Served.anchors (served : Served nonce s) (inv : Inv nonce s) (patient : Patient s action)
    [DecidableEq ι] {service : Service σ Local}
    (step : Stepped nonce service s action next) : Anchors nonce s action := by
  cases step with
  | call c proc payload cl done =>
      refine ⟨patient.1, fun ⟨number, waiting⟩ => ?_⟩
      have own := inv.clients c
      have acknowledged : ∀ r ∈ s.issued c, r.xidRep ≤ (s.clients c).front :=
        fun r member => (own.xidRep r member).2
      cases front : (s.clients c).front with
      | zero =>
          have bound : (s.clients c).bindDone = true := by
            cases bindDone : (s.clients c).bindDone with
            | true => rfl
            | false =>
                have empty := patient.2 ((Client.call1_eq done).1.mpr bindDone)
                have positive := own.front_lt_of_waiting waiting
                have limit := own.waiting_le waiting
                rw [empty, List.length_nil] at limit
                omega
          have isNew := (served.clients c).bound bound
          rcases served.entries c 1 isNew (fun r member => by
            have zero := acknowledged r member
            omega) with ⟨e, present, same⟩
          exact ⟨e, present, Or.inr same⟩
      | succ last =>
          rw [← front]
          have completed := own.completed_of_le_front (by omega) (Nat.le_refl (s.clients c).front)
          have isNew := (served.clients c).completed _ completed
          rcases served.entries c _ isNew acknowledged with ⟨e, present, same⟩
          exact ⟨e, present, Or.inl same⟩
  | _ => trivial

/-! ## A step of the server -/

/-- A thread moves on, and does not send something else than what an execution produced. -/
theorem Served.sending_update (served : Served nonce s) {id : Nat} {t : Thread ι Local}
    (pc : Option (Pc ι Local)) {threads : Nat → Option (Thread ι Local)}
    {finished : List Execution}
    (moved : threads = Function.update s.server.threads id (pc.map fun pc => { t with pc }))
    (more : s.server.finished ⊆ finished)
    (own : ∀ c a, pc = some (.sending c a) → (s.clients c.client).Waiting a.cause.xid →
      Executed finished a) :
    ∀ id t c a, threads id = some t → t.pc = .sending c a →
      (s.clients c.client).Waiting a.cause.xid → Executed finished a := by
  intro id' t' c a found place waiting
  rw [moved] at found
  rcases Server.thread_moved found with ⟨_, now, isNow, rfl⟩ | ⟨_, before⟩
  · exact own c a (isNow.trans (congrArg some place)) waiting
  · exact (served.sending id' t' c a before place waiting).mono more

/-- What a thread sends to a call that waits is what its execution produced. -/
theorem Served.sending_dispatched (served : Served nonce s) (inv : Inv nonce s)
    (traced : Traced nonce s) (anchored : ∀ c, Anchored nonce s c)
    (distinct : Function.Injective nonce) {id : Nat} {t : Thread ι Local}
    (current : s.server.threads id = some t) {service : Service σ Local}
    {server : Server ι σ Local} {sent : Option (Message ι)}
    (step : Server.Dispatched service s.server id t server sent) :
    ∀ id t c a, server.threads id = some t → t.pc = .sending c a →
      (s.clients c.client).Waiting a.cause.xid → Executed server.finished a := by
  have mine := inv.server.threads.known id t current
  have held := inv.server.threads.pcs id t current
  have more := step.finished_subset
  have checked := checkduplicateAndUpdate_classified t.req.xid t.req.xidRep
    (inv.server.windows.ascending t.req.cltNonce)
  cases step with
  | refused place old =>
      rcases served.srvNonce traced mine with zero | same
      · exact absurd zero old.1
      · exact absurd same old.2
  | done place window a result =>
      refine served.sending_update (some _) rfl more ?_
      intro c a' same _
      cases Option.some.inj same
      rw [result] at checked
      rcases checked.of_done with ⟨e, present, _, buffered⟩
      exact (inv.server.windows.answers _ e (mem_trim.mp present).1 a buffered).2.2
  | forgotten place window result =>
      refine served.sending_update (some _) rfl more ?_
      intro c a same waiting
      cases Option.some.inj same
      rw [result] at checked
      have completed := ((anchored t.conn.client).checked inv distinct mine checked).1 rfl
      exact absurd waiting completed.not_waiting
  | chosen a place c choice =>
      refine served.sending_update (some _) rfl more ?_
      intro c' a' same _
      cases Option.some.inj same
      rw [place] at held
      exact held.2.2
  | unregistered | inprogress | sent =>
      exact served.sending_update (t := t) none rfl more nofun
  | _ =>
      refine served.sending_update (some _) rfl more ?_
      intro c a same
      cases Option.some.inj same

/-- A new xid that no request acknowledges keeps its entry. -/
theorem Served.entries_dispatched (served : Served nonce s) (inv : Inv nonce s)
    (distinct : Function.Injective nonce) {id : Nat} {t : Thread ι Local}
    (current : s.server.threads id = some t) {service : Service σ Local}
    {server : Server ι σ Local} {sent : Option (Message ι)}
    (step : Server.Dispatched service s.server id t server sent) (c : ι) (x : Nat)
    (isNew : (nonce c, x) ∈ server.news) (unacknowledged : ∀ r ∈ s.issued c, r.xidRep ≤ x) :
    ∃ e ∈ server.replyWindow (nonce c), e.xid = x := by
  have stays (old : (nonce c, x) ∈ s.server.news) :
      ∃ e ∈ server.replyWindow (nonce c), e.xid = x := by
    rcases served.entries c x old unacknowledged with ⟨e, present, rfl⟩
    exact inv.entry_dispatched current step distinct present unacknowledged
  cases step.windowStep with
  | same _ news => exact stays (news ▸ isNew)
  | recorded _ _ news => exact stays (news ▸ isNew)
  | checked place stat window result windows _ grown =>
      rcases grown _ isNew with old | ⟨key, rfl⟩
      · exact stays old
      · have checked := checkduplicateAndUpdate_classified t.req.xid t.req.xidRep
          (inv.server.windows.ascending t.req.cltNonce)
        rw [result] at checked
        rw [Request.key, Prod.mk.injEq] at key
        rw [windows, key.1, Function.update_self]
        exact ⟨_, checked.new_mem, key.2.symm⟩

/-! ## A step of the system -/

variable [DecidableEq ι] {service : Service σ Local} {srvNonce : Nat}

/-- A client takes a step after which no other calls of before wait. -/
theorem Served.setClient (served : Served nonce s) (inv : Inv nonce s) {c : ι} {cl : Client}
    (kept : cl.Served s.Produced fun x => (nonce c, x) ∈ s.server.news)
    (grown : (s.clients c).issued ⊆ cl.issued)
    (waits : ∀ r ∈ s.issued c, cl.Waiting r.xid → (s.clients c).Waiting r.xid) :
    Served nonce (s.setClient c cl) := by
  have before {other : ι} {r : Request} (issued : r ∈ s.issued other)
      (waiting : ((s.setClient c cl).clients other).Waiting r.xid) :
      (s.clients other).Waiting r.xid :=
    forall_setClient (fun other cl => ∀ r ∈ s.issued other, cl.Waiting r.xid →
      (s.clients other).Waiting r.xid) waits (fun _ _ _ => id) other r issued waiting
  refine ⟨?_, ?_, served.sender, ?_, ?_⟩
  · exact forall_setClient (fun other cl => cl.Served s.Produced
      fun x => (nonce other, x) ∈ s.server.news) kept served.clients
  · intro other x isNew unacknowledged
    apply served.entries other x isNew
    intro r member
    exact unacknowledged r (issued_setClient grown other member)
  · intro m sent waiting
    exact served.replies m sent (before (inv.replies m sent).1 waiting)
  · intro id t c' a found place waiting
    have held := inv.server.threads.pcs id t found
    rw [place] at held
    exact served.sending id t c' a found place (before held.1 waiting)

theorem Served.step (served : Served nonce s) (inv : Inv nonce s) (traced : Traced nonce s)
    (anchored : ∀ c, Anchored nonce s c) (distinct : Function.Injective nonce)
    (patient : Patient s action) (step : Stepped nonce service s action next) :
    Served nonce next := by
  cases step with
  | call c proc payload cl done =>
      have own := inv.clients c
      apply served.setClient inv ((served.clients c).call1 own patient.2 done)
      · rcases Client.call1_eq done with ⟨_, _, rfl⟩
        exact List.subset_append_left _ _
      · rcases Client.call1_eq done with ⟨_, _, rfl⟩
        exact fun r member => (Client.waiting_register (own.range r member).2).mp
  | transmit =>
      exact ⟨served.clients, served.entries, served.sender, served.replies, served.sending⟩
  | gotReply c m sent dest =>
      subst dest
      rcases inv.replies m sent with ⟨cause, genuine⟩
      have own := inv.clients m.dest
      apply served.setClient inv ((served.clients m.dest).gotPdu own ?_)
      · rw [Client.issued_gotPdu]
        exact List.Subset.refl _
      · exact fun r member waiting => (own.waiting_gotPdu waiting).2
      · intro r member same waiting
        rw [genuine.xid] at waiting
        rw [own.unique r member _ cause (same.trans genuine.xid)]
        have produced := (served.replies m sent waiting).result
        exact ⟨produced, inv.new_of_produced produced cause⟩
  | finish c number cl done =>
      have own := inv.clients c
      apply served.setClient inv ((served.clients c).finish own patient done)
      · rw [(Client.finish_histories done).1]
        exact List.Subset.refl _
      · exact fun r member waiting => (own.waiting_finish done waiting).2
  | bind c ret cl done =>
      have own := inv.clients c
      apply served.setClient inv ((served.clients c).bind own ?_ done)
      · rcases Client.bind_eq done with ⟨_, _, _, rfl⟩
        exact List.Subset.refl _
      · exact fun r member => (Client.bind_settles done).waiting r.xid
      · exact fun r ret payload produced issued => inv.new_of_produced produced issued
  | cancel => exact patient.elim
  | gotRequest id conn req server sent done =>
      rcases Server.gotPdu_eq done with ⟨_, rfl⟩
      refine ⟨served.clients, served.entries, served.sender, served.replies, ?_⟩
      intro id' t c a found place
      rcases slot_filled found with ⟨_, rfl⟩ | ⟨_, before⟩
      · contradiction
      · exact served.sending id' t c a before place
  | dispatch id choice isdead server sent t current done =>
      have more := done.finished_subset
      have news : s.server.news ⊆ server.news := by
        cases done.windowStep with
        | same _ news | recorded _ _ news =>
            rw [news]
            exact List.Subset.refl _
        | checked _ _ _ _ _ kept => exact kept
      refine ⟨?_, served.entries_dispatched inv distinct current done, ?_, ?_,
        served.sending_dispatched inv traced anchored distinct current done⟩
      · exact fun c => (served.clients c).mono (fun _ _ _ produced => more produced)
          fun _ isNew => news isNew
      · intro m member
        rcases List.mem_append.mp member with old | isNew
        · exact (served.sender m old).trans done.nonce_eq.symm
        · exact (traced.server.sent current done m (by simpa using isNew)).2.2.trans
            done.nonce_eq.symm
      · intro m member waiting
        rcases List.mem_append.mp member with old | isNew
        · exact (served.replies m old waiting).mono more
        · cases done with
          | sent c a place =>
              cases List.mem_singleton.mp isNew
              exact served.sending id t c a current place waiting
          | _ => contradiction

/-- What holds in every run of clients that wait for their replies. -/
theorem reachable_served (distinct : Function.Injective nonce) (nonzero : ∀ c, nonce c ≠ 0)
    (small : srvNonce < 2 ^ 31)
    (reachable : (machine nonce service srvNonce).ReachableUnder Patient s) :
    Inv nonce s ∧ Served nonce s := by
  have all : (Inv nonce s ∧ Traced nonce s) ∧ (∀ c, Anchored nonce s c) ∧ Served nonce s := by
    apply reachable.invariant fun s =>
      (Inv nonce s ∧ Traced nonce s) ∧ (∀ c, Anchored nonce s c) ∧ Served nonce s
    · refine ⟨⟨initial_inv nonce service srvNonce, Instances.initial_traced small⟩, fun c => ?_,
        initial_served service srvNonce⟩
      left
      rintro number ⟨ca, current, _⟩
      contradiction
    · rintro state action next _ ⟨⟨inv, traced⟩, anchored, served⟩ patient taken
      have step := step_cases taken
      have anchors := served.anchors inv patient step
      refine ⟨⟨inv.step distinct nonzero patient.fewCalls taken, traced.step ?_ step⟩,
        fun c => (anchored c).step inv distinct anchors step,
        served.step inv traced anchored distinct patient step⟩
      exact fun c c' same _ => distinct same
  exact ⟨all.1.1, all.2.2⟩

end System

end YfsRpc.Rpc
