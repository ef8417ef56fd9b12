import YfsRpc.Rpc.AtMostOnce

/-! # Unacknowledged replies are retained

The server trims what a client has acknowledged, and a client acknowledges what
it waits for no more. So the entry of a new request stays in the window until
its call is completed, and it holds the reply as soon as that is recorded.
-/

namespace YfsRpc.Rpc

variable {ι σ Local : Type}

namespace Server

/-- What was recorded is in the entry for its xid, as long as there is one. -/
structure Retains (s : Server ι σ Local) : Prop where
  recorded : ∀ a ∈ s.recorded, a.cause ∈ s.begun ∧ Executed s.finished a
  held : ∀ a ∈ s.recorded, ∀ e ∈ s.replyWindow a.cause.cltNonce, e.xid = a.cause.xid →
    e.cbPresent = true ∧ e.buf = some a
  present : ∀ n, ∀ e ∈ s.replyWindow n, e.cbPresent = true → ∃ a ∈ s.recorded,
    a.cause.key = (n, e.xid)

variable {nonce : ι → Nat} {issued : ι → List Request} {s next : Server ι σ Local} {id : Nat}
  {t : Thread ι Local} {service : Service σ Local} {sent : Option (Message ι)}

theorem Dispatched.begun_subset (step : Dispatched service s id t next sent) :
    s.begun ⊆ next.begun := by
  cases step with
  | new | untracked => exact List.subset_append_left _ _
  | _ => exact List.Subset.refl _

/-- Two executions of one key are the same. -/
theorem Inv.executed_eq (inv : Inv nonce issued s) {a a' : Answer}
    (left : Executed s.finished a) (right : Executed s.finished a')
    (same : a.cause.key = a'.cause.key) : a = a' := by
  have begun (b : Answer) (executed : Executed s.finished b) : b.cause ∈ s.begun :=
    inv.history.returned _ executed.result
  have keys : (s.begun.map Request.key).Nodup := by
    rw [inv.history.keys]
    exact inv.history.news_nodup
  have cause := List.inj_on_of_nodup_map keys (begun a left) (begun a' right) same
  have execution := List.inj_on_of_nodup_map inv.history.once left.result right.result cause
  rcases a with ⟨request, ⟨xid, ret, payload⟩⟩
  rcases a' with ⟨request', ⟨xid', ret', payload'⟩⟩
  have xids : xid = xid' := by
    rw [show xid = request.xid from left.xid, show xid' = request'.xid from right.xid]
    exact congrArg Request.xid cause
  cases execution
  rw [xids]

theorem Retains.dispatched (retains : Retains s) (inv : Inv nonce issued s)
    (known : Issued nonce issued) (current : s.threads id = some t) (step : Dispatched service s id t next sent) :
    Retains next := by
  have older := known.xidRep _ _ (inv.threads.known id t current)
  have kept : ∀ a ∈ s.recorded, a.cause ∈ next.begun ∧ Executed next.finished a := by
    intro a member
    rcases retains.recorded a member with ⟨begun, executed⟩
    exact ⟨step.begun_subset begun, executed.mono step.finished_subset⟩
  cases step.windowStep with
  | same windows news recorded =>
      refine ⟨?_, ?_, ?_⟩
      · rw [recorded]
        exact kept
      · rw [recorded, windows]
        exact retains.held
      · rw [recorded, windows]
        exact retains.present
  | checked place stat window result windows moreNews grown new recorded =>
      have checked := checkduplicateAndUpdate_classified t.req.xid t.req.xidRep
        (inv.windows.ascending t.req.cltNonce)
      rw [result] at checked
      refine ⟨?_, ?_, ?_⟩
      · rw [recorded]
        exact kept
      · rw [recorded, windows]
        intro a member e found same
        rcases mem_checked checked found with old | ⟨here, rfl, isNew⟩
        · exact retains.held a member e old same
        · -- a request that was recorded is not new
          subst isNew
          have fresh := inv.windows.fresh_of_new older checked
          have begun := List.mem_map_of_mem (f := Request.key) (retains.recorded a member).1
          rw [inv.history.keys] at begun
          rw [Request.key, here, ← same] at begun
          exact absurd begun fresh
      · rw [recorded, windows]
        intro n e found isPresent
        rcases mem_checked checked found with old | ⟨_, rfl, _⟩
        · exact retains.present n e old isPresent
        · contradiction
  | @recorded a place windows news recorded =>
      have mine := inv.threads.pcs id t current
      rw [place] at mine
      rcases mine with ⟨cause, begun, executed⟩
      refine ⟨?_, ?_, ?_⟩
      · rw [recorded]
        intro b member
        rcases List.mem_append.mp member with old | new
        · exact kept b old
        · rw [List.mem_singleton.mp new, cause]
          exact ⟨step.begun_subset begun, executed.mono step.finished_subset⟩
      · rw [recorded, windows]
        intro b member e found same
        rcases mem_recorded inv.windows.ascending found with ⟨old, other⟩ | ⟨here, rfl, _⟩
        · rcases List.mem_append.mp member with before | new
          · exact retains.held b before e old same
          · rw [List.mem_singleton.mp new, cause] at same other
            rw [same] at other
            exact absurd rfl other
        · have equal : b = a := by
            rcases List.mem_append.mp member with before | new
            · apply inv.executed_eq (retains.recorded b before).2 executed
              rw [Request.key, Request.key, cause, here, ← same]
            · exact List.mem_singleton.mp new
          rw [equal]
          exact ⟨rfl, rfl⟩
      · rw [recorded, windows]
        intro n e found isPresent
        rcases mem_recorded inv.windows.ascending found with ⟨old, _⟩ | ⟨rfl, rfl, _⟩
        · rcases retains.present n e old isPresent with ⟨b, before, key⟩
          exact ⟨b, List.mem_append_left _ before, key⟩
        · refine ⟨a, List.mem_append_right _ (List.mem_singleton_self a), ?_⟩
          rw [cause]
          rfl

end Server

namespace System

variable {nonce : ι → Nat} {service : Service σ Local} {srvNonce : Nat} {s next : System ι σ Local}

/-- A new request has an entry until its call is completed. -/
structure Retained (nonce : ι → Nat) (s : System ι σ Local) : Prop where
  kept : ∀ c xid, (nonce c, xid) ∈ s.server.news →
    (∃ e ∈ s.server.replyWindow (nonce c), e.xid = xid) ∨ (s.clients c).Completed xid
  replies : s.server.Retains

theorem Retained.dispatch (retained : Retained nonce s) (inv : Inv nonce s)
    (distinct : Function.Injective nonce) {id : Nat} {t : Thread ι Local}
    (current : s.server.threads id = some t) {server : Server ι σ Local}
    {sent : Option (Message ι)} (step : Server.Dispatched service s.server id t server sent)
    {c : ι} {xid : Nat} (new : (nonce c, xid) ∈ server.news) :
    (∃ e ∈ server.replyWindow (nonce c), e.xid = xid) ∨ (s.clients c).Completed xid := by
  have mine := inv.server.threads.known id t current
  have own := inv.issued.cltNonce _ _ mine
  cases step.windowStep with
  | same windows news _ =>
      rw [windows]
      rw [news] at new
      exact retained.kept c xid new
  | checked place stat window result windows _ grown _ _ =>
      have checked := checkduplicateAndUpdate_classified t.req.xid t.req.xidRep
        (inv.server.windows.ascending t.req.cltNonce)
      rw [result] at checked
      rw [windows]
      by_cases here : nonce c = t.req.cltNonce
      · rw [here, Function.update_self]
        rcases grown _ new with old | ⟨key, isNew⟩
        · rcases retained.kept c xid old with ⟨e, present, same⟩ | completed
          · rw [here] at present
            by_cases acknowledged : t.req.xidRep ≤ e.xid
            · exact Or.inl ⟨e, checked.keeps (mem_trim.mpr ⟨present, acknowledged⟩), same⟩
            · -- the request acknowledges the xid
              right
              cases distinct (here.trans own)
              have below := ((inv.clients t.conn.client).xidRep _ mine).2
              rcases inv.issued_of_new distinct old with ⟨r, member, rXid⟩
              have range := (inv.clients t.conn.client).range r member
              exact (inv.clients t.conn.client).completed_of_le_front (by omega) (by omega)
          · exact Or.inr completed
        · subst isNew
          rw [Request.key, Prod.mk.injEq] at key
          exact Or.inl ⟨_, checked.new_mem, key.2.symm⟩
      · rw [Function.update_of_ne here]
        rcases grown _ new with old | ⟨key, _⟩
        · exact retained.kept c xid old
        · rw [Request.key, Prod.mk.injEq] at key
          exact absurd key.1 here
  | recorded place windows news _ =>
      rw [news] at new
      rw [windows]
      by_cases here : nonce c = t.req.cltNonce
      · rw [here, Function.update_self, exists_xid_addReply, ← here]
        exact retained.kept c xid new
      · rw [Function.update_of_ne here]
        exact retained.kept c xid new

variable [DecidableEq ι] {action : Action ι}

theorem Retained.step (retained : Retained nonce s) (inv : Inv nonce s)
    (distinct : Function.Injective nonce) (stepped : Stepped nonce service s action next) :
    Retained nonce next := by
  have completed {c : ι} {xid : Nat} (old : (s.clients c).Completed xid) :=
    inv.completed stepped old
  cases stepped with
  | dispatch id choice isdead server sent t current done =>
      exact ⟨fun c xid => retained.dispatch inv distinct current done,
        retained.replies.dispatched inv.server inv.issued current done⟩
  | gotRequest id conn req server sent done =>
      rcases Server.gotPdu_eq done with ⟨_, rfl⟩
      exact ⟨retained.kept, retained.replies.recorded, retained.replies.held,
        retained.replies.present⟩
  | call | transmit | gotReply | finish | bind | cancel =>
      refine ⟨?_, retained.replies⟩
      intro c xid new
      exact (retained.kept c xid new).imp_right completed

theorem reachable_retained (distinct : Function.Injective nonce) (nonzero : ∀ c, nonce c ≠ 0)
    (reachable : (machine nonce service srvNonce).ReachableUnder FewCalls s) :
    Retained nonce s := by
  apply reachable.invariant (Retained nonce)
  · exact ⟨nofun, nofun, nofun, nofun⟩
  · intro state action next before retained _ taken
    exact retained.step (reachable_inv distinct nonzero before) distinct (step_cases taken)

end System

end YfsRpc.Rpc
