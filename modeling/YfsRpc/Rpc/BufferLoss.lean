import YfsRpc.Rpc.BufferSafety

/-! # Buffers that are lost

The trim does not ask whether the handler of a request has returned. If the entry of a
request is trimmed before, `add_reply` has no place for the reply, and its buffer is in no
entry and never freed.
-/

namespace YfsRpc.Rpc

namespace ReplyBuffers

/-- Every buffer that was passed to `add_reply` is in one entry or freed once, and freed
once with the whole window. -/
structure Accounted (s : ReplyBuffers) : Prop where
  once : ∀ b ∈ s.recorded, s.stored b + s.freed b = 1
  destroyed : s.destroyed = true → ∀ b ∈ s.recorded, s.freed b = 1

/-- Between `NEW` and the end of `add_reply`. -/
def executing : BufferPc → Bool
  | .handling | .replying _ => true
  | _ => false

/-- The thread executes a request of the client with an xid below the bound. -/
def ExecutesBelow (cltNonce bound : Nat) (u : BufferThread) : Prop :=
  u.req.cltNonce = cltNonce ∧ u.req.xid < bound ∧ executing u.pc = true

instance (cltNonce bound : Nat) (u : BufferThread) : Decidable (ExecutesBelow cltNonce bound u) := by
  unfold ExecutesBelow
  infer_instance

/-- When a request is checked, no request that it acknowledges is still executed. -/
def Answered (s : ReplyBuffers) : Action → Prop
  | .dispatch id => ∀ t ∈ s.threads.held id, t.pc = .checking →
      ∀ other ∈ s.threads.keys, ∀ u ∈ s.threads.held other,
        ¬ ExecutesBelow t.req.cltNonce t.req.xidRep u
  | _ => True

instance (s : ReplyBuffers) (action : Action) : Decidable (Answered s action) :=
  match action with
  | .dispatch id => inferInstanceAs (Decidable (∀ t ∈ s.threads.held id, t.pc = .checking →
      ∀ other ∈ s.threads.keys, ∀ u ∈ s.threads.held other,
        ¬ ExecutesBelow t.req.cltNonce t.req.xidRep u))
  | .gotPdu .. | .destroy => .isTrue trivial

structure Entered (s : ReplyBuffers) : Prop where
  /-- the request waits in the window for its reply -/
  entry : ∀ id t, s.threads.held id = some t → t.req.cltNonce ≠ 0 → executing t.pc = true →
    ∃ e ∈ s.window t.req.cltNonce, e.xid = t.req.xid ∧ e.buf = none
  unique : ∀ id id' t t', s.threads.held id = some t → s.threads.held id' = some t' →
    executing t.pc = true → executing t'.pc = true → t.req.cltNonce ≠ 0 →
    t'.req.cltNonce = t.req.cltNonce → t'.req.xid = t.req.xid → id' = id
  full : ∀ b, s.load b = s.budget b
  recorded : ∀ b ∈ s.recorded, b < s.taken ∧ s.owned b = 0
  ended : s.destroyed = true → s.threads.keys = ∅ ∧ ∀ b, s.stored b = 0

variable {registered : Nat → Bool} {s next : ReplyBuffers} {id b : Nat} {t : BufferThread}
  {action : Action}

theorem initial_entered (nonce : Nat) : Entered ({ nonce } : ReplyBuffers) where
  entry _ _ held := nomatch held
  unique _ _ _ _ held := nomatch held
  full _ := rfl
  recorded _ member := nomatch member
  ended closed := nomatch closed

theorem accounted_of_entered (inv : Entered s) : s.Accounted := by
  have once : ∀ b ∈ s.recorded, s.stored b + s.freed b = 1 := by
    intro b member
    rcases inv.recorded b member with ⟨taken, unowned⟩
    have full := inv.full b
    unfold load budget at full
    rw [if_pos taken] at full
    omega
  refine ⟨once, fun closed b member => ?_⟩
  have empty := (inv.ended closed).2 b
  have balance := once b member
  omega

theorem Entered.keeps (inv : Entered s) (action : Action) : Keeps s action := by
  cases action with
  | gotPdu | destroy => trivial
  | dispatch id =>
      intro t b held place nonzero
      exact inv.entry id t held nonzero (by simp [executing, place])

/-! ## Steps -/

/-- The check of another thread trims no entry that waits for its reply. -/
theorem Answered.untrimmed {u : BufferThread} {other : Nat} (answered : Answered s (.dispatch id))
    (held : s.threads.held id = some t) (checking : t.pc = .checking)
    (held' : s.threads.held other = some u) (executes : executing u.pc = true)
    (client : u.req.cltNonce = t.req.cltNonce) : t.req.xidRep ≤ u.req.xid := by
  by_contra small
  have key : other ∈ s.threads.keys := (s.threads.mem_keys other).mpr (by simp [held'])
  exact answered t held checking other key u held' ⟨client, Nat.lt_of_not_le small, executes⟩

theorem Entered.entry_stays {u : BufferThread} {other : Nat} (inv : Entered s)
    (ledger : Ledger s) (answered : Answered s action)
    (taken : s.step registered action = some next) (held : s.threads.held other = some u)
    (nonzero : u.req.cltNonce ≠ 0) (executes : executing u.pc = true)
    (waits : action ≠ .dispatch other) :
    ∃ e ∈ next.window u.req.cltNonce, e.xid = u.req.xid ∧ e.buf = none := by
  rcases inv.entry other u held nonzero executes with ⟨e, member, same, empty⟩
  refine ⟨e, ?_, same, empty⟩
  cases windowStep taken with
  | same windows =>
      rw [windows]
      exact member
  | checked id t acting held' place windows =>
      rw [windows]
      by_cases here : u.req.cltNonce = t.req.cltNonce
      · have stays := (acting ▸ answered).untrimmed held' place held executes here
        rw [here] at member ⊢
        rw [Function.update_self]
        exact (checkduplicateAndUpdate_classified _ _ (ledger.ascending _)).keeps
          (mem_trim.mpr ⟨member, same ▸ stays⟩)
      · rw [Function.update_of_ne here]
        exact member
  | recorded id t b acting held' place positive windows =>
      rw [windows]
      by_cases here : u.req.cltNonce = t.req.cltNonce
      · have differs : e.xid ≠ t.req.xid := by
          intro equal
          have twice := inv.unique id other t u held' held (by simp [executing, place]) executes
            positive here (same.symm.trans equal)
          exact waits (twice ▸ acting)
        rw [here] at member ⊢
        rw [Function.update_self]
        exact addReply_keeps member differs
      · rw [Function.update_of_ne here]
        exact member
  | destroyed gone _ =>
      rw [Holders.keys_eq_empty.mp gone other] at held
      contradiction

/-- A request that begins to be executed is entered, and is not executed by another thread. -/
theorem Entered.new {u : BufferThread} (inv : Entered s) (registered : Nat → Bool)
    (ledger : Ledger s)
    (answered : Answered s (.dispatch id)) (held : s.threads.held id = some t)
    (place : t.pc = .checking)
    (goes : some u = classified t
      (checkduplicateAndUpdate (s.window t.req.cltNonce) t.req.xid t.req.xidRep).1)
    (executes : executing u.pc = true) :
    u.req = t.req ∧
    (∃ e ∈ (s.dispatch registered id t).window t.req.cltNonce,
      e.xid = t.req.xid ∧ e.buf = none) ∧
    ∀ other w, s.threads.held other = some w → executing w.pc = true →
      w.req.cltNonce = t.req.cltNonce → w.req.xid ≠ t.req.xid := by
  have windows := window_checking registered s id place
  have ascending := ledger.ascending t.req.cltNonce
  have found := checkduplicateAndUpdate_classified t.req.xid t.req.xidRep ascending
  have nonzero := ledger.tracked id t held (Or.inr place)
  rcases result : checkduplicateAndUpdate (s.window t.req.cltNonce) t.req.xid t.req.xidRep
    with ⟨state, w⟩
  rw [result] at windows found goes
  cases state with
  | inprogress => contradiction
  | done | forgotten =>
      cases goes
      contradiction
  | new =>
      cases goes
      refine ⟨rfl, ⟨{ xid := t.req.xid }, ?_, rfl, rfl⟩, ?_⟩
      · rw [windows, Function.update_self]
        exact found.new_mem
      · intro other w held' executes' client same
        rcases inv.entry other w held' (client ▸ nonzero) executes' with ⟨e, member, equal, _⟩
        have stays := answered.untrimmed held place held' executes' client
        rw [client] at member
        exact found.of_new.2.1 e (mem_trim.mpr ⟨member, equal ▸ stays⟩) (equal.trans same)

/-- Why a request is being executed after a step: it was, its handler has just returned, or
it has just been found to be new. -/
inductive Executes (s : ReplyBuffers) (action : Action) (other : Nat) (u : BufferThread) : Prop
  | before (held : s.threads.held other = some u) (waits : action ≠ .dispatch other)
  | returned (t : BufferThread) (acting : action = .dispatch other)
      (held : s.threads.held other = some t) (place : t.pc = .handling) (same : u.req = t.req)
  | new (t : BufferThread) (acting : action = .dispatch other)
      (held : s.threads.held other = some t) (place : t.pc = .checking)
      (goes : some u = classified t
        (checkduplicateAndUpdate (s.window t.req.cltNonce) t.req.xid t.req.xidRep).1)

theorem executes_cases {u : BufferThread} {other : Nat}
    (taken : s.step registered action = some next) (held : next.threads.held other = some u)
    (executes : executing u.pc = true) (nonzero : u.req.cltNonce ≠ 0) :
    Executes s action other u := by
  cases came taken held with
  | stayed before waits => exact .before before waits
  | arrived here =>
      rw [here] at executes
      contradiction
  | moved t acting before goes =>
      generalize gone : some u = v at goes
      cases goes with
      | left => contradiction
      | refused | tracked | created | replied =>
          cases gone
          contradiction
      | untracked _ zero =>
          cases gone
          contradiction
      | returned place =>
          cases gone
          exact .returned t acting before place rfl
      | checked place => exact .new t acting before place gone

/-- A request that is not new was executed before. -/
theorem Executes.known {u : BufferThread} {other : Nat} (cause : Executes s action other u)
    (executes : executing u.pc = true) :
    (∃ t, s.threads.held other = some t ∧ executing t.pc = true ∧ u.req = t.req) ∨
      ∃ t, action = .dispatch other ∧ s.threads.held other = some t ∧ t.pc = .checking ∧
        some u = classified t
          (checkduplicateAndUpdate (s.window t.req.cltNonce) t.req.xid t.req.xidRep).1 := by
  cases cause with
  | before held => exact Or.inl ⟨u, held, executes, rfl⟩
  | returned t _ held place same => exact Or.inl ⟨t, held, by simp [executing, place], same⟩
  | new t acting held place goes => exact Or.inr ⟨t, acting, held, place, goes⟩

/-- A buffer is passed to `add_reply` by the thread that owns it. -/
theorem recorded_cases (taken : s.step registered action = some next) :
    next.recorded = s.recorded ∨
      ∃ id t b, action = .dispatch id ∧ s.threads.held id = some t ∧ t.pc = .replying b ∧
        t.req.cltNonce ≠ 0 ∧ next.recorded = s.recorded ++ [b] := by
  cases action with
  | gotPdu id req =>
      simp only [step] at taken
      split at taken
      · cases taken
        exact Or.inl rfl
      · contradiction
  | dispatch id =>
      rcases Option.map_eq_some_iff.mp taken with ⟨t, held, rfl⟩
      cases place : t.pc with
      | received =>
          rcases check_eq registered s id place with ⟨v, same, _⟩
          left
          simp only [dispatch, place, same]
      | checking =>
          simp only [dispatch, place, classify_eq]
          exact Or.inl rfl
      | creating | handling =>
          simp only [dispatch, place]
          exact Or.inl rfl
      | replying b =>
          by_cases zero : t.req.cltNonce = 0
          · simp only [dispatch, place, record, if_neg (Nat.not_lt.mpr (Nat.le_of_eq zero))]
            exact Or.inl rfl
          · refine Or.inr ⟨id, t, b, rfl, held, place, zero, ?_⟩
            simp only [dispatch, place, record_eq zero]
      | sending b =>
          simp only [dispatch, place]
          split <;> exact Or.inl rfl
  | destroy =>
      simp only [step] at taken
      split at taken
      · cases taken
        exact Or.inl rfl
      · contradiction

theorem destroyed_dispatch (registered : Nat → Bool) (s : ReplyBuffers) (id : Nat)
    (t : BufferThread) : (s.dispatch registered id t).destroyed = s.destroyed := by
  cases place : t.pc with
  | received =>
      rcases check_eq registered s id place with ⟨v, same, _⟩
      simp only [dispatch, place, same]
  | checking =>
      simp only [dispatch, place, classify_eq]
      rfl
  | creating | handling =>
      simp only [dispatch, place]
      rfl
  | replying b =>
      simp only [dispatch, place, record]
      split <;> rfl
  | sending b =>
      simp only [dispatch, place]
      split <;> rfl

/-- Nothing goes on after the end. -/
theorem Entered.ended_step (inv : Entered s) (taken : s.step registered action = some next)
    (closed : next.destroyed = true) : next.threads.keys = ∅ ∧ ∀ b, next.stored b = 0 := by
  cases action with
  | gotPdu id req =>
      simp only [step] at taken
      split at taken
      · next free =>
          cases taken
          rw [free.2] at closed
          contradiction
      · contradiction
  | dispatch id =>
      rcases Option.map_eq_some_iff.mp taken with ⟨t, held, rfl⟩
      rw [destroyed_dispatch] at closed
      rw [Holders.keys_eq_empty.mp (inv.ended closed).1 id] at held
      contradiction
  | destroy =>
      simp only [step] at taken
      split at taken
      · next idle =>
          cases taken
          exact ⟨idle.1, fun _ => rfl⟩
      · contradiction

theorem Entered.step (inv : Entered s) (ledger : Ledger s) (answered : Answered s action)
    (taken : s.step registered action = some next) : Entered next := by
  constructor
  · intro other u held nonzero executes
    cases executes_cases taken held executes nonzero with
    | before held' waits => exact inv.entry_stays ledger answered taken held' nonzero executes waits
    | returned t acting held' place same =>
        subst acting
        rw [same] at nonzero ⊢
        rw [next_eq_dispatch held' taken]
        simp only [dispatch, place]
        exact inv.entry other t held' nonzero (by simp [executing, place])
    | new t acting held' place goes =>
        subst acting
        rcases inv.new registered ledger answered held' place goes executes with
          ⟨same, entered, _⟩
        rw [same, next_eq_dispatch held' taken]
        exact entered
  · intro id id' u u' held held' executes executes' nonzero client same
    have nonzero' : u'.req.cltNonce ≠ 0 := client ▸ nonzero
    rcases (executes_cases taken held executes nonzero).known executes with
      ⟨t, before, executing, req⟩ | ⟨t, acting, before, place, goes⟩ <;>
    rcases (executes_cases taken held' executes' nonzero').known executes' with
      ⟨t', before', executing', req'⟩ | ⟨t', acting', before', place', goes'⟩
    · rw [req] at nonzero client same
      rw [req'] at client same
      exact inv.unique id id' t t' before before' executing executing' nonzero client same
    · subst acting'
      rcases inv.new registered ledger answered before' place' goes' executes' with
        ⟨req', _, alone⟩
      rw [req, req'] at client same
      exact absurd same.symm (alone id t before executing client.symm)
    · subst acting
      rcases inv.new registered ledger answered before place goes executes with
        ⟨req, _, alone⟩
      rw [req, req'] at client same
      exact absurd same (alone id' t' before' executing' client)
    · subst acting
      cases acting'
      rfl
  · intro b
    rcases ledger.flow taken b with ⟨lost, flow, kept⟩
    have before := inv.full b
    have none := kept (inv.keeps action)
    omega
  · intro b member
    have older : b ∈ s.recorded → b < next.taken ∧ next.owned b = 0 := by
      intro old
      rcases inv.recorded b old with ⟨before, unowned⟩
      exact ⟨Nat.lt_of_lt_of_le before (taken_mono taken),
        ledger.unowned_step before unowned taken⟩
    rcases recorded_cases taken with same | ⟨id, t, d, acting, held, place, nonzero, added⟩
    · exact older (same ▸ member)
    · rw [added] at member
      rcases List.mem_append.mp member with old | last
      · exact older old
      · cases List.mem_singleton.mp last
        have shared := shared_replied ledger acting held place nonzero taken
        exact ⟨shared.taken, shared.unowned⟩
  · exact inv.ended_step taken

/-! ## Runs -/

theorem reachable_entered {nonce : Nat}
    (reachable : (machine registered nonce).ReachableUnder Answered s) :
    Ledger s ∧ Entered s :=
  reachable.invariant (fun s => Ledger s ∧ Entered s)
    ⟨initial_ledger nonce, initial_entered nonce⟩
    fun _ _ _ _ inv answered taken => ⟨inv.1.step taken, inv.2.step inv.1 answered taken⟩

/-- No buffer is lost in a run whose checks acknowledge only requests that are answered. -/
theorem recorded_accounted {nonce : Nat}
    (reachable : (machine registered nonce).ReachableUnder Answered s) : s.Accounted :=
  accounted_of_entered (reachable_entered reachable).2

/-- The reply to the call 2 is trimmed, those to 3 and 4 are freed at the end; a duplicate of
2 finds it being executed, another finds it forgotten. -/
def acknowledged : List Action :=
  [.gotPdu 0 (callOf 2 1), .dispatch 0, .dispatch 0, .dispatch 0, .gotPdu 1 (callOf 2 1),
    .dispatch 1, .dispatch 1, .dispatch 1, .dispatch 0, .dispatch 0, .dispatch 0,
    .gotPdu 0 (callOf 3 2), .dispatch 0, .dispatch 0, .dispatch 0, .dispatch 0, .dispatch 0,
    .gotPdu 1 (callOf 4 3), .dispatch 1, .dispatch 1, .dispatch 1, .dispatch 1, .dispatch 0,
    .dispatch 1, .dispatch 1, .gotPdu 0 (callOf 2 1), .dispatch 0, .dispatch 0, .dispatch 0,
    .dispatch 0, .destroy]

theorem recorded_accounted_acknowledged :
    ∃ s, (machine (· == 2) 5).ReachableUnder Answered s ∧ s.recorded = [0, 1, 2] ∧
      s.destroyed = true ∧ s.Accounted := by
  have run : (((machine (· == 2) 5).restrict Answered).run
      (machine (· == 2) 5).initial acknowledged).map
        (fun s => (s.recorded, s.destroyed)) = some ([0, 1, 2], true) := by decide +kernel
  rcases Option.map_eq_some_iff.mp run with ⟨s, taken, result⟩
  simp only [Prod.mk.injEq] at result
  have reachable := Machine.reachableUnder_of_run taken
  exact ⟨s, reachable, result.1, result.2, recorded_accounted reachable⟩

/-- The client gives up the call 2, gets the reply to 3, and acknowledges both with the
call 4, while the handler of 2 is running. -/
def slowHandler : List Action :=
  [.gotPdu 0 (callOf 2 1), .dispatch 0, .dispatch 0, .dispatch 0, .gotPdu 1 (callOf 3 1),
    .dispatch 1, .dispatch 1, .dispatch 1, .dispatch 1, .dispatch 1, .dispatch 1,
    .gotPdu 1 (callOf 4 3), .dispatch 1, .dispatch 1, .dispatch 1, .dispatch 1, .dispatch 1,
    .dispatch 1, .dispatch 0, .dispatch 0, .dispatch 0, .destroy]

theorem slowHandler_not_accounted :
    ¬ ∀ s, (machine (· == 2) 5).Reachable s → s.Accounted := by
  intro always
  have run : ((machine (· == 2) 5).run (machine (· == 2) 5).initial slowHandler).map
      (fun s => (s.recorded, s.destroyed, s.freed 2)) = some ([0, 1, 2], true, 0) := by
    decide +kernel
  rcases Option.map_eq_some_iff.mp run with ⟨s, taken, result⟩
  simp only [Prod.mk.injEq] at result
  rcases result with ⟨recorded, closed, unfreed⟩
  have freed := (always s (Machine.reachable_of_run taken)).destroyed closed 2 (by simp [recorded])
  omega

end ReplyBuffers

end YfsRpc.Rpc
