import YfsRpc.Rpc.ServerBalance

/-! # The connection a reply is sent on

After the handler has returned, `dispatch` looks for a newer connection in `conns_` if
its own one is dead. Clients with at-most-once logic have an entry there from before
their handlers run; clients with the nonce zero have none.
-/

namespace YfsRpc.Rpc

namespace ServerConns

/-- The threads of `dispatch` that have a connection have references to it: it was not
deleted, and their references are counted in its `refno_`. -/
def Holds (s : ServerConns) (c : Nat) : Prop :=
  c < s.table.created ∧ s.table.deleted c = 0 ∧
    (s.threads.tally fun t => t.conn == c) ≤ s.table.refno c

/-- The choice gives the thread a connection to send its reply on. -/
def Replies (registered : Nat → Bool) (s : ServerConns) (id : Nat) (stat : RpcState Unit) :
    Prop :=
  ∃ next t, s.step registered (.dispatch id stat) = some next ∧
    next.threads.held id = some t ∧ t.phase = .sending ∧ next.Holds t.conn

/-- The server is still reachable when `got_pdu` has enqueued a job. -/
def LooksReachable (s : ServerConns) : Action → Prop
  | .recheck => s.reachable = true
  | _ => True

instance (s : ServerConns) (action : Action) : Decidable (LooksReachable s action) := by
  unfold LooksReachable
  split <;> infer_instance

/-! ## Clients in `conns_` -/

/-- A thread past the update of `conns_` finds its client there, unless the client has
the nonce zero. -/
def Served (conns : Holders Nat Nat) (t : JobThread) : Prop :=
  ∀ r, t.pdu = some r →
    match t.phase with
    | .saving => r.cltNonce ≠ 0
    | .checking | .executing | .choosing => r.cltNonce ≠ 0 → conns.held r.cltNonce ≠ none
    | _ => True

structure Known (conns : Holders Nat Nat) (threads : Holders Nat JobThread) : Prop where
  zero : conns.held 0 = none
  served : ∀ id t, threads.held id = some t → Served conns t

variable {s next : ServerConns} {conns : Holders Nat Nat} {threads : Holders Nat JobThread}
  {id c n : Nat} {t : JobThread} {leaked : Nat → Nat} {registered : Nat → Bool}

theorem Known.empty : Known .empty .empty where
  zero := rfl
  served _ _ held := nomatch held

theorem Known.set (known : Known conns threads) (served : Served conns t) :
    Known conns (threads.set id (some t)) where
  zero := known.zero
  served other u held := by
    rcases Holders.held_set_some held with ⟨-, rfl⟩ | ⟨-, before⟩
    · exact served
    · exact known.served other u before

theorem Known.clear (known : Known conns threads) : Known conns (threads.set id none) where
  zero := known.zero
  served other u held := known.served other u (Holders.held_set_none held).2

/-- An entry more makes no entry less. -/
theorem held_set_ne_none (some : conns.held n ≠ none) (k : Nat) :
    (conns.set k (.some c)).held n ≠ none := by
  by_cases here : n = k
  · subst here
    rw [Holders.held_set_self]
    exact Option.some_ne_none c
  · rw [Holders.held_set_of_ne here]
    exact some

theorem Known.save (known : Known conns threads) (nonzero : n ≠ 0) :
    Known (conns.set n (some c)) threads where
  zero := by
    rw [Holders.held_set_of_ne nonzero.symm]
    exact known.zero
  served other u held r pdu := by
    have served := known.served other u held r pdu
    cases phase : u.phase with
    | received | sending | leaving => trivial
    | saving =>
        rw [phase] at served
        exact served
    | checking | executing | choosing =>
        rw [phase] at served
        exact fun nonzero => held_set_ne_none (served nonzero) n

theorem Known.check (known : Known s.conns s.threads)
    (taken : s.check registered id t = some next) : Known next.conns next.threads := by
  unfold ServerConns.check at taken
  split at taken
  · rcases Option.map_eq_some_iff.mp taken with ⟨table, -, rfl⟩
    exact known.clear
  · next r pdu =>
      split at taken
      · cases taken
        exact known.clear
      · split at taken
        · rcases Option.map_eq_some_iff.mp taken with ⟨table, -, rfl⟩
          exact known.clear
        · split at taken
          · next nonzero =>
              cases taken
              refine known.set fun r' pdu' => ?_
              rcases Option.some.inj (pdu.symm.trans pdu') with rfl
              exact nonzero
          · next zero =>
              cases taken
              refine known.set fun r' pdu' nonzero => ?_
              rcases Option.some.inj (pdu.symm.trans pdu') with rfl
              exact absurd nonzero zero

theorem Known.saveConn (known : Known s.conns s.threads) {r : Request} (pdu : t.pdu = some r)
    (nonzero : r.cltNonce ≠ 0) (taken : s.saveConn id t r.cltNonce = some next) :
    Known next.conns next.threads := by
  have saved : Known (s.conns.set r.cltNonce (some t.conn))
      (s.threads.set id (some { t with phase := .checking })) := by
    refine (known.save nonzero).set fun r' pdu' _ => ?_
    rcases Option.some.inj (pdu.symm.trans pdu') with rfl
    rw [Holders.held_set_self]
    exact Option.some_ne_none _
  unfold ServerConns.saveConn at taken
  split at taken
  · cases taken
    exact saved
  · next old found =>
      dsimp only at taken
      split at taken
      · rcases Option.map_eq_some_iff.mp taken with ⟨table, -, rfl⟩
        exact saved
      · cases taken
        refine known.set fun r' pdu' _ => ?_
        rcases Option.some.inj (pdu.symm.trans pdu') with rfl
        rw [found]
        exact Option.some_ne_none old

theorem Known.chooseConn (known : Known s.conns s.threads)
    (taken : s.chooseConn id t n = some next) : Known next.conns next.threads := by
  unfold ServerConns.chooseConn at taken
  dsimp only at taken
  split at taken
  · split at taken
    · contradiction
    · rcases Option.map_eq_some_iff.mp taken with ⟨table, -, rfl⟩
      exact known.set fun _ _ => trivial
  · cases taken
    exact known.set fun _ _ => trivial

theorem Known.dispatch (known : Known s.conns s.threads) (held : s.threads.held id = some t)
    {stat : RpcState Unit} (taken : s.dispatch registered id t stat = some next) :
    Known next.conns next.threads := by
  have served := known.served id t held
  unfold ServerConns.dispatch at taken
  split at taken
  · exact known.check taken
  · next r phase pdu =>
      refine known.saveConn pdu ?_ taken
      have nonzero := served r pdu
      rw [phase] at nonzero
      exact nonzero
  · next phase =>
      cases stat with
      | new =>
          cases taken
          refine known.set fun r pdu => ?_
          have before := served r pdu
          rw [phase] at before
          exact before
      | inprogress | done | forgotten =>
          cases taken
          exact known.set fun _ _ => trivial
  · next phase =>
      cases taken
      refine known.set fun r pdu => ?_
      have before := served r pdu
      rw [phase] at before
      exact before
  · exact known.chooseConn taken
  · cases taken
    exact known.set fun _ _ => trivial
  · rcases Option.map_eq_some_iff.mp taken with ⟨table, -, rfl⟩
    exact known.clear
  · contradiction

theorem Known.step {action : Action} (known : Known s.conns s.threads)
    (taken : s.step registered action = some next) : Known next.conns next.threads := by
  cases action with
  | accept | die =>
      simp only [ServerConns.step] at taken
      split at taken
      · cases taken
        exact known
      · contradiction
  | setReachable r =>
      cases taken
      exact known
  | collect fd =>
      simp only [ServerConns.step] at taken
      split at taken
      · contradiction
      · split at taken
        · contradiction
        · cases taken
          exact known
  | close fd =>
      simp only [ServerConns.step] at taken
      split at taken
      · contradiction
      · rcases Option.map_eq_some_iff.mp taken with ⟨table, -, rfl⟩
        exact known
  | gotPdu c pdu =>
      simp only [ServerConns.step] at taken
      split at taken
      · unfold ServerConns.gotPdu at taken
        split at taken
        · dsimp only at taken
          split at taken
          · cases taken
            exact known
          · rcases Option.map_eq_some_iff.mp taken with ⟨table, -, rfl⟩
            exact known
        · cases taken
          exact known
      · contradiction
  | recheck =>
      simp only [ServerConns.step] at taken
      split at taken
      · contradiction
      · split at taken
        · cases taken
          exact known
        · rcases Option.map_eq_some_iff.mp taken with ⟨table, -, rfl⟩
          exact known
  | take id =>
      simp only [ServerConns.step] at taken
      split at taken
      · contradiction
      · split at taken
        · cases taken
          exact known.set fun _ _ => trivial
        · contradiction
  | dispatch id stat =>
      rcases Option.bind_eq_some_iff.mp taken with ⟨t, held, dispatched⟩
      exact known.dispatch held dispatched

/-! ## References of the threads -/

theorem Tracked.holds (inv : Tracked leaked s) (held : s.threads.held id = some t) :
    s.Holds t.conn := by
  have referenced := refs_thread held
  refine ⟨inv.lt_created referenced, inv.deleted_held referenced, ?_⟩
  rw [inv.counted.refno]
  unfold refs
  omega

/-- Whoever has a reference can give it up. -/
theorem Tracked.decref (inv : Tracked leaked s) (held : s.threads.held id = some t) :
    ∃ table, s.table.decref t.conn = some table := by
  have counted : s.table.refno t.conn ≠ 0 := by
    rw [inv.counted.refno]
    exact counted_ne (refs_thread held)
  unfold ConnTable.decref
  rw [inv.use_eq (refs_thread held)]
  dsimp only
  rw [if_neg counted]
  split
  · exact ⟨_, rfl⟩
  · exact ⟨_, rfl⟩

/-- The choice fails for a client without an entry whose connection is dead. -/
theorem chooseConn_none (dead : s.table.dead t.conn = true) (absent : s.conns.held n = none) :
    s.chooseConn id t n = none := by
  unfold ServerConns.chooseConn
  dsimp only
  rw [absent, if_pos ⟨dead, (Option.some_ne_none _).symm⟩]

theorem Tracked.chooseConn_some (inv : Tracked leaked s) (held : s.threads.held id = some t)
    (entry : s.table.dead t.conn = true → s.conns.held n ≠ none) :
    ∃ next t', s.chooseConn id t n = some next ∧ next.threads.held id = some t' ∧
      t'.phase = .sending := by
  unfold ServerConns.chooseConn
  rw [inv.use_eq (refs_thread held)]
  dsimp only
  split
  · next replaced =>
      rcases Option.ne_none_iff_exists'.mp (entry replaced.1) with ⟨c, found⟩
      rcases inv.decref held with ⟨table, released⟩
      rw [found, released]
      exact ⟨_, _, rfl, Holders.held_set_self _, rfl⟩
  · exact ⟨_, _, rfl, Holders.held_set_self _, rfl⟩

/-! ## Runs -/

/-- What holds after every step of a run in which `got_pdu` finds the server
reachable at its second look. -/
structure Serving (s : ServerConns) : Prop where
  tracked : ∃ leaked, Tracked leaked s
  jobs : Jobs s
  known : Known s.conns s.threads

theorem Serving.step {action : Action} (inv : Serving s) (looks : LooksReachable s action)
    (taken : s.step registered action = some next) : Serving next := by
  rcases inv.tracked with ⟨leaked, tracked⟩
  have reachable : action = .recheck → s.reachable = true := by
    rintro rfl
    exact looks
  rcases tracked.step inv.jobs reachable taken with ⟨⟨leaked', after, -⟩, jobs⟩
  exact ⟨⟨leaked', after⟩, jobs, inv.known.step taken⟩

theorem reachable_serving {nonce : Nat}
    (reachable : (machine registered nonce).ReachableUnder LooksReachable s) : Serving s := by
  apply reachable.invariant Serving
  · exact ⟨⟨_, references_iff.mp (initial_references nonce)⟩, initial_jobs nonce, Known.empty⟩
  · exact fun _ _ _ _ inv looks taken => inv.step looks taken

/-- The choice succeeds, with a connection the thread has a reference to, unless the
client has no entry in `conns_` and the connection is dead. -/
theorem Serving.replies_iff (inv : Serving s) (held : s.threads.held id = some t)
    (choosing : t.phase = .choosing) {r : Request} (pdu : t.pdu = some r) (stat : RpcState Unit) :
    Replies registered s id stat ↔ ¬ (r.cltNonce = 0 ∧ s.table.dead t.conn = true) := by
  rcases inv.tracked with ⟨leaked, tracked⟩
  have dispatched : s.step registered (.dispatch id stat) = s.chooseConn id t r.cltNonce := by
    simp only [ServerConns.step, held, Option.bind_some, ServerConns.dispatch, choosing, pdu]
  constructor
  · rintro ⟨next, t', taken, -⟩ ⟨zero, dead⟩
    rw [dispatched, zero, chooseConn_none dead inv.known.zero] at taken
    contradiction
  · intro usable
    have entry : s.table.dead t.conn = true → s.conns.held r.cltNonce ≠ none := by
      intro dead
      have served := inv.known.served id t held r pdu
      rw [choosing] at served
      exact served fun zero => usable ⟨zero, dead⟩
    rcases tracked.chooseConn_some held entry with ⟨next, t', taken, held', sending⟩
    exact ⟨next, t', dispatched.trans taken, held', sending,
      (tracked.chooseConn held taken).holds held'⟩

/-- In every run in which the server stays reachable between the two looks of `got_pdu`,
the threads of `dispatch` have references to their connections and may go on using them,
and a reply finds a connection exactly when its client does not have the nonce zero or
its own connection is alive. -/
theorem replies_have_connection {nonce : Nat}
    (reachable : (machine registered nonce).ReachableUnder LooksReachable s) :
    (∀ id t, s.threads.held id = some t → s.Holds t.conn) ∧
      (∀ id t r stat, s.threads.held id = some t → t.phase = .choosing → t.pdu = some r →
        (Replies registered s id stat ↔ ¬ (r.cltNonce = 0 ∧ s.table.dead t.conn = true))) ∧
      ∀ id t stat, s.threads.held id = some t → t.phase = .sending ∨ t.phase = .leaving →
        s.step registered (.dispatch id stat) ≠ none := by
  have inv := reachable_serving reachable
  rcases inv.tracked with ⟨leaked, tracked⟩
  refine ⟨?_, ?_, ?_⟩
  · exact fun id t held => tracked.holds held
  · exact fun id t r stat held choosing pdu => inv.replies_iff held choosing pdu stat
  · intro id t stat held after
    rcases tracked.decref held with ⟨table, released⟩
    rcases after with sending | leaving
    · simp [ServerConns.step, held, ServerConns.dispatch, sending]
    · simp [ServerConns.step, held, ServerConns.dispatch, leaving, released]

private def single (cltNonce : Nat) : Request :=
  { xid := 1, proc := 2, cltNonce, srvNonce := 0, xidRep := 0, payload := [] }

/-- A client without at-most-once logic calls, and its handler has returned. -/
def singleCall : List Action :=
  [.accept 3 10, .gotPdu 0 (some (single 0)), .recheck, .take 0, .dispatch 0 .new,
    .dispatch 0 .new]

theorem replies_have_connection_alive :
    ∃ s, (machine (· == 2) 5).ReachableUnder LooksReachable s ∧ Replies (· == 2) s 0 .new := by
  have run : (((machine (· == 2) 5).restrict LooksReachable).run
      (machine (· == 2) 5).initial singleCall).map
        (fun s => (s.threads.held 0, s.table.dead 0)) =
      some (some ⟨0, some (single 0), .choosing⟩, false) := by decide +kernel
  rcases Option.map_eq_some_iff.mp run with ⟨s, taken, found⟩
  rcases Prod.mk.inj found with ⟨held, alive⟩
  have reachable := Machine.reachableUnder_of_run taken
  refine ⟨s, reachable, ((replies_have_connection reachable).2.1 0 _ _ .new held rfl rfl).mpr ?_⟩
  rintro ⟨-, dead⟩
  exact Bool.false_ne_true (alive.symm.trans dead)

/-- The connection of such a client dies while its handler runs. -/
theorem singleCall_crashes :
    ¬ ∀ s, (machine (· == 2) 5).Reachable s → ∀ id t stat, s.threads.held id = some t →
      t.phase = .choosing → Replies (· == 2) s id stat := by
  intro always
  have run : ((machine (· == 2) 5).run (machine (· == 2) 5).initial (singleCall ++ [.die 0])).map
      (fun s => (s.threads.held 0, (s.step (· == 2) (.dispatch 0 .new)).isNone)) =
      some (some ⟨0, some (single 0), .choosing⟩, true) := by decide +kernel
  rcases Option.map_eq_some_iff.mp run with ⟨s, taken, found⟩
  rcases Prod.mk.inj found with ⟨held, stuck⟩
  rcases always s (Machine.reachable_of_run taken) 0 _ .new held rfl with ⟨next, t, stepped, -⟩
  rw [stepped] at stuck
  contradiction

end ServerConns

end YfsRpc.Rpc
