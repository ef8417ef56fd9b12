import YfsRpc.Rpc.ServerConns

/-! # The references of a server

A reference that `got_pdu` takes for a job is given up at the end of `dispatch`, on
every path but one: a request for an old instance of the server is answered and its
reference kept. And a job that was enqueued belongs to the thread that takes it, but
`got_pdu` gives its reference up once more if the server has become unreachable since.
-/

namespace YfsRpc.Rpc

open ConnTable (Counted Gains)

namespace ServerConns

/-- The references to a connection: of the listener, of the clients whose latest one it
is, and of the jobs that are queued or being dispatched. -/
def refs (s : ServerConns) (c : Nat) : Nat :=
  (s.accepted.tally fun d => d == c) + (s.conns.tally fun d => d == c) +
    (s.queue.countP fun j => j.conn == c) + s.threads.tally fun t => t.conn == c

/-- The references to every connection are counted in its `refno_`, and every job that is
no longer queued was deleted once. -/
structure Balanced (s : ServerConns) : Prop where
  refno : ∀ c, s.table.refno c =
    (s.accepted.tally fun d => d == c) + (s.conns.tally fun d => d == c) +
      (s.queue.countP fun j => j.conn == c) + s.threads.tally fun t => t.conn == c
  once : ∀ c, (s.accepted.tally fun d => d == c) ≤ 1
  unmarked : s.table.misused = false
  jobDeleted : ∀ j, j < s.jobsCreated →
    s.jobDeleted j = if j ∈ s.queue.map DJob.id then 0 else 1
  jobUnmarked : s.jobMisused = false

/-- No request is for an old instance of the server, and the server is still reachable
when `got_pdu` has enqueued a job. -/
def Ordinary (s : ServerConns) : Action → Prop
  | .dispatch t _ => ∀ thread r, s.threads.held t = some thread → thread.phase = .received →
      thread.pdu = some r → r.srvNonce = 0 ∨ r.srvNonce = s.nonce
  | .recheck => s.reachable = true
  | _ => True

instance (s : ServerConns) (action : Action) : Decidable (Ordinary s action) :=
  match action with
  | .dispatch t _ =>
      match held : s.threads.held t with
      | none => .isTrue fun _ _ some => nomatch held.symm.trans some
      | some ⟨conn, pdu, phase⟩ =>
          match pdu with
          | none => .isTrue fun _ _ some _ full => by
              cases held.symm.trans some
              contradiction
          | some r =>
              decidable_of_iff
                (phase = .received → r.srvNonce = 0 ∨ r.srvNonce = s.nonce)
                ⟨fun current _ _ some received full => by
                    cases held.symm.trans some
                    cases full
                    exact current received,
                  fun current received => current _ r held received rfl⟩
  | .recheck => inferInstanceAs (Decidable (s.reachable = true))
  | .accept .. | .collect _ | .close _ | .die _ | .setReachable _ | .gotPdu .. | .take _ =>
      .isTrue trivial

/-! ## The invariant -/

structure References (s : ServerConns) : Prop where
  counted : s.table.Counted s.refs
  /-- the listener gives up dead connections only -/
  listed : ∀ c, c < s.table.created → s.table.dead c = false →
    (s.accepted.tally fun d => d == c) ≠ 0
  channo : ∀ fd c, s.accepted.held fd = some c → s.channo c = fd

/-- The references, with those that nobody will give up any more. -/
structure Tracked (leaked : Nat → Nat) (s : ServerConns) : Prop where
  counted : s.table.Counted fun c => s.refs c + leaked c
  listed : ∀ c, c < s.table.created → s.table.dead c = false →
    (s.accepted.tally fun d => d == c) ≠ 0
  channo : ∀ fd c, s.accepted.held fd = some c → s.channo c = fd

theorem references_iff {s : ServerConns} : References s ↔ Tracked (fun _ => 0) s :=
  ⟨fun inv => ⟨inv.counted, inv.listed, inv.channo⟩,
    fun inv => ⟨inv.counted, inv.listed, inv.channo⟩⟩

structure Jobs (s : ServerConns) : Prop where
  ids : ∀ j ∈ s.queue, j.id < s.jobsCreated
  nodup : (s.queue.map DJob.id).Nodup
  deleted : ∀ i, i < s.jobsCreated → s.jobDeleted i = if i ∈ s.queue.map DJob.id then 0 else 1
  fresh : ∀ i, s.jobsCreated ≤ i → s.jobDeleted i = 0
  unmarked : s.jobMisused = false

variable {s next : ServerConns} {id c : Nat} {t : JobThread} {leaked : Nat → Nat}

theorem initial_references (nonce : Nat) : References ({ nonce } : ServerConns) where
  counted := Counted.initial
  listed _ bound := absurd bound (Nat.not_lt_zero _)
  channo _ _ held := nomatch held

theorem initial_jobs (nonce : Nat) : Jobs ({ nonce } : ServerConns) where
  ids _ member := nomatch member
  nodup := List.nodup_nil
  deleted _ bound := absurd bound (Nat.not_lt_zero _)
  fresh _ _ := rfl
  unmarked := rfl

/-! ## Who has a reference -/

theorem refs_accepted {fd : Nat} (held : s.accepted.held fd = some c) : s.refs c ≠ 0 := by
  have positive := Holders.tally_pos (p := fun d : Nat => d == c) held (by simp)
  unfold refs
  omega

theorem refs_conns {n : Nat} (held : s.conns.held n = some c) : s.refs c ≠ 0 := by
  have positive := Holders.tally_pos (p := fun d : Nat => d == c) held (by simp)
  unfold refs
  omega

theorem refs_thread (held : s.threads.held id = some t) : s.refs t.conn ≠ 0 := by
  have positive := Holders.tally_pos (p := fun u : JobThread => u.conn == t.conn) held (by simp)
  unfold refs
  omega

theorem Tracked.counted_ne (held : s.refs c ≠ 0) : s.refs c + leaked c ≠ 0 := by
  omega

theorem Tracked.lt_created (inv : Tracked leaked s) (held : s.refs c ≠ 0) :
    c < s.table.created :=
  inv.counted.lt_created (counted_ne held)

/-- Whoever has a reference may use the connection. -/
theorem Tracked.use_eq (inv : Tracked leaked s) (held : s.refs c ≠ 0) : s.table.use c = s.table :=
  inv.counted.use_eq (counted_ne held)

theorem Tracked.deleted_held (inv : Tracked leaked s) (held : s.refs c ≠ 0) :
    s.table.deleted c = 0 :=
  inv.counted.deleted_held (counted_ne held)

theorem Tracked.refs_alive (inv : Tracked leaked s) (bound : c < s.table.created)
    (alive : s.table.dead c = false) : s.refs c ≠ 0 := by
  have listed := inv.listed c bound alive
  unfold refs
  omega

/-- A thread that goes on with its connection keeps all references. -/
theorem refs_goto (held : s.threads.held id = some t) (phase : JobPhase) (d : Nat) :
    (s.goto id t phase).refs d = s.refs d := by
  have exchanged := s.threads.tally_set id (some { t with phase }) fun t => t.conn == d
  simp only [held, Option.any_some] at exchanged
  dsimp only [refs, goto]
  omega

theorem toNat_beq (a b : Nat) : (a == b).toNat = if b = a then 1 else 0 := by
  by_cases same : b = a
  · simp [same]
  · simp [same, Ne.symm same]

theorem gains_exit (held : s.threads.held id = some t) :
    Gains (s.exit id).refs s.refs t.conn := by
  intro d
  have exchanged := s.threads.tally_set id none fun t => t.conn == d
  simp only [held, Option.any_some, Option.any_none, toNat_beq, Bool.toNat_false] at exchanged
  dsimp only [refs, exit]
  omega

/-! ## Giving up and taking references -/

/-- The references and the listener are as before. -/
theorem Tracked.frame (inv : Tracked leaked s) (table : next.table = s.table)
    (accepted : next.accepted = s.accepted) (channo : next.channo = s.channo)
    (same : ∀ d, next.refs d = s.refs d) : Tracked leaked next where
  counted := table ▸ inv.counted.congr fun d => congrArg (· + leaked d) (same d)
  listed := by
    rw [table, accepted]
    exact inv.listed
  channo := by
    rw [accepted, channo]
    exact inv.channo

theorem Tracked.release (inv : Tracked leaked s) (gains : Gains next.refs s.refs c)
    (released : s.table.decref c = some next.table) (accepted : next.accepted = s.accepted)
    (channo : next.channo = s.channo) : Tracked leaked next := by
  have held : s.refs c ≠ 0 := by simp [gains c]
  have last : next.refs c + leaked c = 0 → s.table.dead c = true := by
    intro empty
    cases dead : s.table.dead c with
    | true => rfl
    | false =>
        have listed := inv.listed c (inv.lt_created held) dead
        rw [← accepted] at listed
        unfold refs at empty
        omega
  rcases inv.counted.decref (gains.add leaked) last released with ⟨counted, created, dead⟩
  refine ⟨counted, ?_, ?_⟩
  · rw [created, dead, accepted]
    exact inv.listed
  · rw [accepted, channo]
    exact inv.channo

theorem Tracked.obtain (inv : Tracked leaked s) (held : s.refs c ≠ 0)
    (gains : Gains s.refs next.refs c) (table : next.table = s.table.incref c)
    (accepted : next.accepted = s.accepted) (channo : next.channo = s.channo) :
    Tracked leaked next where
  counted := by
    rw [table]
    exact inv.counted.incref (Tracked.counted_ne held) (gains.add leaked)
  listed := by
    rw [table, accepted]
    exact inv.listed
  channo := by
    rw [accepted, channo]
    exact inv.channo

/-! ## Steps of dispatch -/

/-- Only a request for an old instance leaves its reference behind. -/
theorem Tracked.check (inv : Tracked leaked s) {registered : Nat → Bool}
    (held : s.threads.held id = some t) (taken : s.check registered id t = some next) :
    ∃ leaked', Tracked leaked' next ∧
      ((∀ r, t.pdu = some r → r.srvNonce = 0 ∨ r.srvNonce = s.nonce) → leaked' = leaked) := by
  have exit : ∀ {table}, s.table.decref t.conn = some table →
      Tracked leaked ({ s with table }.exit id) := fun released =>
    inv.release (gains_exit held) released rfl rfl
  unfold ServerConns.check at taken
  split at taken
  · rcases Option.map_eq_some_iff.mp taken with ⟨table, released, rfl⟩
    exact ⟨leaked, exit released, fun _ => rfl⟩
  · next r pdu =>
      split at taken
      · next old =>
          rw [inv.use_eq (refs_thread held)] at taken
          cases taken
          refine ⟨fun d => leaked d + if d = t.conn then 1 else 0, ⟨?_, inv.listed, inv.channo⟩, ?_⟩
          · refine inv.counted.congr fun d => ?_
            have gains := gains_exit held d
            change (s.exit id).refs d + _ = _
            omega
          · intro current
            rcases current r pdu with zero | same
            · exact absurd zero old.1
            · exact absurd same old.2
      · refine ⟨leaked, ?_, fun _ => rfl⟩
        split at taken
        · rcases Option.map_eq_some_iff.mp taken with ⟨table, released, rfl⟩
          exact exit released
        · split at taken
          · cases taken
            exact inv.frame rfl rfl rfl (refs_goto held .saving)
          · cases taken
            exact inv.frame rfl rfl rfl (refs_goto held .executing)

theorem Tracked.saveConn (inv : Tracked leaked s) (held : s.threads.held id = some t) {n : Nat}
    (taken : s.saveConn id t n = some next) : Tracked leaked next := by
  have here := refs_thread held
  have checking : Tracked leaked (s.goto id t .checking) :=
    inv.frame rfl rfl rfl (refs_goto held .checking)
  have here' : (s.goto id t .checking).refs t.conn ≠ 0 := by
    rw [refs_goto held]
    exact here
  unfold ServerConns.saveConn at taken
  split at taken
  · next absent =>
      cases taken
      refine checking.obtain here' ?_ rfl rfl rfl
      intro d
      have exchanged := s.conns.tally_set n (some t.conn) fun c => c == d
      simp only [absent, Option.any_none, Option.any_some, toNat_beq, Bool.toNat_false] at exchanged
      dsimp only [refs, goto]
      omega
  · next old saved =>
      rw [inv.use_eq (refs_conns saved), inv.use_eq here] at taken
      dsimp only at taken
      split at taken
      · next newer =>
          rcases Option.map_eq_some_iff.mp taken with ⟨table, released, rfl⟩
          have dropped : Tracked leaked ({ s with table, conns := s.conns.set n none }.goto id t
              .checking) := by
            refine checking.release ?_ released rfl rfl
            intro d
            have exchanged := s.conns.tally_set n none fun c => c == d
            simp only [saved, Option.any_none, Option.any_some, toNat_beq,
              Bool.toNat_false] at exchanged
            dsimp only [refs, goto]
            omega
          refine dropped.obtain ?_ ?_ rfl rfl rfl
          · exact refs_thread (t := { t with phase := .checking }) (Holders.held_set_self _)
          · intro d
            have before := s.conns.tally_set n none fun c => c == d
            have after := s.conns.tally_set n (some t.conn) fun c => c == d
            simp only [saved, Option.any_none, Option.any_some, toNat_beq,
              Bool.toNat_false] at before after
            dsimp only [refs, goto]
            omega
      · cases taken
        exact checking

theorem Tracked.chooseConn (inv : Tracked leaked s) (held : s.threads.held id = some t) {n : Nat}
    (taken : s.chooseConn id t n = some next) : Tracked leaked next := by
  unfold ServerConns.chooseConn at taken
  rw [inv.use_eq (refs_thread held)] at taken
  dsimp only at taken
  split at taken
  · next replaced =>
      split at taken
      · contradiction
      · next c saved =>
          rcases Option.map_eq_some_iff.mp taken with ⟨table, released, rfl⟩
          have left : Tracked leaked ({ s with table }.exit id) :=
            inv.release (gains_exit held) released rfl rfl
          refine left.obtain (refs_conns (by exact saved)) ?_ rfl rfl rfl
          intro d
          have before := s.threads.tally_set id none fun t => t.conn == d
          have after := s.threads.tally_set id (some { t with conn := c, phase := .sending })
            fun t => t.conn == d
          simp only [held, Option.any_none, Option.any_some, toNat_beq,
            Bool.toNat_false] at before after
          dsimp only [refs, goto, exit]
          omega
  · cases taken
    exact inv.frame rfl rfl rfl (refs_goto held .sending)

theorem Tracked.dispatch (inv : Tracked leaked s) {registered : Nat → Bool}
    (held : s.threads.held id = some t) {stat : RpcState Unit}
    (taken : s.dispatch registered id t stat = some next) :
    ∃ leaked', Tracked leaked' next ∧ (Ordinary s (.dispatch id stat) → leaked' = leaked) := by
  have same {next : ServerConns} (after : Tracked leaked next) :
      ∃ leaked', Tracked leaked' next ∧ (Ordinary s (.dispatch id stat) → leaked' = leaked) :=
    ⟨leaked, after, fun _ => rfl⟩
  have goto : ∀ phase, Tracked leaked (s.goto id t phase) := fun phase =>
    inv.frame rfl rfl rfl (refs_goto held phase)
  unfold ServerConns.dispatch at taken
  split at taken
  · next _ received =>
      rcases inv.check held taken with ⟨leaked', after, current⟩
      exact ⟨leaked', after, fun ordinary => current fun r => ordinary t r held received⟩
  · exact same (inv.saveConn held taken)
  · cases stat with
    | new | inprogress | done | forgotten =>
        cases taken
        exact same (goto _)
  · cases taken
    exact same (goto .choosing)
  · exact same (inv.chooseConn held taken)
  · rw [inv.use_eq (refs_thread held)] at taken
    cases taken
    exact same (goto .leaving)
  · rcases Option.map_eq_some_iff.mp taken with ⟨table, released, rfl⟩
    exact same (inv.release (gains_exit held) released rfl rfl)
  · contradiction

/-! ## Steps of the listener -/

theorem Tracked.accept (inv : Tracked leaked s) {fd time : Nat}
    (fresh : ∀ c < s.table.created, s.table.deleted c = 0 → s.channo c ≠ fd) :
    Tracked leaked { s with
      table := s.table.create
      channo := Function.update s.channo s.table.created fd
      createTime := Function.update s.createTime s.table.created time
      accepted := s.accepted.set fd (some s.table.created) } := by
  have known : ∀ other c, s.accepted.held other = some c → c < s.table.created :=
    fun other c held => inv.lt_created (refs_accepted held)
  have free : s.accepted.held fd = none := by
    by_contra some
    rcases Option.ne_none_iff_exists'.mp some with ⟨c, held⟩
    exact fresh c (known fd c held) (inv.deleted_held (refs_accepted held))
      (inv.channo fd c held)
  have tally : ∀ d, ((s.accepted.set fd (some s.table.created)).tally fun c => c == d) =
      (s.accepted.tally fun c => c == d) + if d = s.table.created then 1 else 0 := by
    intro d
    have exchanged := s.accepted.tally_set fd (some s.table.created) fun c => c == d
    simp only [free, Option.any_none, Option.any_some, toNat_beq, Bool.toNat_false] at exchanged
    omega
  constructor
  · apply inv.counted.create
    intro d
    have added := tally d
    dsimp only [refs]
    omega
  · intro c bound alive
    have added := tally c
    have bound : c < s.table.created + 1 := bound
    by_cases here : c = s.table.created
    · simp only [here, if_true] at added ⊢
      omega
    · have listed := inv.listed c (by omega) alive
      dsimp only
      omega
  · intro other c held
    rcases Holders.held_set_some held with ⟨rfl, rfl⟩ | ⟨_, before⟩
    · exact Function.update_self ..
    · have older : c ≠ s.table.created := Nat.ne_of_lt (known other c before)
      simpa [older] using inv.channo other c before

/-- The listener gives up a dead connection. -/
theorem Tracked.unlist (inv : Tracked leaked s) {fd : Nat} (held : s.accepted.held fd = some c)
    (dead : s.table.dead c = true) {table : ConnTable}
    (released : s.table.decref c = some table) :
    Tracked leaked { s with table, accepted := s.accepted.set fd none } := by
  have tally : ∀ d, ((s.accepted.set fd none).tally fun c => c == d) +
      (if d = c then 1 else 0) = s.accepted.tally fun c => c == d := by
    intro d
    have exchanged := s.accepted.tally_set fd none fun c => c == d
    simpa only [held, Option.any_none, Option.any_some, toNat_beq, Bool.toNat_false,
      Nat.add_zero] using exchanged
  have gains : Gains ({ s with accepted := s.accepted.set fd none } : ServerConns).refs
      s.refs c := by
    intro d
    have removed := tally d
    dsimp only [refs]
    omega
  rcases inv.counted.decref (gains.add leaked) (fun _ => dead) released with ⟨counted, created, same⟩
  refine ⟨counted, ?_, ?_⟩
  · intro d bound alive
    dsimp only at bound alive ⊢
    rw [created] at bound
    rw [same] at alive
    have differs : d ≠ c := by
      rintro rfl
      exact Bool.false_ne_true (alive.symm.trans dead)
    have removed := tally d
    have listed := inv.listed d bound alive
    rw [if_neg differs] at removed
    omega
  · intro other d held'
    exact inv.channo other d (Holders.held_set_none held').2

theorem Tracked.die (inv : Tracked leaked s) (bound : c < s.table.created) :
    Tracked leaked { s with table := s.table.die c } where
  counted := inv.counted.die bound
  listed d before alive := by
    apply inv.listed d before
    cases dead : s.table.dead d with
    | false => rfl
    | true => exact absurd (alive.symm.trans (ConnTable.dead_die_of_dead dead)) Bool.false_ne_true
  channo := inv.channo

/-! ## Steps of got_pdu and of the pool -/

theorem Tracked.gotPdu (inv : Tracked leaked s) {pdu : Option Request}
    (bound : c < s.table.created) (alive : s.table.dead c = false)
    (taken : s.gotPdu c pdu = some next) : Tracked leaked next := by
  have held := inv.refs_alive bound alive
  unfold ServerConns.gotPdu at taken
  split at taken
  · dsimp only at taken
    split at taken
    · cases taken
      refine inv.obtain held ?_ rfl rfl rfl
      intro d
      simp only [refs, List.countP_append, List.countP_singleton]
      by_cases here : d = c
      · simp [here]
        omega
      · simp [here, Ne.symm here]
    · rcases Option.map_eq_some_iff.mp taken with ⟨table, released, rfl⟩
      have counted : Counted (s.table.incref c) fun d =>
          s.refs d + leaked d + if d = c then 1 else 0 :=
        inv.counted.incref (Tracked.counted_ne held) fun _ => rfl
      have last : s.refs c + leaked c = 0 → (s.table.incref c).dead c = true :=
        fun none => absurd none (Tracked.counted_ne held)
      rcases counted.decref (fun _ => rfl) last released with ⟨counted, created, dead⟩
      refine ⟨counted, ?_, inv.channo⟩
      intro d bound alive
      exact inv.listed d (created ▸ bound) (dead ▸ alive)
  · cases taken
    exact inv

theorem Tracked.take (inv : Tracked leaked s) {j : DJob} {queue : List DJob}
    (queued : s.queue = j :: queue) (idle : s.threads.held id = none) :
    Tracked leaked { s.deleteJob j with
      queue
      threads := s.threads.set id
        (some { conn := j.conn, pdu := j.pdu, phase := .received }) } := by
  refine inv.frame rfl rfl rfl ?_
  intro d
  have exchanged := s.threads.tally_set id
    (some { conn := j.conn, pdu := j.pdu, phase := .received }) fun t => t.conn == d
  simp only [idle, Option.any_none, Option.any_some, Bool.toNat_false] at exchanged
  simp only [refs, queued, List.countP_cons, deleteJob, useJob]
  cases same : j.conn == d <;> simp [same] at exchanged ⊢ <;> omega

/-! ## Jobs -/

/-- Nothing happens to the jobs. -/
structure SameJobs (s next : ServerConns) : Prop where
  queue : next.queue = s.queue
  created : next.jobsCreated = s.jobsCreated
  deleted : next.jobDeleted = s.jobDeleted
  misused : next.jobMisused = s.jobMisused

theorem Jobs.frame (jobs : Jobs s) (same : SameJobs s next) : Jobs next where
  ids := by
    rw [same.queue, same.created]
    exact jobs.ids
  nodup := by
    rw [same.queue]
    exact jobs.nodup
  deleted := by
    rw [same.queue, same.created, same.deleted]
    exact jobs.deleted
  fresh := by
    rw [same.created, same.deleted]
    exact jobs.fresh
  unmarked := same.misused.trans jobs.unmarked

theorem check_sameJobs {registered : Nat → Bool}
    (taken : s.check registered id t = some next) : SameJobs s next := by
  unfold check at taken
  split at taken
  · rcases Option.map_eq_some_iff.mp taken with ⟨_, _, rfl⟩
    exact ⟨rfl, rfl, rfl, rfl⟩
  · split at taken
    · cases taken
      exact ⟨rfl, rfl, rfl, rfl⟩
    · split at taken
      · rcases Option.map_eq_some_iff.mp taken with ⟨_, _, rfl⟩
        exact ⟨rfl, rfl, rfl, rfl⟩
      · split at taken <;> cases taken <;> exact ⟨rfl, rfl, rfl, rfl⟩

theorem saveConn_sameJobs {n : Nat} (taken : s.saveConn id t n = some next) :
    SameJobs s next := by
  unfold saveConn at taken
  split at taken
  · cases taken
    exact ⟨rfl, rfl, rfl, rfl⟩
  · dsimp only at taken
    split at taken
    · rcases Option.map_eq_some_iff.mp taken with ⟨_, _, rfl⟩
      exact ⟨rfl, rfl, rfl, rfl⟩
    · cases taken
      exact ⟨rfl, rfl, rfl, rfl⟩

theorem chooseConn_sameJobs {n : Nat} (taken : s.chooseConn id t n = some next) :
    SameJobs s next := by
  unfold chooseConn at taken
  dsimp only at taken
  split at taken
  · split at taken
    · contradiction
    · rcases Option.map_eq_some_iff.mp taken with ⟨_, _, rfl⟩
      exact ⟨rfl, rfl, rfl, rfl⟩
  · cases taken
    exact ⟨rfl, rfl, rfl, rfl⟩

/-- The job of a thread is deleted before its first step. -/
theorem dispatch_sameJobs {registered : Nat → Bool} {stat : RpcState Unit}
    (taken : s.dispatch registered id t stat = some next) : SameJobs s next := by
  unfold dispatch at taken
  split at taken
  · exact check_sameJobs taken
  · exact saveConn_sameJobs taken
  · cases stat with
    | new | inprogress | done | forgotten =>
        cases taken
        exact ⟨rfl, rfl, rfl, rfl⟩
  · cases taken
    exact ⟨rfl, rfl, rfl, rfl⟩
  · exact chooseConn_sameJobs taken
  · cases taken
    exact ⟨rfl, rfl, rfl, rfl⟩
  · rcases Option.map_eq_some_iff.mp taken with ⟨_, _, rfl⟩
    exact ⟨rfl, rfl, rfl, rfl⟩
  · contradiction

theorem Jobs.gotPdu (jobs : Jobs s) {pdu : Option Request}
    (taken : s.gotPdu c pdu = some next) : Jobs next := by
  have absent : s.jobsCreated ∉ s.queue.map DJob.id := by
    intro member
    rcases List.mem_map.mp member with ⟨j, queued, same⟩
    exact absurd (jobs.ids j queued) (by omega)
  have unused := jobs.fresh s.jobsCreated (Nat.le_refl _)
  unfold ServerConns.gotPdu at taken
  split at taken
  · dsimp only at taken
    split at taken
    · cases taken
      constructor
      · intro j member
        rcases List.mem_append.mp member with before | last
        · exact Nat.lt_succ_of_lt (jobs.ids j before)
        · cases List.mem_singleton.mp last
          exact Nat.lt_succ_self _
      · simpa [List.nodup_append] using ⟨jobs.nodup, fun j member same =>
          absent (List.mem_map.mpr ⟨j, member, same⟩)⟩
      · intro i bound
        have bound : i < s.jobsCreated + 1 := bound
        by_cases here : i = s.jobsCreated
        · simp [here, unused]
        · simp only [List.map_append, List.map_cons, List.map_nil, List.mem_append,
            List.mem_singleton, here, or_false]
          exact jobs.deleted i (by omega)
      · intro i bound
        have bound : s.jobsCreated + 1 ≤ i := bound
        exact jobs.fresh i (by omega)
      · exact jobs.unmarked
    · rcases Option.map_eq_some_iff.mp taken with ⟨table, _, rfl⟩
      constructor
      · exact fun j member => Nat.lt_succ_of_lt (jobs.ids j member)
      · exact jobs.nodup
      · intro i bound
        have bound : i < s.jobsCreated + 1 := bound
        by_cases here : i = s.jobsCreated
        · subst here
          simp only [deleteJob, useJob, Function.update_self, unused]
          rw [if_neg absent]
        · simp only [deleteJob, useJob, Function.update_of_ne here]
          exact jobs.deleted i (by omega)
      · intro i bound
        have bound : s.jobsCreated + 1 ≤ i := bound
        have differs : i ≠ s.jobsCreated := by omega
        simp only [deleteJob, Function.update_of_ne differs]
        exact jobs.fresh i (by omega)
      · simp [deleteJob, useJob, jobs.unmarked, unused]
  · cases taken
    exact jobs

theorem Jobs.take (jobs : Jobs s) {j : DJob} {queue : List DJob} (queued : s.queue = j :: queue)
    (threads : Holders Nat JobThread) : Jobs { s.deleteJob j with queue, threads } := by
  have member : j ∈ s.queue := queued ▸ List.mem_cons_self
  have bound := jobs.ids j member
  have nodup := jobs.nodup
  rw [queued, List.map_cons, List.nodup_cons] at nodup
  have undeleted : s.jobDeleted j.id = 0 := by
    rw [jobs.deleted j.id bound, if_pos (List.mem_map_of_mem member)]
  constructor
  · intro k later
    exact jobs.ids k (queued ▸ List.mem_cons_of_mem j later)
  · exact nodup.2
  · intro i before
    by_cases here : i = j.id
    · subst here
      simp only [deleteJob, useJob, Function.update_self, undeleted]
      rw [if_neg nodup.1]
    · have deleted := jobs.deleted i before
      simp only [queued, List.map_cons, List.mem_cons, here, false_or] at deleted
      simpa only [deleteJob, useJob, Function.update_of_ne here] using deleted
  · intro i after
    have after : s.jobsCreated ≤ i := after
    have differs : i ≠ j.id := by omega
    simp only [deleteJob, useJob, Function.update_of_ne differs]
    exact jobs.fresh i after
  · simp [deleteJob, useJob, jobs.unmarked, undeleted]

/-! ## Runs -/

/-- What a step keeps while `got_pdu` finds the server reachable at its second look. -/
theorem Tracked.step {registered : Nat → Bool} {action : Action} (inv : Tracked leaked s)
    (jobs : Jobs s) (looks : action = .recheck → s.reachable = true)
    (taken : s.step registered action = some next) :
    (∃ leaked', Tracked leaked' next ∧ (Ordinary s action → leaked' = leaked)) ∧ Jobs next := by
  have same {next : ServerConns} (after : Tracked leaked next) :
      ∃ leaked', Tracked leaked' next ∧ (Ordinary s action → leaked' = leaked) :=
    ⟨leaked, after, fun _ => rfl⟩
  cases action with
  | accept fd time =>
      simp only [ServerConns.step] at taken
      split at taken
      · next fresh =>
          cases taken
          exact ⟨same (inv.accept fresh), jobs.frame ⟨rfl, rfl, rfl, rfl⟩⟩
      · contradiction
  | collect fd =>
      simp only [ServerConns.step] at taken
      split at taken
      · contradiction
      · next c held =>
          rw [inv.use_eq (refs_accepted held)] at taken
          split at taken
          · contradiction
          · cases taken
            exact ⟨same inv, jobs⟩
  | close fd =>
      simp only [ServerConns.step] at taken
      split at taken
      · contradiction
      · next c held =>
          have referenced := refs_accepted held
          rw [inv.use_eq referenced] at taken
          rcases Option.map_eq_some_iff.mp taken with ⟨table, released, rfl⟩
          have died := inv.die (inv.lt_created referenced)
          have dead : (s.table.die c).dead c = true := Function.update_self ..
          exact ⟨same (died.unlist held dead released), jobs.frame ⟨rfl, rfl, rfl, rfl⟩⟩
  | die c =>
      simp only [ServerConns.step] at taken
      split at taken
      · next alive =>
          cases taken
          exact ⟨same (inv.die alive.1), jobs.frame ⟨rfl, rfl, rfl, rfl⟩⟩
      · contradiction
  | setReachable r =>
      cases taken
      exact ⟨same (inv.frame rfl rfl rfl fun _ => rfl), jobs.frame ⟨rfl, rfl, rfl, rfl⟩⟩
  | gotPdu c pdu =>
      simp only [ServerConns.step] at taken
      split at taken
      · next alive => exact ⟨same (inv.gotPdu alive.1 alive.2.1 taken), jobs.gotPdu taken⟩
      · contradiction
  | recheck =>
      have reachable := looks rfl
      simp only [ServerConns.step, reachable, if_true] at taken
      split at taken
      · contradiction
      · cases taken
        exact ⟨same (inv.frame rfl rfl rfl fun _ => rfl), jobs.frame ⟨rfl, rfl, rfl, rfl⟩⟩
  | take id =>
      simp only [ServerConns.step] at taken
      split at taken
      · contradiction
      · next j queue queued =>
          split at taken
          · next free =>
              cases taken
              exact ⟨same (inv.take queued (Option.isNone_iff_eq_none.mp free.2)),
                jobs.take queued _⟩
          · contradiction
  | dispatch id stat =>
      rcases Option.bind_eq_some_iff.mp taken with ⟨t, held, dispatched⟩
      exact ⟨inv.dispatch held dispatched, jobs.frame (dispatch_sameJobs dispatched)⟩

theorem step_inv {registered : Nat → Bool} {action : Action} (inv : References s)
    (jobs : Jobs s) (ordinary : Ordinary s action)
    (taken : s.step registered action = some next) : References next ∧ Jobs next := by
  have looks : action = .recheck → s.reachable = true := by
    rintro rfl
    exact ordinary
  obtain ⟨⟨leaked, after, unchanged⟩, jobs'⟩ :=
    (references_iff.mp inv).step jobs looks taken
  rw [unchanged ordinary] at after
  exact ⟨references_iff.mpr after, jobs'⟩

theorem reachable_inv {registered : Nat → Bool} {nonce : Nat}
    (reachable : (machine registered nonce).ReachableUnder Ordinary s) :
    References s ∧ Jobs s :=
  reachable.invariant (fun s => References s ∧ Jobs s)
    ⟨initial_references nonce, initial_jobs nonce⟩
    fun _ _ _ _ inv ordinary taken => step_inv inv.1 inv.2 ordinary taken

theorem balanced_of_inv (inv : References s) (jobs : Jobs s) : s.Balanced where
  refno := inv.counted.refno
  once c := by
    refine Holders.tally_le_one fun fd other d e held here held' here' => ?_
    have same : d = e := (beq_iff_eq.mp here).trans (beq_iff_eq.mp here').symm
    rw [← inv.channo fd d held, same, inv.channo other e held']
  unmarked := inv.counted.unmarked
  jobDeleted := jobs.deleted
  jobUnmarked := jobs.unmarked

/-- A step out of the ordinary leaves a reference too many or too few. -/
theorem not_balanced {registered : Nat → Bool} {action : Action} (inv : References s)
    (strange : ¬ Ordinary s action) (taken : s.step registered action = some next) :
    ¬ next.Balanced := by
  intro balanced
  cases action with
  | accept | collect | close | die | setReachable | gotPdu | take => exact strange trivial
  | recheck =>
      have unreachable : s.reachable = false := Bool.not_eq_true _ |>.mp strange
      simp only [step, unreachable] at taken
      split at taken
      · contradiction
      · next j enqueued =>
          rcases Option.map_eq_some_iff.mp taken with ⟨table, released, rfl⟩
          rcases ConnTable.refno_decref released with ⟨some, dropped⟩
          have left : table.refno j.conn = s.refs j.conn := balanced.refno j.conn
          rw [dropped, Function.update_self] at left
          have before := inv.counted.refno j.conn
          omega
  | dispatch id stat =>
      simp only [Ordinary, not_forall, not_or] at strange
      rcases strange with ⟨t, r, held, received, pdu, nonzero, differs⟩
      simp only [step, held, Option.bind_some, ServerConns.dispatch, received,
        ServerConns.check, pdu] at taken
      rw [if_pos ⟨nonzero, differs⟩] at taken
      cases taken
      have left : s.table.refno t.conn = (s.exit id).refs t.conn := balanced.refno t.conn
      have before := inv.counted.refno t.conn
      have gains := gains_exit held t.conn
      simp only [if_true] at gains
      omega

/-- The references balance in every run of ordinary steps, and a step keeps the balance
only if it is ordinary. -/
theorem references_balanced {registered : Nat → Bool} {nonce : Nat}
    (reachable : (machine registered nonce).ReachableUnder Ordinary s) :
    s.Balanced ∧ ∀ action next, s.step registered action = some next →
      (next.Balanced ↔ Ordinary s action) := by
  rcases reachable_inv reachable with ⟨inv, jobs⟩
  refine ⟨balanced_of_inv inv jobs, fun action next taken => ⟨?_, ?_⟩⟩
  · intro balanced
    by_contra strange
    exact not_balanced inv strange taken balanced
  · intro ordinary
    rcases step_inv inv jobs ordinary taken with ⟨inv', jobs'⟩
    exact balanced_of_inv inv' jobs'

/-! ## Runs -/

private def request (srvNonce : Nat) : Request :=
  { xid := 1, proc := 2, cltNonce := 7, srvNonce, xidRep := 0, payload := [] }

/-- A call is retransmitted on a second connection, which becomes the latest one of the
client and takes the reply of the first; the listener looks at the first while its jobs
are there, and at last closes both. A PDU without a header is dropped. -/
def reconnect : List Action :=
  [.accept 3 10, .gotPdu 0 (some (request 5)), .recheck, .take 0, .dispatch 0 .new,
    .dispatch 0 .new, .dispatch 0 .new, .accept 4 20, .die 0, .gotPdu 1 (some (request 0)),
    .recheck, .gotPdu 1 none, .setReachable false, .setReachable true, .recheck, .take 1,
    .dispatch 1 .new, .dispatch 1 .new, .dispatch 1 .inprogress, .take 2, .dispatch 2 .new,
    .dispatch 1 .new, .collect 3, .dispatch 0 .new, .dispatch 0 .new, .collect 4,
    .dispatch 0 .new, .dispatch 0 .new, .close 3, .close 4]

theorem references_balanced_reconnect :
    ∃ s, (machine (· == 2) 5).ReachableUnder Ordinary s ∧ s.conns.held 7 = some 1 ∧
      s.Balanced := by
  have run : (((machine (· == 2) 5).restrict Ordinary).run
      (machine (· == 2) 5).initial reconnect).map
        (fun s => s.conns.held 7) = some (some 1) := by decide +kernel
  rcases Option.map_eq_some_iff.mp run with ⟨s, taken, saved⟩
  have reachable := Machine.reachableUnder_of_run taken
  exact ⟨s, reachable, saved, (references_balanced reachable).1⟩

/-- A request for the server instance 6 arrives at the instance 5. -/
def oldInstance : List Action :=
  [.accept 3 10, .gotPdu 0 (some (request 6)), .recheck, .take 0, .dispatch 0 .new]

/-- The reference of the request stays when nobody has it any more. -/
theorem oldInstance_not_balanced :
    ¬ ∀ s, (machine (· == 2) 5).Reachable s → s.Balanced := by
  intro always
  have run : ((machine (· == 2) 5).run (machine (· == 2) 5).initial oldInstance).map
      (fun s => (s.table.refno 0, s.refs 0)) = some (2, 1) := by decide +kernel
  rcases Option.map_eq_some_iff.mp run with ⟨s, taken, counts⟩
  simp only [Prod.mk.injEq] at counts
  have balance := (always s (Machine.reachable_of_run taken)).refno 0
  have refs : s.refs 0 = 1 := counts.2
  unfold ServerConns.refs at refs
  omega

end ServerConns

end YfsRpc.Rpc
