import YfsRpc.Rpc.SelectScan
import YfsRpc.Rpc.Stranding
import YfsRpc.Rpc.WriteCallback

/-! # What is watched for a connection

A connection that is not dead stays registered for reading, and for writing while a
sender waits for the rest of its PDU. A dead one is watched no more, unless the thread that
found it dead is on its way into `block_remove_fd`.
-/

namespace YfsRpc.Rpc

open Connection (SendPhase WriteResult writepdu)

namespace Endpoint

variable {ι : Type}

/-- At most one sender owns `wpdu_`, which is not empty while it waits for the rest. -/
structure Owned (e : Endpoint ι) : Prop where
  full : ∀ i, (e.senders i).owns = true → e.wpdu.buf.isSome = true
  unique : ∀ i j, (e.senders i).owns = true → (e.senders j).owns = true → i = j
  unfinished : e.dead = false → ∀ i b, e.senders i = .waitComplete b → e.wpdu.sz ≠ 0

/-- What a step asks of the poll manager, and when. -/
structure Asks (e next : Endpoint ι) (call : Option PollCall) : Prop where
  add : ∀ flag, call = some (.addCallback flag) → flag = .wronly ∧ e.dead = false
  del : ∀ flag, call = some (.delCallback flag) →
    flag = .rdwr ∧ next.dead = true ∨ flag = .wronly ∧ e.wpdu.sz = 0
  remove : call = some .blockRemove → next.dead = true
  wait : ∀ i b, next.senders i = .waitComplete b →
    e.senders i = .waitComplete b ∨ call = some (.addCallback .wronly)
  died : next.dead = true → e.dead = false →
    call = some (.delCallback .rdwr) ∨ call = some .blockRemove

variable {e next : Endpoint ι} {i : ι} {b : List UInt8} {call : Option PollCall}

theorem owned_of_free (free : ∀ j, (e.senders j).owns = false) : e.Owned where
  full j owns := absurd owns (Bool.not_eq_true _ ▸ free j)
  unique j _ owns := absurd owns (Bool.not_eq_true _ ▸ free j)
  unfinished _ j b phase := by
    have owns := free j
    rw [phase] at owns
    contradiction

/-- Without a buffer nobody owns it. -/
theorem Owned.nobody (owned : e.Owned) (empty : e.wpdu.buf.isSome = false) (j : ι) :
    (e.senders j).owns = false := by
  by_contra owns
  have full := owned.full j (Bool.not_eq_false _ ▸ owns)
  rw [empty] at full
  contradiction

theorem Owned.others (owned : e.Owned) (owns : (e.senders i).owns = true) (j : ι)
    (differs : j ≠ i) : (e.senders j).owns = false := by
  by_contra also
  exact differs (owned.unique j i (Bool.not_eq_false _ ▸ also) owns)

variable [DecidableEq ι]

theorem owns_update {phase : SendPhase} {senders : ι → SendPhase}
    (outside : (senders i).owns = false) (free : phase.owns = false) (j : ι) :
    (Function.update senders i phase j).owns = (senders j).owns := by
  by_cases self : j = i
  · rw [self, Function.update_self, outside, free]
  · rw [Function.update_of_ne self]

theorem waits_goto {phase : SendPhase} {j : ι}
    (waits : (e.goto i phase).senders j = .waitComplete b) (away : phase ≠ .waitComplete b) :
    e.senders j = .waitComplete b := by
  by_cases self : j = i
  · simp only [self, Endpoint.goto, Function.update_self] at waits
    exact absurd waits away
  · simpa [Endpoint.goto, self] using waits

/-- A sender that does not own `wpdu_` goes elsewhere. -/
theorem Owned.goto (owned : e.Owned) (phase : SendPhase) (outside : (e.senders i).owns = false)
    (free : phase.owns = false) : (e.goto i phase).Owned where
  full j owns := owned.full j ((owns_update outside free j).symm.trans owns)
  unique j k first second := owned.unique j k
    ((owns_update outside free j).symm.trans first)
    ((owns_update outside free k).symm.trans second)
  unfinished alive j b waits := by
    have away : phase ≠ .waitComplete b := fun same => by
      rw [same] at free
      contradiction
    exact owned.unfinished alive j b (waits_goto waits away)

theorem owned_finish (others : ∀ j, j ≠ i → (e.senders j).owns = false) (b : List UInt8) :
    (e.finish i b).Owned := by
  apply owned_of_free
  intro j
  by_cases self : j = i
  · simp [Endpoint.finish, Endpoint.goto, self, SendPhase.owns]
  · simpa [Endpoint.finish, Endpoint.goto, self] using others j self

theorem owned_goto {phase : SendPhase} (others : ∀ j, j ≠ i → (e.senders j).owns = false)
    (full : e.wpdu.buf.isSome = true)
    (unfinished : e.dead = false → (∃ b, phase = .waitComplete b) → e.wpdu.sz ≠ 0) :
    (e.goto i phase).Owned := by
  have only {j : ι} (owns : ((e.goto i phase).senders j).owns = true) : j = i := by
    by_contra differs
    simp [Endpoint.goto, differs, others j differs] at owns
  constructor
  · exact fun _ _ => full
  · exact fun j k first second => (only first).trans (only second).symm
  · intro alive j b waits
    have self : j = i := only (by rw [waits]; rfl)
    rw [self] at waits
    exact unfinished alive ⟨b, by simpa [Endpoint.goto] using waits⟩

theorem owned_awaitComplete (others : ∀ j, j ≠ i → (e.senders j).owns = false)
    (full : e.wpdu.buf.isSome = true) (b : List UInt8) : (e.awaitComplete i b).Owned := by
  unfold Endpoint.awaitComplete
  split
  · next partly =>
      simp only [Bool.and_eq_true, decide_eq_true_eq] at partly
      have positive : e.wpdu.sz ≠ 0 := by omega
      exact owned_goto (e := { e with sendComplete := _ }) others full fun _ _ => positive
  · exact owned_finish others b

theorem owned_obtain (free : ∀ j, (e.senders j).owns = false) (alive : e.dead = false)
    {result : WriteResult} (taken : e.obtain i b result = some (next, call)) :
    next.Owned ∧ Asks e next call := by
  unfold Endpoint.obtain at taken
  dsimp only at taken
  split at taken
  · contradiction
  · next wpdu stream failed =>
      cases taken
      constructor
      · exact owned_goto (e := { e with wpdu, dead := true, stream, obtained := _ })
          (fun j _ => free j) (Connection.writepdu_buf failed) nofun
      · exact {
          add := nofun
          del := nofun
          remove := fun _ => rfl
          wait := fun j c waits => Or.inl (waits_goto waits nofun)
          died := fun _ _ => Or.inr rfl }
  · next wpdu stream written =>
      split at taken
      · cases taken
        exact ⟨owned_finish (e := { e with wpdu, stream, obtained := _ }) (fun j _ => free j) b, {
          add := nofun
          del := nofun
          remove := nofun
          wait := fun j c waits => Or.inl (waits_goto waits nofun)
          died := fun dead alive => absurd (alive.symm.trans dead) Bool.false_ne_true }⟩
      · cases taken
        constructor
        · exact owned_awaitComplete (e := { e with wpdu, stream, obtained := _ })
            (fun j _ => free j) (Connection.writepdu_buf written) b
        · exact {
            add := fun flag same => by cases same; exact ⟨rfl, alive⟩
            del := nofun
            remove := nofun
            wait := fun _ _ _ => Or.inr rfl
            died := fun dead alive => by
              rw [awaitComplete_dead] at dead
              exact absurd (alive.symm.trans dead) Bool.false_ne_true }

omit [DecidableEq ι] in
/-- A step that asks for nothing and lets nobody wait for the rest of a PDU. -/
theorem asks_nothing (wait : ∀ j c, next.senders j = .waitComplete c →
    e.senders j = .waitComplete c) (dead : next.dead = e.dead) : Asks e next none where
  add := nofun
  del := nofun
  remove := nofun
  wait j c waits := Or.inl (wait j c waits)
  died now before := absurd (before.symm.trans (dead.symm.trans now)) Bool.false_ne_true

theorem Owned.awaitTurn (owned : e.Owned) (outside : (e.senders i).owns = false)
    {result : WriteResult} (taken : e.awaitTurn i b result = some (next, call)) :
    next.Owned ∧ Asks e next call := by
  unfold Endpoint.awaitTurn at taken
  split at taken
  · cases taken
    have moved := owned.goto (.waitTurn b) outside rfl
    exact ⟨⟨moved.full, moved.unique, moved.unfinished⟩,
      asks_nothing (fun _ _ waits => waits_goto waits nofun) rfl⟩
  · next turn =>
      dsimp only at taken
      split at taken
      · cases taken
        have moved := owned.goto (.returned b false) outside rfl
        exact ⟨⟨moved.full, moved.unique, moved.unfinished⟩,
          asks_nothing (fun _ _ waits => waits_goto waits nofun) rfl⟩
      · next alive =>
          rw [Bool.not_eq_true] at alive
          have empty : e.wpdu.buf.isSome = false := by simpa [alive] using turn
          have free := owned.nobody empty
          rcases owned_obtain (e := { e with waiters := e.waiters - 1 }) free alive taken with
            ⟨owned, asks⟩
          exact ⟨owned, asks.add, asks.del, asks.remove, asks.wait, asks.died⟩

theorem Owned.wakeComplete (owned : e.Owned) (waits : e.senders i = .waitComplete b) :
    (e.awaitComplete i b).Owned ∧ Asks e (e.awaitComplete i b) none := by
  have owns : (e.senders i).owns = true := by rw [waits]; rfl
  constructor
  · exact owned_awaitComplete (owned.others owns) (owned.full i owns) b
  · apply asks_nothing
    · unfold Endpoint.awaitComplete
      split
      · intro j c waitsNow
        by_cases self : j = i
        · simp only [self, Endpoint.goto, Function.update_self] at waitsNow
          rw [self, waits, waitsNow]
        · simpa [Endpoint.goto, self] using waitsNow
      · exact fun j c waitsNow => waits_goto waitsNow (by simp)
    · exact awaitComplete_dead e i b

/-- `writepdu` leaves `sz` alone unless it fails. -/
theorem writepdu_sz {wpdu after : Connection.Charbuf} {stream stream' : List UInt8}
    {result : WriteResult} (written : writepdu wpdu stream result = some (true, after, stream')) :
    after.sz = wpdu.sz := by
  unfold writepdu at written
  split at written
  · contradiction
  · split at written
    · cases written
      rfl
    · split at written
      · contradiction
      · dsimp only at written
        split at written
        · cases written
        · cases written
          rfl
        · split at written
          · cases written
            rfl
          · contradiction

omit [DecidableEq ι] in
/-- A callback leaves the senders alone. -/
theorem Owned.callback (owned : e.Owned) (senders : next.senders = e.senders)
    (full : next.wpdu.buf.isSome = e.wpdu.buf.isSome)
    (sz : next.dead = false → e.dead = false ∧ next.wpdu.sz = e.wpdu.sz) : next.Owned where
  full i owns := full.trans (owned.full i (senders ▸ owns))
  unique i j first second := owned.unique i j (senders ▸ first) (senders ▸ second)
  unfinished alive i b waits := by
    rcases sz alive with ⟨before, same⟩
    rw [same]
    exact owned.unfinished before i b (senders ▸ waits)

theorem Owned.writeCb (owned : e.Owned) {pick : ι} {result : WriteResult}
    (taken : e.writeCb pick result = some (next, call)) : next.Owned ∧ Asks e next call := by
  unfold Endpoint.writeCb at taken
  split at taken
  · contradiction
  next alive =>
    rw [Bool.not_eq_true] at alive
    split at taken
    · next empty =>
        cases taken
        exact ⟨owned, {
          add := nofun
          del := fun flag same => by cases same; exact Or.inr ⟨rfl, empty⟩
          remove := nofun
          wait := fun _ _ waits => Or.inl waits
          died := fun dead _ => absurd (alive.symm.trans dead) Bool.false_ne_true }⟩
    · split at taken
      · contradiction
      · next wpdu stream failed =>
          rcases Option.map_eq_some_iff.mp taken with ⟨sendComplete, -, same⟩
          cases same
          exact ⟨owned.callback rfl (Connection.writepdu_buf failed) nofun, {
            add := nofun
            del := fun flag same => by cases same; exact Or.inl ⟨rfl, rfl⟩
            remove := nofun
            wait := fun _ _ waits => Or.inl waits
            died := fun _ _ => Or.inl rfl }⟩
      · next wpdu stream written =>
          have kept := Connection.writepdu_buf written
          have sz := writepdu_sz written
          split at taken
          · contradiction
          · split at taken
            · cases taken
              exact ⟨owned.callback rfl kept fun alive => ⟨alive, sz⟩,
                asks_nothing (fun _ _ waits => waits) rfl⟩
            · rcases Option.map_eq_some_iff.mp taken with ⟨sendComplete, -, same⟩
              cases same
              exact ⟨owned.callback rfl kept fun alive => ⟨alive, sz⟩,
                asks_nothing (fun _ _ waits => waits) rfl⟩

theorem Owned.readCb (owned : e.Owned) {pick : ι} {succ : Bool}
    (taken : e.readCb pick succ = some (next, call)) : next.Owned ∧ Asks e next call := by
  unfold Endpoint.readCb at taken
  split at taken
  · cases taken
    exact ⟨owned, asks_nothing (fun _ _ waits => waits) rfl⟩
  · split at taken
    · cases taken
      exact ⟨owned, asks_nothing (fun _ _ waits => waits) rfl⟩
    · rcases Option.map_eq_some_iff.mp taken with ⟨sendComplete, -, same⟩
      cases same
      exact ⟨owned.callback rfl rfl nofun, {
        add := nofun
        del := fun flag same => by cases same; exact Or.inl ⟨rfl, rfl⟩
        remove := nofun
        wait := fun _ _ waits => Or.inl waits
        died := fun _ _ => Or.inl rfl }⟩

omit [DecidableEq ι] in
theorem Owned.closeconn (owned : e.Owned) :
    e.closeconn.1.Owned ∧ Asks e e.closeconn.1 e.closeconn.2 := by
  unfold Endpoint.closeconn
  split
  · exact ⟨owned.callback rfl rfl nofun, {
      add := nofun
      del := nofun
      remove := fun _ => rfl
      wait := fun _ _ waits => Or.inl waits
      died := fun _ _ => Or.inr rfl }⟩
  · exact ⟨owned, asks_nothing (fun _ _ waits => waits) rfl⟩

theorem Owned.step (owned : e.Owned) {action : Action ι}
    (taken : e.step action = some (next, call)) : next.Owned ∧ Asks e next call := by
  cases action with
  | send i b result =>
      simp only [Endpoint.step] at taken
      split at taken
      · next idle =>
          have outside : (e.senders i).owns = false := by rw [idle]; rfl
          have entered : Owned { e with waiters := e.waiters + 1 } :=
            ⟨owned.full, owned.unique, owned.unfinished⟩
          rcases entered.awaitTurn outside taken with ⟨owned, asks⟩
          exact ⟨owned, asks.add, asks.del, asks.remove, asks.wait, asks.died⟩
      · contradiction
  | wakeTurn i result =>
      simp only [Endpoint.step] at taken
      split at taken
      · next b waits =>
          rcases Option.bind_eq_some_iff.mp taken with ⟨sendWait, -, turn⟩
          have outside : (e.senders i).owns = false := by rw [waits]; rfl
          have woken : Owned { e with sendWait } := ⟨owned.full, owned.unique, owned.unfinished⟩
          rcases woken.awaitTurn outside turn with ⟨owned, asks⟩
          exact ⟨owned, asks.add, asks.del, asks.remove, asks.wait, asks.died⟩
      · contradiction
  | wakeComplete i =>
      simp only [Endpoint.step] at taken
      split at taken
      · next b waits =>
          rcases Option.map_eq_some_iff.mp taken with ⟨sendComplete, -, same⟩
          cases same
          have woken : Owned { e with sendComplete } :=
            ⟨owned.full, owned.unique, owned.unfinished⟩
          rcases woken.wakeComplete waits with ⟨owned, asks⟩
          exact ⟨owned, asks.add, asks.del, asks.remove, asks.wait, asks.died⟩
      · contradiction
  | removed i =>
      simp only [Endpoint.step] at taken
      split at taken
      · next b removing =>
          cases taken
          have owns : (e.senders i).owns = true := by rw [removing]; rfl
          exact ⟨owned_finish (owned.others owns) b,
            asks_nothing (fun _ _ waits => waits_goto waits (by simp)) rfl⟩
      · contradiction
  | writeCb pick result => exact owned.writeCb taken
  | readCb pick succ => exact owned.readCb taken
  | closeconn =>
      have same : e.closeconn = (next, call) := Option.some.inj taken
      have closed := owned.closeconn
      rwa [same] at closed
  | spuriousTurn i | spuriousComplete i =>
      rcases Option.map_eq_some_iff.mp taken with ⟨_, -, same⟩
      cases same
      exact ⟨⟨owned.full, owned.unique, owned.unfinished⟩,
        asks_nothing (fun _ _ waits => waits) rfl⟩

end Endpoint

namespace SelectAio

variable {aio : SelectAio} {fd other : Nat} {flag : PollFlag}

theorem mem_rfds_watchFd (member : other ∈ aio.rfds) : other ∈ (aio.watchFd fd flag).rfds := by
  change other ∈ (if flag.reads then insert fd aio.rfds else aio.rfds)
  split
  · exact Finset.mem_insert_of_mem member
  · exact member

theorem mem_wfds_watchFd (member : other ∈ aio.wfds) : other ∈ (aio.watchFd fd flag).wfds := by
  change other ∈ (if flag.writes then insert fd aio.wfds else aio.wfds)
  split
  · exact Finset.mem_insert_of_mem member
  · exact member

theorem mem_wfds_clear (member : other ∈ aio.wfds) (differs : other ≠ fd) :
    other ∈ (aio.clear fd flag).wfds := by
  change other ∈ (if flag.writes then aio.wfds.erase fd else aio.wfds)
  split
  · exact Finset.mem_erase.mpr ⟨differs, member⟩
  · exact member

end SelectAio

/-- A descriptor that is watched for reading stays registered when it is not watched for
writing any more. -/
theorem PollMgr.delCallback_wronly {τ κ : Type} {p : PollMgr τ κ} {fd : Nat}
    (reads : fd ∈ p.aio.rfds) :
    (p.delCallback fd .wronly).aio.rfds = p.aio.rfds ∧
      (p.delCallback fd .wronly).callbacks = p.callbacks := by
  have kept : (p.aio.unwatchFd fd .wronly).1.rfds = p.aio.rfds := SelectAio.rfds_unwatchFd
  have watched : (p.aio.unwatchFd fd .wronly).2 ≠ true := by
    rw [Ne, SelectAio.unwatchFd_gone, not_not]
    exact Or.inl (kept ▸ reads)
  exact ⟨kept, if_neg watched⟩

namespace Polled

variable {ι κ : Type} {this : κ} {s next : Polled ι κ}

/-- What the poll manager knows of the connection. -/
structure Registered (this : κ) (s : Polled ι κ) : Prop where
  reads : s.conn.dead = false →
    s.fd ∈ s.poll.aio.rfds ∧ s.poll.callbacks s.fd = some this
  writes : s.conn.dead = false → ∀ i b, s.conn.senders i = .waitComplete b →
    s.fd ∈ s.poll.aio.wfds
  unwatched : s.conn.dead = true → s.poll.aio.Watched s.fd → ∃ i, s.removal i = .due

structure RegisteredInv (this : κ) (s : Polled ι κ) : Prop extends Registered this s where
  owned : s.conn.Owned
  removing : ∀ i, s.removal i ≠ .none → s.conn.dead = true

variable [DecidableEq ι] [DecidableEq κ]

theorem registeredInv_initial (pipefd fd : Nat) :
    RegisteredInv this (machine ι this pipefd fd).initial where
  reads _ := by
    constructor
    · exact Finset.mem_insert_self ..
    · exact Function.update_self fd (some this) fun _ => none
  writes _ _ _ waits := nomatch waits
  unwatched dead := nomatch dead
  owned := Endpoint.owned_of_free fun _ => rfl
  removing _ removing := absurd rfl removing

/-- What a step of the connection asks for is done. -/
theorem connStep_poll {a : Endpoint.Action ι} {call : Option PollCall}
    (taken : s.connStep this a = some (next, call)) :
    next.fd = s.fd ∧ next.removal = s.removal ∧ s.conn.step a = some (next.conn, call) ∧
      match call with
      | some (.addCallback flag) => s.poll.addCallback s.fd flag this = some next.poll
      | some (.delCallback flag) => next.poll = s.poll.delCallback s.fd flag
      | some .blockRemove | none => next.poll = s.poll := by
  unfold connStep at taken
  split at taken
  · contradiction
  · next conn asked stepped =>
      split at taken
      · rcases Option.map_eq_some_iff.mp taken with ⟨poll, added, same⟩
        cases same
        exact ⟨rfl, rfl, stepped, added⟩
      · cases taken
        exact ⟨rfl, rfl, stepped, rfl⟩
      · cases taken
        exact ⟨rfl, rfl, stepped, rfl⟩
      · cases taken
        exact ⟨rfl, rfl, stepped, rfl⟩

/-- What the connection asked for keeps what is watched for it in order, unless the thread
has yet to ask for the removal. -/
theorem RegisteredInv.connStep (inv : RegisteredInv this s) {a : Endpoint.Action ι}
    {call : Option PollCall} (taken : s.connStep this a = some (next, call)) :
    call = some .blockRemove ∧ next.conn.dead = true ∧ next.conn.Owned ∨
      RegisteredInv this next := by
  rcases connStep_poll taken with ⟨fd, removal, stepped, poll⟩
  rcases inv.owned.step stepped with ⟨owned, asks⟩
  have alive (now : next.conn.dead = false) : s.conn.dead = false := by
    by_contra dead
    have still := (Endpoint.step_dead (Bool.not_eq_false _ ▸ dead) stepped).1
    exact absurd (now.symm.trans still) Bool.false_ne_true
  have removing (i : ι) (removes : next.removal i ≠ .none) : next.conn.dead = true :=
    (Endpoint.step_dead (inv.removing i (removal ▸ removes)) stepped).1
  cases call with
  | none =>
      right
      refine { owned, removing, reads := ?_, writes := ?_, unwatched := ?_ }
      · intro now
        rw [fd, poll]
        exact inv.reads (alive now)
      · intro now i b waits
        rw [fd, poll]
        rcases asks.wait i b waits with before | asked
        · exact inv.writes (alive now) i b before
        · contradiction
      · intro dead watched
        rw [fd, poll] at watched
        rw [removal]
        cases before : s.conn.dead with
        | true => exact inv.unwatched before watched
        | false => rcases asks.died dead before with asked | asked <;> contradiction
  | some call =>
      cases call with
      | blockRemove => exact Or.inl ⟨rfl, asks.remove rfl, owned⟩
      | addCallback flag =>
          right
          rcases asks.add flag rfl with ⟨rfl, before⟩
          dsimp only [PollMgr.addCallback] at poll
          split at poll
          case isFalse => contradiction
          have poll := (Option.some.inj poll).symm
          refine { owned, removing, reads := ?_, writes := ?_, unwatched := ?_ }
          · intro now
            rw [fd, poll]
            exact ⟨SelectAio.mem_rfds_watchFd (inv.reads before).1, Function.update_self ..⟩
          · intro now i b waits
            rw [fd, poll]
            exact Finset.mem_insert_self ..
          · intro dead
            rcases asks.died dead before with asked | asked <;> contradiction
      | delCallback flag =>
          right
          rcases asks.del flag rfl with ⟨rfl, died⟩ | ⟨rfl, empty⟩
          · refine { owned, removing, reads := ?_, writes := ?_, unwatched := ?_ }
            · exact fun now => absurd (now.symm.trans died) Bool.false_ne_true
            · exact fun now => absurd (now.symm.trans died) Bool.false_ne_true
            · intro _ watched
              rw [fd, poll] at watched
              exact absurd watched SelectAio.not_watched_unwatchFd
          · have before : s.conn.dead = false := by
              by_contra dead
              have asked := (Endpoint.step_dead (Bool.not_eq_false _ ▸ dead) stepped).2
              contradiction
            refine { owned, removing, reads := ?_, writes := ?_, unwatched := ?_ }
            · intro now
              rw [fd, poll]
              rcases PollMgr.delCallback_wronly (inv.reads before).1 with ⟨rfds, callbacks⟩
              rw [rfds, callbacks]
              exact inv.reads before
            · intro now i b waits
              rcases asks.wait i b waits with waited | asked
              · exact absurd empty (inv.owned.unfinished before i b waited)
              · contradiction
            · intro dead
              rcases asks.died dead before with asked | asked <;> contradiction

theorem RegisteredInv.threadStep (inv : RegisteredInv this s) {i : ι} {a : Endpoint.Action ι}
    (taken : s.threadStep this i a = some next) : RegisteredInv this next := by
  rcases Option.map_eq_some_iff.mp taken with ⟨⟨after, call⟩, stepped, rfl⟩
  rcases inv.connStep stepped with ⟨rfl, died, owned⟩ | kept
  · -- the thread has found the connection dead and is going to remove it
    exact {
      reads := fun alive => absurd (alive.symm.trans died) Bool.false_ne_true
      writes := fun alive => absurd (alive.symm.trans died) Bool.false_ne_true
      unwatched := fun _ _ => ⟨i, Function.update_self ..⟩
      owned
      removing := fun _ _ => died }
  · dsimp only
    split
    · next asked =>
        have died : after.conn.dead = true := by
          rcases connStep_poll stepped with ⟨-, -, moved, -⟩
          exact (inv.owned.step moved).2.remove asked
        exact {
          reads := kept.reads
          writes := kept.writes
          unwatched := fun _ _ => ⟨i, Function.update_self ..⟩
          owned := kept.owned
          removing := fun _ _ => died }
    · exact kept

omit [DecidableEq ι] [DecidableEq κ] in
/-- A step that leaves the connection and what is watched for it alone. -/
theorem RegisteredInv.frame (inv : RegisteredInv this s) {poll : PollMgr ι κ}
    (reads : s.fd ∈ s.poll.aio.rfds → s.fd ∈ poll.aio.rfds)
    (writes : s.fd ∈ s.poll.aio.wfds → s.fd ∈ poll.aio.wfds)
    (watched : poll.aio.Watched s.fd → s.poll.aio.Watched s.fd)
    (callbacks : poll.callbacks s.fd = s.poll.callbacks s.fd) :
    RegisteredInv this { s with poll } where
  reads alive := (inv.reads alive).imp reads callbacks.trans
  writes alive i b waits := writes (inv.writes alive i b waits)
  unwatched dead still := inv.unwatched dead (watched still)
  owned := inv.owned
  removing := inv.removing

omit [DecidableEq κ] in
theorem RegisteredInv.loopStep (inv : RegisteredInv this s) {step : PollMgr.LoopStep}
    {poll : PollMgr ι κ} (taken : s.poll.loopStep step = some poll) :
    RegisteredInv this { s with poll } := by
  have same := PollMgr.loopStep_same taken
  apply inv.frame
  · exact fun reads => same.aio ▸ reads
  · exact fun writes => same.aio ▸ writes
  · exact fun watched => same.aio ▸ watched
  · rw [same.callbacks]

theorem RegisteredInv.callback (inv : RegisteredInv this s) {a : Endpoint.Action ι}
    (safe : ¬ s.conn.Kills a)
    (taken : s.callback this a = some next) : RegisteredInv this next := by
  rcases Option.bind_eq_some_iff.mp taken with ⟨⟨after, call⟩, stepped, returns⟩
  rcases Option.map_eq_some_iff.mp returns with ⟨poll, returned, rfl⟩
  rcases inv.connStep stepped with ⟨rfl, died, -⟩ | kept
  · -- no callback waits for its own loop
    exfalso
    have moved := (connStep_poll stepped).2.2.1
    cases before : s.conn.dead with
    | true => exact absurd (Endpoint.step_dead before moved).2 nofun
    | false =>
        rcases Endpoint.step_dies before moved died with kills | ⟨-, asked⟩
        · exact safe kills
        · contradiction
  · exact kept.loopStep returned

omit [DecidableEq ι] in
theorem RegisteredInv.otherAdd (inv : RegisteredInv this s) {fd : Nat} {flag : PollFlag} {ch : κ}
    {poll : PollMgr ι κ} (other : fd ≠ s.fd) (taken : s.poll.addCallback fd flag ch = some poll) :
    RegisteredInv this { s with poll } := by
  unfold PollMgr.addCallback at taken
  split at taken
  · cases taken
    apply inv.frame
    · exact SelectAio.mem_rfds_watchFd
    · exact SelectAio.mem_wfds_watchFd
    · exact (SelectAio.watched_watchFd other.symm).mp
    · exact Function.update_of_ne other.symm _ _
  · contradiction

omit [DecidableEq ι] [DecidableEq κ] in
/-- Another descriptor is unwatched. -/
theorem RegisteredInv.unwatch (inv : RegisteredInv this s) {fd : Nat} {flag : PollFlag}
    {poll : PollMgr ι κ} (other : fd ≠ s.fd) (aio : poll.aio = (s.poll.aio.unwatchFd fd flag).1)
    (callbacks : poll.callbacks s.fd = s.poll.callbacks s.fd) :
    RegisteredInv this { s with poll } := by
  apply inv.frame
  · intro reads
    rw [aio, SelectAio.rfds_unwatchFd]
    exact SelectAio.mem_rfds_clear reads other.symm
  · intro writes
    rw [aio, SelectAio.wfds_unwatchFd]
    exact SelectAio.mem_wfds_clear writes other.symm
  · intro watched
    rw [aio] at watched
    exact SelectAio.watched_of_unwatchFd watched
  · exact callbacks

theorem RegisteredInv.blockRemove (inv : RegisteredInv this s) {i : ι}
    (taken : s.step this (.blockRemove i) = some next) : RegisteredInv this next := by
  simp only [Polled.step] at taken
  split at taken
  · next ready =>
      cases taken
      have dead : s.conn.dead = true := inv.removing i (by rw [ready.1]; simp)
      exact {
        reads := fun alive => absurd (alive.symm.trans dead) Bool.false_ne_true
        writes := fun alive => absurd (alive.symm.trans dead) Bool.false_ne_true
        unwatched := fun _ watched => absurd watched SelectAio.not_watched_unwatchFd
        owned := inv.owned
        removing := fun _ _ => dead }
  · contradiction

theorem RegisteredInv.finishRemove (inv : RegisteredInv this s) {i : ι}
    (taken : s.step this (.finishRemove i) = some next) : RegisteredInv this next := by
  simp only [Polled.step] at taken
  split at taken
  · next inside =>
      rcases Option.map_eq_some_iff.mp taken with ⟨poll, finished, rfl⟩
      rcases Option.map_eq_some_iff.mp finished with ⟨changedone, -, rfl⟩
      have dead : s.conn.dead = true := inv.removing i (by rw [inside]; simp)
      exact {
        reads := fun alive => absurd (alive.symm.trans dead) Bool.false_ne_true
        writes := fun alive => absurd (alive.symm.trans dead) Bool.false_ne_true
        unwatched := fun _ watched => by
          rcases inv.unwatched dead watched with ⟨j, due⟩
          refine ⟨j, ?_⟩
          have differs : j ≠ i := by
            intro self
            rw [self, inside] at due
            contradiction
          exact (Function.update_of_ne differs _ _).trans due
        owned := inv.owned
        removing := fun _ _ => dead }
  · contradiction

theorem RegisteredInv.step (inv : RegisteredInv this s) {action : Action ι κ}
    (taken : s.step this action = some next) : RegisteredInv this next := by
  cases action with
  | send i b result =>
      simp only [Polled.step] at taken
      split at taken
      · exact inv.threadStep taken
      · contradiction
  | wakeTurn i result => exact inv.threadStep taken
  | wakeComplete i => exact inv.threadStep taken
  | removed i =>
      simp only [Polled.step] at taken
      split at taken
      · exact inv.threadStep taken
      · contradiction
  | closeconn i =>
      simp only [Polled.step] at taken
      split at taken
      · exact inv.threadStep taken
      · contradiction
  | spuriousTurn i => exact inv.threadStep taken
  | spuriousComplete i => exact inv.threadStep taken
  | blockRemove i => exact inv.blockRemove taken
  | finishRemove i => exact inv.finishRemove taken
  | spuriousRemove i =>
      rcases Option.map_eq_some_iff.mp taken with ⟨poll, woken, rfl⟩
      rcases Option.map_eq_some_iff.mp woken with ⟨changedone, -, rfl⟩
      exact inv.frame id id id rfl
  | loop step =>
      simp only [Polled.step] at taken
      split at taken
      · split at taken
        · contradiction
        · rcases Option.map_eq_some_iff.mp taken with ⟨poll, stepped, rfl⟩
          exact inv.loopStep stepped
      · split at taken
        · contradiction
        · rcases Option.map_eq_some_iff.mp taken with ⟨poll, stepped, rfl⟩
          exact inv.loopStep stepped
      · rcases Option.map_eq_some_iff.mp taken with ⟨poll, stepped, rfl⟩
        exact inv.loopStep stepped
  | readCb pick succ =>
      simp only [Polled.step] at taken
      split at taken
      · split at taken
        · exact inv.callback id taken
        · contradiction
      · contradiction
  | writeCb pick result =>
      simp only [Polled.step] at taken
      split at taken
      · split at taken
        · exact inv.callback id taken
        · contradiction
      · contradiction
  | otherAdd fd flag ch =>
      simp only [Polled.step] at taken
      split at taken
      · contradiction
      · next other =>
          rcases Option.map_eq_some_iff.mp taken with ⟨poll, added, rfl⟩
          exact inv.otherAdd other added
  | otherDel fd flag =>
      simp only [Polled.step] at taken
      split at taken
      · contradiction
      · next other =>
          cases taken
          apply inv.unwatch other rfl
          dsimp only [PollMgr.delCallback]
          split
          · exact Function.update_of_ne (Ne.symm other) _ _
          · rfl
  | otherRemove i fd =>
      simp only [Polled.step] at taken
      split at taken
      · next other =>
          cases taken
          exact inv.unwatch other.1 rfl rfl
      · contradiction
  | otherFinish i =>
      simp only [Polled.step] at taken
      split at taken
      · contradiction
      · next fd _ =>
          split at taken
          · contradiction
          · next other =>
              rcases Option.map_eq_some_iff.mp taken with ⟨poll, finished, rfl⟩
              rcases Option.map_eq_some_iff.mp finished with ⟨changedone, -, rfl⟩
              exact inv.frame id id id (Function.update_of_ne (Ne.symm other) _ _)

/-- In every run, a connection that is not dead is watched and its callback known, for
writing too while a sender waits for the rest of its PDU, and a dead one is not watched
longer than its removal is due. -/
theorem stays_registered {pipefd fd : Nat}
    (reachable : (machine ι this pipefd fd).Reachable s) : s.Registered this :=
  (reachable.invariant (RegisteredInv this) (registeredInv_initial pipefd fd)
    fun _ _ _ _ inv taken => inv.step taken).toRegistered

theorem stays_registered_partlyWritten :
    ∃ s, (machine Bool 1 3 5).Reachable s ∧
      s.conn.senders false = .waitComplete [0, 0, 0, 0, 0, 0, 0, 0] ∧ s.Registered 1 := by
  have run : ((machine Bool 1 3 5).run (machine Bool 1 3 5).initial partlyWritten).map
      (fun s => s.conn.senders false) = some (.waitComplete [0, 0, 0, 0, 0, 0, 0, 0]) := by
    decide +kernel
  rcases Option.map_eq_some_iff.mp run with ⟨s, taken, waits⟩
  have reachable := Machine.reachable_of_run taken
  exact ⟨s, reachable, waits, stays_registered reachable⟩

end Polled

end YfsRpc.Rpc
