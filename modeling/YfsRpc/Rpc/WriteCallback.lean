import YfsRpc.Rpc.Polled

/-! # The write callback of a dead connection

`write_cb` asserts that the connection is not dead. A callback that finds it dead removes
the descriptor in the thread of the poll manager itself, so no other callback follows.
But `closeconn` and a failed `send` set `dead_` first and remove the descriptor later,
and an iteration in progress may have it on its list.
-/

namespace YfsRpc.Rpc

open Connection (WriteResult writepdu)

/-! ## Writable descriptors -/

namespace Loop

variable {κ : Type}

/-- `write_cb` was called for the descriptor. -/
def AtWrite (fd : Nat) : Loop κ → Prop
  | writing other _ _ => other = fd
  | top | polling | selecting .. | scanning .. | toRead .. | reading .. | toWrite .. => False

/-- `write_cb` is running or about to start for the descriptor. -/
def CallsWrite (fd : Nat) : Loop κ → Prop
  | toWrite other _ _ | writing other _ _ => other = fd
  | top | polling | selecting .. | scanning .. | toRead .. | reading .. => False

/-- The iteration in progress may call `write_cb` for the descriptor. -/
def HoldsWrite (fd : Nat) : Loop κ → Prop
  | top | polling => False
  | selecting _ twfds _ => fd ∈ twfds
  | scanning _ writable | toRead _ _ _ writable | reading _ _ _ writable => fd ∈ writable
  | toWrite other _ writable | writing other _ writable => other = fd ∨ fd ∈ writable

theorem callsWrite_of_atWrite {fd : Nat} {loop : Loop κ} (atWrite : loop.AtWrite fd) :
    loop.CallsWrite fd := by
  cases loop with
  | writing => exact atWrite
  | top | polling | selecting | scanning | toRead | reading | toWrite => contradiction

theorem holdsWrite_of_callsWrite {fd : Nat} {loop : Loop κ} (calls : loop.CallsWrite fd) :
    loop.HoldsWrite fd := by
  cases loop with
  | toWrite | writing => exact Or.inl calls
  | top | polling | selecting | scanning | toRead | reading => contradiction

end Loop

namespace PollMgr

variable {τ κ : Type} [DecidableEq τ] {p q : PollMgr τ κ} {fd : Nat}

omit [DecidableEq τ] in
theorem holdsWrite_of_nextReady {readable writable : List Nat}
    (holds : (p.nextReady readable writable).loop.HoldsWrite fd) : fd ∈ writable := by
  unfold nextReady at holds
  split at holds
  · split at holds <;> exact holds
  · split at holds
    · rcases holds with rfl | later
      · exact List.mem_cons_self
      · exact List.mem_cons_of_mem _ later
    · exact List.mem_cons_of_mem _ holds
  · contradiction

/-- A descriptor becomes writable for the loop when the watched sets are copied. -/
theorem holdsWrite_of_loopStep {step : LoopStep} (taken : p.loopStep step = some q)
    (holds : q.loop.HoldsWrite fd) :
    p.loop.HoldsWrite fd ∨ step = .copy ∧ fd ∈ p.aio.wfds := by
  unfold loopStep at taken
  split at taken
  · cases taken
    unfold announce at holds
    split at holds <;> contradiction
  · cases taken
    exact Or.inr ⟨rfl, holds⟩
  · next selecting =>
      split at taken
      · next inside =>
          cases taken
          have reported := (List.mem_filter.mp holds).2
          simp only [decide_eq_true_eq] at reported
          rw [selecting]
          exact Or.inl (inside.2 reported.1)
      · contradiction
  · next scanning =>
      cases taken
      rw [scanning]
      exact Or.inl (holdsWrite_of_nextReady holds)
  · next toRead =>
      rcases Option.map_eq_some_iff.mp taken with ⟨_, _, rfl⟩
      rw [toRead]
      exact Or.inl holds
  · next toWrite =>
      rcases Option.map_eq_some_iff.mp taken with ⟨_, _, rfl⟩
      rw [toWrite]
      exact Or.inl holds
  · next reading =>
      cases taken
      rw [reading]
      exact Or.inl holds
  · next writing =>
      cases taken
      rw [writing]
      exact Or.inl (Or.inr holds)
  · contradiction

/-- `write_cb` is called for a descriptor of the list that was found registered. -/
theorem callsWrite_of_loopStep {step : LoopStep} (taken : p.loopStep step = some q)
    (calls : q.loop.CallsWrite fd) :
    p.loop.CallsWrite fd ∨ p.loop.HoldsWrite fd ∧ p.callbacks fd ≠ none := by
  unfold loopStep at taken
  split at taken
  · cases taken
    unfold announce at calls
    split at calls <;> contradiction
  · cases taken
    contradiction
  · split at taken
    · cases taken
      contradiction
    · contradiction
  · next scanning =>
      cases taken
      right
      rw [scanning]
      refine ⟨holdsWrite_of_nextReady (Loop.holdsWrite_of_callsWrite calls), ?_⟩
      unfold nextReady at calls
      split at calls
      · split at calls <;> contradiction
      · split at calls
        · next registered =>
            cases calls
            simp [registered]
        · contradiction
      · contradiction
  · rcases Option.map_eq_some_iff.mp taken with ⟨_, _, rfl⟩
    contradiction
  · next toWrite =>
      rcases Option.map_eq_some_iff.mp taken with ⟨_, _, rfl⟩
      left
      rw [toWrite]
      exact calls
  · cases taken
    contradiction
  · cases taken
    contradiction
  · contradiction

theorem finishRemove_some {t : τ} (taken : p.finishRemove t fd = some q) :
    q.loop = p.loop ∧ q.callbacks = Function.update p.callbacks fd none := by
  rcases Option.map_eq_some_iff.mp taken with ⟨_, _, rfl⟩
  exact ⟨rfl, rfl⟩

theorem not_callsWrite_return (taken : p.loopStep .return = some q) :
    ¬ q.loop.CallsWrite fd := by
  unfold loopStep at taken
  split at taken <;> first | contradiction | (cases taken; exact id)

end PollMgr

namespace PollMgr

theorem delCallback_rdwr {τ κ : Type} (p : PollMgr τ κ) (fd : Nat) :
    (p.delCallback fd .rdwr).callbacks fd = none := by
  have gone : (p.aio.unwatchFd fd .rdwr).2 = true :=
    SelectAio.unwatchFd_gone.mpr SelectAio.not_watched_unwatchFd
  simp [delCallback, gone]

end PollMgr

/-! ## Who finds a connection dead -/

/-- `writepdu` fails only when the write fails. -/
theorem Connection.writepdu_failed {wpdu after : Connection.Charbuf} {stream stream' : List UInt8}
    {result : WriteResult} (failed : writepdu wpdu stream result = some (false, after, stream')) :
    result = .error := by
  unfold writepdu at failed
  split at failed
  · contradiction
  · split at failed
    · cases failed
    · split at failed
      · contradiction
      · cases result with
        | error => rfl
        | again => cases failed
        | wrote n =>
            dsimp only at failed
            split at failed <;> cases failed

namespace Endpoint

variable {ι : Type} [DecidableEq ι] {e next : Endpoint ι} {call : Option PollCall}

/-- A step of the thread of the poll manager. -/
def Action.isCallback : Action ι → Bool
  | .writeCb .. | .readCb .. => true
  | _ => false

/-- A step that sets `dead_` outside a callback. -/
def Kills (e : Endpoint ι) : Action ι → Prop
  | .send _ _ result | .wakeTurn _ result =>
      e.dead = false ∧ e.wpdu.buf = none ∧ result = .error
  | .closeconn => e.dead = false
  | _ => False

theorem awaitComplete_dead (e : Endpoint ι) (i : ι) (b : List UInt8) :
    (e.awaitComplete i b).dead = e.dead := by
  unfold awaitComplete
  split <;> rfl

theorem awaitTurn_dead {i : ι} {b : List UInt8} {result : WriteResult}
    (taken : e.awaitTurn i b result = some (next, call)) (dead : e.dead = true) :
    next.dead = true ∧ call = none := by
  simp only [awaitTurn, dead, Bool.not_true, Bool.false_and, Bool.false_eq_true, if_false,
    if_true] at taken
  cases taken
  exact ⟨dead, rfl⟩

/-- Nothing is asked for a dead connection. -/
theorem step_dead {a : Action ι} (dead : e.dead = true) (taken : e.step a = some (next, call)) :
    next.dead = true ∧ call = none := by
  cases a with
  | send i b result =>
      simp only [step] at taken
      split at taken
      · exact awaitTurn_dead taken dead
      · contradiction
  | wakeTurn i result =>
      simp only [step] at taken
      split at taken
      · rcases Option.bind_eq_some_iff.mp taken with ⟨_, _, turn⟩
        exact awaitTurn_dead turn dead
      · contradiction
  | wakeComplete i =>
      simp only [step] at taken
      split at taken
      · rcases Option.map_eq_some_iff.mp taken with ⟨_, _, same⟩
        cases same
        exact ⟨(awaitComplete_dead ..).trans dead, rfl⟩
      · contradiction
  | removed i =>
      simp only [step] at taken
      split at taken
      · cases taken
        exact ⟨dead, rfl⟩
      · contradiction
  | writeCb pick result =>
      simp only [step, writeCb, dead, if_true] at taken
      contradiction
  | readCb pick succ =>
      simp only [step, readCb, dead, if_true] at taken
      cases taken
      exact ⟨dead, rfl⟩
  | closeconn =>
      simp only [step, closeconn, dead, Bool.not_true, Bool.false_eq_true, if_false] at taken
      cases taken
      exact ⟨dead, rfl⟩
  | spuriousTurn i | spuriousComplete i =>
      rcases Option.map_eq_some_iff.mp taken with ⟨_, _, same⟩
      cases same
      exact ⟨dead, rfl⟩

theorem obtain_dies {i : ι} {b : List UInt8} {result : WriteResult}
    (taken : e.obtain i b result = some (next, call)) (alive : e.dead = false)
    (dead : next.dead = true) :
    result = .error := by
  unfold obtain at taken
  dsimp only at taken
  split at taken
  · contradiction
  · next failed => exact Connection.writepdu_failed failed
  · split at taken
    · cases taken
      exact absurd (alive.symm.trans dead) Bool.false_ne_true
    · cases taken
      rw [awaitComplete_dead] at dead
      exact absurd (alive.symm.trans dead) Bool.false_ne_true

theorem awaitTurn_dies {i : ι} {b : List UInt8} {result : WriteResult}
    (taken : e.awaitTurn i b result = some (next, call)) (alive : e.dead = false)
    (dead : next.dead = true) :
    e.wpdu.buf = none ∧ result = .error := by
  unfold awaitTurn at taken
  split at taken
  · cases taken
    exact absurd (alive.symm.trans dead) Bool.false_ne_true
  · next turn =>
      simp only [alive, Bool.not_false, Bool.true_and, Option.not_isSome_iff_eq_none] at turn
      simp only [alive, Bool.false_eq_true, if_false] at taken
      exact ⟨turn, obtain_dies taken alive dead⟩

/-- A callback that finds the connection dead removes it. -/
theorem step_dies {a : Action ι} (alive : e.dead = false) (taken : e.step a = some (next, call))
    (dead : next.dead = true) :
    e.Kills a ∨ a.isCallback = true ∧ call = some (.delCallback .rdwr) := by
  have unchanged : next.dead ≠ e.dead := by
    rw [alive, dead]
    exact Bool.noConfusion
  cases a with
  | send i b result =>
      simp only [step] at taken
      split at taken
      · have failed := awaitTurn_dies taken alive dead
        exact Or.inl ⟨alive, failed⟩
      · contradiction
  | wakeTurn i result =>
      simp only [step] at taken
      split at taken
      · rcases Option.bind_eq_some_iff.mp taken with ⟨_, _, turn⟩
        have failed := awaitTurn_dies turn alive dead
        exact Or.inl ⟨alive, failed⟩
      · contradiction
  | wakeComplete i =>
      simp only [step] at taken
      split at taken
      · rcases Option.map_eq_some_iff.mp taken with ⟨_, _, same⟩
        cases same
        exact absurd (awaitComplete_dead ..) unchanged
      · contradiction
  | removed i =>
      simp only [step] at taken
      split at taken
      · cases taken
        exact absurd rfl unchanged
      · contradiction
  | writeCb pick result =>
      simp only [step, writeCb] at taken
      split at taken
      · contradiction
      · split at taken
        · cases taken
          exact absurd rfl unchanged
        · split at taken
          · contradiction
          · rcases Option.map_eq_some_iff.mp taken with ⟨_, _, same⟩
            cases same
            exact Or.inr ⟨rfl, rfl⟩
          · split at taken
            · contradiction
            · split at taken
              · cases taken
                exact absurd rfl unchanged
              · rcases Option.map_eq_some_iff.mp taken with ⟨_, _, same⟩
                cases same
                exact absurd rfl unchanged
  | readCb pick succ =>
      simp only [step, readCb] at taken
      split at taken
      · cases taken
        exact absurd rfl unchanged
      · split at taken
        · cases taken
          exact absurd rfl unchanged
        · rcases Option.map_eq_some_iff.mp taken with ⟨_, _, same⟩
          cases same
          exact Or.inr ⟨rfl, rfl⟩
  | closeconn => exact Or.inl alive
  | spuriousTurn i | spuriousComplete i =>
      rcases Option.map_eq_some_iff.mp taken with ⟨_, _, same⟩
      cases same
      exact absurd rfl unchanged

end Endpoint

namespace Polled

variable {ι κ : Type} {this : κ} {s next : Polled ι κ}

/-- `write_cb` is only entered while the connection is not dead. -/
def WritesAlive (s : Polled ι κ) : Prop := s.poll.loop.AtWrite s.fd → s.conn.dead = false

/-- The step sets `dead_` outside a callback. -/
def Kills (s : Polled ι κ) : Action ι κ → Prop
  | .send i b result => s.conn.Kills (.send i b result)
  | .wakeTurn i result => s.conn.Kills (.wakeTurn i result)
  | .closeconn _ => s.conn.Kills .closeconn
  | _ => False

/-- `dead_` is set outside a callback only while no iteration has the descriptor in its
write set or on its writable list, and no iteration copies the write set with the
descriptor of a dead connection in it. -/
def Timely (s : Polled ι κ) : Action ι κ → Prop
  | .loop .copy => s.conn.dead = true → s.fd ∉ s.poll.aio.wfds
  | action => s.Kills action → ¬ s.poll.loop.HoldsWrite s.fd

/-! ## The invariant -/

/-- An iteration that has a dead connection on its list finds no callback for it. -/
structure Inv (s : Polled ι κ) : Prop where
  uncalled : s.conn.dead = true → ¬ s.poll.loop.CallsWrite s.fd
  removed : s.conn.dead = true → s.poll.loop.HoldsWrite s.fd → s.poll.callbacks s.fd = none

theorem inv_of_alive (alive : s.conn.dead = false) : Inv s where
  uncalled dead := absurd (alive.symm.trans dead) Bool.false_ne_true
  removed dead := absurd (alive.symm.trans dead) Bool.false_ne_true

variable [DecidableEq ι] [DecidableEq κ]

theorem inv_initial (this : κ) (pipefd fd : Nat) : Inv (machine ι this pipefd fd).initial where
  uncalled dead := nomatch dead
  removed dead := nomatch dead

/-- What a step of the connection does to the poll manager. -/
structure ConnEffect (s after : Polled ι κ) (call : Option PollCall) : Prop where
  fd : after.fd = s.fd
  loop : after.poll.loop = s.poll.loop
  idle : call = none → after.poll = s.poll
  removed : call = some (.delCallback .rdwr) → after.poll.callbacks s.fd = none

theorem connStep_some {a : Endpoint.Action ι} {call : Option PollCall}
    (taken : s.connStep this a = some (next, call)) :
    s.conn.step a = some (next.conn, call) ∧ ConnEffect s next call := by
  unfold connStep at taken
  cases stepped : s.conn.step a with
  | none => simp [stepped] at taken
  | some outcome =>
      rcases outcome with ⟨conn, asked⟩
      simp only [stepped] at taken
      split at taken
      · rcases Option.map_eq_some_iff.mp taken with ⟨poll, added, same⟩
        cases same
        unfold PollMgr.addCallback at added
        split at added
        · cases added
          exact ⟨rfl, rfl, rfl, nofun, nofun⟩
        · contradiction
      · cases taken
        refine ⟨rfl, rfl, rfl, nofun, ?_⟩
        intro same
        cases same
        exact PollMgr.delCallback_rdwr s.poll s.fd
      · cases taken
        exact ⟨rfl, rfl, rfl, nofun, nofun⟩
      · cases taken
        exact ⟨rfl, rfl, rfl, fun _ => rfl, nofun⟩

/-- A thread may kill the connection while no iteration holds it. -/
theorem Inv.threadStep (inv : Inv s) {i : ι} {a : Endpoint.Action ι}
    (taken : s.threadStep this i a = some next) (outside : a.isCallback = false)
    (timely : s.conn.Kills a → ¬ s.poll.loop.HoldsWrite s.fd) : Inv next := by
  rcases Option.map_eq_some_iff.mp taken with ⟨⟨after, call⟩, stepped, same⟩
  rcases connStep_some stepped with ⟨conn, effect⟩
  have inv' : Inv after := by
    cases dead : s.conn.dead with
    | true =>
        have asked : call = none := (Endpoint.step_dead dead conn).2
        have poll := effect.idle asked
        constructor
        · intro _ calls
          rw [poll, effect.fd] at calls
          exact inv.uncalled dead calls
        · intro _ holds
          rw [poll, effect.fd] at holds ⊢
          exact inv.removed dead holds
    | false =>
        cases died : after.conn.dead with
        | false => exact inv_of_alive died
        | true =>
            rcases Endpoint.step_dies dead conn died with kills | ⟨callback, _⟩
            · have free := timely kills
              constructor
              · intro _ calls
                rw [effect.loop, effect.fd] at calls
                exact free (Loop.holdsWrite_of_callsWrite calls)
              · intro _ holds
                rw [effect.loop, effect.fd] at holds
                exact absurd holds free
            · rw [outside] at callback
              contradiction
  subst same
  dsimp only
  split
  · exact ⟨inv'.uncalled, inv'.removed⟩
  · exact inv'

/-- A callback that finds the connection dead leaves no callback for it. -/
theorem Inv.callback (inv : Inv s) {a : Endpoint.Action ι}
    (safe : s.conn.Kills a → False) (taken : s.callback this a = some next) : Inv next := by
  rcases Option.bind_eq_some_iff.mp taken with ⟨⟨after, call⟩, stepped, returns⟩
  rcases Option.map_eq_some_iff.mp returns with ⟨poll, returned, rfl⟩
  rcases connStep_some stepped with ⟨conn, effect⟩
  have left := PollMgr.loopStep_same returned
  constructor
  · exact fun _ => PollMgr.not_callsWrite_return returned
  · intro died holds
    dsimp only at died holds ⊢
    rw [left.callbacks, effect.fd]
    cases dead : s.conn.dead with
    | true =>
        have asked : call = none := (Endpoint.step_dead dead conn).2
        have same := effect.idle asked
        rw [same]
        rw [same] at returned
        rcases PollMgr.holdsWrite_of_loopStep returned holds with before | ⟨copying, _⟩
        · rw [effect.fd] at before
          exact inv.removed dead before
        · contradiction
    | false =>
        rcases Endpoint.step_dies dead conn died with kills | ⟨_, asked⟩
        · exact (safe kills).elim
        · exact effect.removed asked

omit [DecidableEq ι] [DecidableEq κ] in
/-- Steps that leave the connection and the loop alone, and register nothing for it. -/
theorem Inv.frame (inv : Inv s) (fd : next.fd = s.fd) (dead : next.conn.dead = s.conn.dead)
    (loop : next.poll.loop = s.poll.loop)
    (callbacks : s.poll.callbacks s.fd = none → next.poll.callbacks s.fd = none) : Inv next where
  uncalled died calls := by
    rw [dead] at died
    rw [loop, fd] at calls
    exact inv.uncalled died calls
  removed died holds := by
    rw [dead] at died
    rw [loop, fd] at holds
    rw [fd]
    exact callbacks (inv.removed died holds)

omit [DecidableEq κ] in
theorem Inv.loopStep (inv : Inv s) {loopStep : PollMgr.LoopStep} {poll : PollMgr ι κ}
    (timely : Timely s (.loop loopStep)) (taken : s.poll.loopStep loopStep = some poll) :
    Inv { s with poll } := by
  have same := PollMgr.loopStep_same taken
  constructor
  · intro dead calls
    rcases PollMgr.callsWrite_of_loopStep taken calls with before | ⟨holds, registered⟩
    · exact inv.uncalled dead before
    · exact registered (inv.removed dead holds)
  · intro dead holds
    dsimp only at holds ⊢
    rw [same.callbacks]
    rcases PollMgr.holdsWrite_of_loopStep taken holds with before | ⟨copying, watched⟩
    · exact inv.removed dead before
    · subst copying
      exact absurd watched (timely dead)

theorem Inv.step (inv : Inv s) {action : Action ι κ} (timely : Timely s action)
    (taken : s.step this action = some next) : Inv next := by
  cases action with
  | send i b result =>
      simp only [Polled.step] at taken
      split at taken
      · exact inv.threadStep taken rfl timely
      · contradiction
  | wakeTurn i result => exact inv.threadStep taken rfl timely
  | wakeComplete i => exact inv.threadStep taken rfl nofun
  | removed i =>
      simp only [Polled.step] at taken
      split at taken
      · exact inv.threadStep taken rfl nofun
      · contradiction
  | closeconn i =>
      simp only [Polled.step] at taken
      split at taken
      · exact inv.threadStep taken rfl timely
      · contradiction
  | spuriousTurn i => exact inv.threadStep taken rfl nofun
  | spuriousComplete i => exact inv.threadStep taken rfl nofun
  | blockRemove i =>
      simp only [Polled.step] at taken
      split at taken
      · cases taken
        exact inv.frame rfl rfl rfl id
      · contradiction
  | finishRemove i =>
      simp only [Polled.step] at taken
      split at taken
      · rcases Option.map_eq_some_iff.mp taken with ⟨poll, finished, rfl⟩
        rcases PollMgr.finishRemove_some finished with ⟨loop, callbacks⟩
        exact inv.frame rfl rfl loop fun _ => by simp [callbacks]
      · contradiction
  | spuriousRemove i =>
      rcases Option.map_eq_some_iff.mp taken with ⟨poll, woken, rfl⟩
      rcases Option.map_eq_some_iff.mp woken with ⟨_, _, rfl⟩
      exact inv.frame rfl rfl rfl id
  | loop step =>
      simp only [Polled.step] at taken
      split at taken
      · split at taken
        · contradiction
        · rcases Option.map_eq_some_iff.mp taken with ⟨poll, stepped, rfl⟩
          exact inv.loopStep timely stepped
      · split at taken
        · contradiction
        · rcases Option.map_eq_some_iff.mp taken with ⟨poll, stepped, rfl⟩
          exact inv.loopStep timely stepped
      · rcases Option.map_eq_some_iff.mp taken with ⟨poll, stepped, rfl⟩
        exact inv.loopStep timely stepped
  | readCb pick succ =>
      simp only [Polled.step] at taken
      split at taken
      · split at taken
        · exact inv.callback id taken
        · contradiction
      · contradiction
  | writeCb pick result =>
      simp only [Polled.step] at taken
      split at taken
      · split at taken
        · exact inv.callback id taken
        · contradiction
      · contradiction
  | otherAdd fd flag ch =>
      simp only [Polled.step] at taken
      split at taken
      · contradiction
      · next other =>
          rcases Option.map_eq_some_iff.mp taken with ⟨poll, added, rfl⟩
          unfold PollMgr.addCallback at added
          split at added
          · cases added
            exact inv.frame rfl rfl rfl fun none => by simp [Ne.symm other, none]
          · contradiction
  | otherDel fd flag =>
      simp only [Polled.step] at taken
      split at taken
      · contradiction
      · next other =>
          cases taken
          refine inv.frame rfl rfl rfl fun none => ?_
          simp only [PollMgr.delCallback]
          split
          · simp [Ne.symm other, none]
          · exact none
  | otherRemove i fd =>
      simp only [Polled.step] at taken
      split at taken
      · cases taken
        exact inv.frame rfl rfl rfl id
      · contradiction
  | otherFinish i =>
      simp only [Polled.step] at taken
      split at taken
      · contradiction
      · next fd _ =>
          split at taken
          · contradiction
          · next other =>
              rcases Option.map_eq_some_iff.mp taken with ⟨poll, finished, rfl⟩
              rcases PollMgr.finishRemove_some finished with ⟨loop, callbacks⟩
              exact inv.frame rfl rfl loop fun none => by simp [callbacks, Ne.symm other, none]

theorem reachable_inv {pipefd fd : Nat}
    (reachable : (machine ι this pipefd fd).ReachableUnder Timely s) : Inv s :=
  reachable.invariant Inv (inv_initial this pipefd fd) fun _ _ _ _ inv timely taken =>
    inv.step timely taken

/-! ## The assertion -/

/-- The assertion of `write_cb` holds in every run in which the connection dies outside
the callbacks only while no iteration holds it for writing. -/
theorem writes_alive {pipefd fd : Nat}
    (reachable : (machine ι this pipefd fd).ReachableUnder Timely s) : s.WritesAlive := by
  intro atWrite
  cases dead : s.conn.dead with
  | false => rfl
  | true =>
      exact absurd (Loop.callsWrite_of_atWrite atWrite) ((reachable_inv reachable).uncalled dead)

/-! ## Runs -/

instance (s : Polled ι κ) : Decidable (s.poll.loop.HoldsWrite s.fd) :=
  match s.poll.loop with
  | .top | .polling => instDecidableFalse
  | .selecting _ twfds _ => Finset.decidableMem s.fd twfds
  | .scanning _ writable | .toRead _ _ _ writable | .reading _ _ _ writable =>
      List.instDecidableMemOfLawfulBEq s.fd writable
  | .toWrite other _ writable | .writing other _ writable =>
      inferInstanceAs (Decidable (other = s.fd ∨ s.fd ∈ writable))

instance (s : Polled ι κ) : Decidable (s.poll.loop.AtWrite s.fd) :=
  match s.poll.loop with
  | .writing other _ _ => Nat.decEq other s.fd
  | .top | .polling | .selecting .. | .scanning .. | .toRead .. | .reading .. | .toWrite .. =>
      instDecidableFalse

instance (s : Polled ι κ) : ∀ action, Decidable (Timely s action)
  | .loop .copy => inferInstanceAs (Decidable (s.conn.dead = true → s.fd ∉ s.poll.aio.wfds))
  | .send _ _ result | .wakeTurn _ result =>
      inferInstanceAs (Decidable ((s.conn.dead = false ∧ s.conn.wpdu.buf = none ∧
        result = .error) → ¬ s.poll.loop.HoldsWrite s.fd))
  | .closeconn _ =>
      inferInstanceAs (Decidable (s.conn.dead = false → ¬ s.poll.loop.HoldsWrite s.fd))
  | .wakeComplete _ | .removed _ | .spuriousTurn _ | .spuriousComplete _ | .blockRemove _
  | .finishRemove _ | .spuriousRemove _ | .loop .announce | .loop (.select ..) | .loop .next
  | .loop (.call _) | .loop .return | .readCb .. | .writeCb .. | .otherAdd .. | .otherDel ..
  | .otherRemove .. | .otherFinish _ => .isTrue nofun

/-- A partial write registers the descriptor 5 for writing, and it becomes writable. -/
def partlyWritten : List (Action Bool Nat) :=
  [.send false [0, 0, 0, 0, 0, 0, 0, 0] (.wrote 3), .loop .announce, .loop .copy,
    .loop (.select ∅ {5})]

theorem writes_alive_partlyWritten :
    ∃ s, (machine Bool 1 3 5).ReachableUnder Timely s ∧ s.poll.loop.AtWrite s.fd ∧
      s.WritesAlive := by
  have run : (((machine Bool 1 3 5).restrict Timely).run (machine Bool 1 3 5).initial
      (partlyWritten ++ [.loop .next, .loop (.call true)])).map
        (fun s => decide (s.poll.loop.AtWrite s.fd)) = some true := by decide +kernel
  rcases Option.map_eq_some_iff.mp run with ⟨s, taken, atWrite⟩
  have reachable := Machine.reachableUnder_of_run taken
  exact ⟨s, reachable, of_decide_eq_true atWrite, writes_alive reachable⟩

/-- The connection is closed before the callback of the writable descriptor is called. -/
theorem closedWritable_not_writesAlive :
    ¬ ∀ s, (machine Bool 1 3 5).Reachable s → s.WritesAlive := by
  intro always
  have run : ((machine Bool 1 3 5).run (machine Bool 1 3 5).initial
      (partlyWritten ++ [.closeconn true, .loop .next, .loop (.call true)])).map
        (fun s => (decide (s.poll.loop.AtWrite s.fd), s.conn.dead)) = some (true, true) := by
    decide +kernel
  rcases Option.map_eq_some_iff.mp run with ⟨s, taken, result⟩
  simp only [Prod.mk.injEq, decide_eq_true_eq] at result
  have alive := always s (Machine.reachable_of_run taken) result.1
  exact absurd (alive.symm.trans result.2) Bool.false_ne_true

end Polled

end YfsRpc.Rpc
