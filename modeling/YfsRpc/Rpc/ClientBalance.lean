import YfsRpc.Rpc.ClientConns

/-! # The references of a client

The references to a connection are `chan_` and the `ch` of the running calls. A call
whose `ch` is not `chan_` any more keeps a connection that was found dead, so whoever
gives up the last reference deletes the connection.
-/

namespace YfsRpc.Rpc

namespace ClientConns

/-! ## The invariant -/

/-- The references to a connection: `chan_`, and the `ch` of every call. -/
def refs (s : ClientConns) (c : Nat) : Nat :=
  (if s.chan = some c then 1 else 0) + s.calls.tally fun call => call.ch == some c

/-- What holds where the call is that has `chan_m_`. -/
def Position (s : ClientConns) (call : Call) : GetRefconn → Prop
  | .dropping => ∃ c, s.chan = some c ∧ s.table.dead c = true
  | .connecting => s.chan = none
  | .taking => s.chan ≠ none ∧ call.ch = none
  | .checking | .releasing => True

structure Inv (s : ClientConns) : Prop where
  counted : s.table.Counted s.refs
  /-- a connection that calls keep although it was replaced -/
  stale : ∀ id call c, s.calls.held id = some call → call.ch = some c → s.chan ≠ some c →
    s.table.dead c = true
  inside : ∀ id phase, s.chanM = some (id, phase) → ∃ call, s.calls.held id = some call ∧
    call.phase = .transmitting ∧ s.Position call phase
  closed : s.destroy = .closed → ∃ c, s.chan = some c ∧ s.table.dead c = true
  returned : s.destroy = .returned → s.chan = none
  ended : s.destroy ≠ .notBegun → s.calls.keys = ∅

variable {s next : ClientConns} {id : Nat} {call : Call} {c : Nat}

theorem Position.mono {phase : GetRefconn} (position : s.Position call phase)
    (chan : next.chan = s.chan) (dead : ∀ c, s.table.dead c = true → next.table.dead c = true) :
    next.Position call phase := by
  cases phase with
  | dropping =>
      rcases position with ⟨c, same, died⟩
      exact ⟨c, chan.trans same, dead c died⟩
  | connecting => exact chan.trans position
  | taking => exact ⟨chan ▸ position.1, position.2⟩
  | checking | releasing => trivial

theorem inv_initial (retrans : Bool) : Inv (machine retrans).initial where
  counted := ConnTable.Counted.initial
  stale _ _ _ held := nomatch held
  inside _ _ has := nomatch has
  closed closed := nomatch closed
  returned _ := rfl
  ended _ := rfl

theorem refs_chan (chan : s.chan = some c) : s.refs c ≠ 0 := by
  simp [refs, chan]

theorem refs_ch (held : s.calls.held id = some call) (ch : call.ch = some c) :
    s.refs c ≠ 0 := by
  have positive := Holders.tally_pos (p := fun call : Call => call.ch == some c) held (by simp [ch])
  unfold refs
  omega

/-- A call that keeps its `ch` keeps all references. -/
theorem refs_goto (held : s.calls.held id = some call) {call' : Call} (same : call'.ch = call.ch)
    (d : Nat) : (s.goto id call').refs d = s.refs d := by
  have exchanged := s.calls.tally_set id (some call') fun call => call.ch == some d
  simp only [held, Option.any_some, same] at exchanged
  dsimp only [refs, goto]
  omega

theorem toNat_beq (c d : Nat) : (some c == some d).toNat = if d = c then 1 else 0 := by
  by_cases here : d = c
  · simp [here]
  · simp [here, Ne.symm here]

/-- Give up `ch`. -/
theorem gains_goto (held : s.calls.held id = some call) (ch : call.ch = some c)
    {v : Option Call} (none : ∀ call' ∈ v, call'.ch = none) :
    ConnTable.Gains ({ s with calls := s.calls.set id v }.refs) s.refs c := by
  intro d
  have exchanged := s.calls.tally_set id v fun call => call.ch == some d
  have without : (v.any fun call => call.ch == some d) = false := by
    cases v with
    | none => rfl
    | some call' => simp [none call' rfl]
  simp only [held, Option.any_some, ch, without, toNat_beq, Bool.toNat_false] at exchanged
  simp only [refs]
  omega

/-- Give up `chan_`. -/
theorem gains_chan (chan : s.chan = some c) (table : ConnTable)
    (chanM : Option (Nat × GetRefconn)) (destroy : Destroy) :
    ConnTable.Gains ({ s with table, chan := none, chanM, destroy }.refs) s.refs c := by
  intro d
  by_cases here : d = c
  · subst here
    simp [refs, chan, Nat.add_comm]
  · simp [refs, chan, here, Ne.symm here]

/-- Nothing is asked of the call that has `chan_m_` but to stay where it is. -/
theorem Inv.outside (inv : Inv s) (held : s.calls.held id = some call)
    (elsewhere : call.phase ≠ .transmitting) {v : Option Call} :
    ∀ other phase, s.chanM = some (other, phase) → ∃ call,
      (s.calls.set id v).held other = some call ∧ call.phase = .transmitting ∧
        s.Position call phase := by
  intro other phase has
  rcases inv.inside other phase has with ⟨call', held', transmitting, position⟩
  have differs : other ≠ id := by
    rintro rfl
    rw [held] at held'
    cases held'
    exact elsewhere transmitting
  exact ⟨call', by rw [Holders.held_set_of_ne differs, held'], transmitting, position⟩

/-- A call that runs keeps the destructor from beginning. -/
theorem Inv.notBegun (inv : Inv s) (held : s.calls.held id = some call) :
    s.destroy = .notBegun := by
  by_contra begun
  have idle := Holders.keys_eq_empty.mp (inv.ended begun) id
  rw [held] at idle
  contradiction

/-! ## Steps of a call -/

/-- A call goes on outside `get_refconn`. -/
theorem Inv.goto (inv : Inv s) (held : s.calls.held id = some call)
    (elsewhere : call.phase ≠ .transmitting) (phase : CallPhase) :
    Inv (s.goto id { call with phase }) where
  counted := inv.counted.congr (refs_goto held rfl)
  stale other call' c held' ch stale := by
    rcases Holders.held_set_some held' with ⟨rfl, rfl⟩ | ⟨_, before⟩
    · exact inv.stale other call c held ch stale
    · exact inv.stale other call' c before ch stale
  inside := inv.outside held elsewhere
  closed := inv.closed
  returned := inv.returned
  ended begun := absurd (inv.notBegun held) begun

theorem Inv.use_eq (inv : Inv s) (referenced : s.refs c ≠ 0) : s.table.use c = s.table :=
  inv.counted.use_eq referenced

/-- `call1` returns, and its `ch` is given up. -/
theorem Inv.finish (inv : Inv s) (held : s.calls.held id = some call)
    (taken : s.callStep id call (.finish id) = some next) : Inv next := by
  simp only [ClientConns.callStep] at taken
  split at taken
  · next phase =>
      have elsewhere : call.phase ≠ .transmitting := by simp [phase]
      have stale : ∀ other call' c, (s.calls.set id none).held other = some call' →
          call'.ch = some c → s.chan ≠ some c → s.table.dead c = true := by
        intro other call' c held' ch
        exact inv.stale other call' c (Holders.held_set_none held').2 ch
      split at taken
      · next ch =>
          cases taken
          refine { inv with
            counted := inv.counted.congr fun d => ?_
            stale := stale
            inside := inv.outside held elsewhere
            ended := fun begun => absurd (inv.notBegun held) begun }
          have exchanged := s.calls.tally_set id none fun call => call.ch == some d
          simp only [held, Option.any_some, ch, Option.any_none] at exchanged
          simp only [refs]
          simpa using exchanged
      · next c ch =>
          rcases Option.map_eq_some_iff.mp taken with ⟨table, released, rfl⟩
          have gains := gains_goto (v := none) held ch (by simp)
          have last : ({ s with calls := s.calls.set id none } : ClientConns).refs c = 0 →
              s.table.dead c = true := fun last =>
            inv.stale id call c held ch fun chan => refs_chan (by exact chan) last
          rcases inv.counted.decref gains last released with ⟨counted, _, dead⟩
          refine ⟨counted, ?_, ?_, ?_, inv.returned, ?_⟩
          · intro other call' c held' ch stale'
            exact (congrFun dead c).trans (stale other call' c held' ch stale')
          · intro other phase has
            rcases inv.outside held elsewhere other phase has with
              ⟨call', held', transmitting, position⟩
            refine ⟨call', held', transmitting, position.mono rfl ?_⟩
            exact fun c died => (congrFun dead c).trans died
          · exact fun closed => absurd closed (by simp [inv.notBegun held])
          · exact fun begun => absurd (inv.notBegun held) begun
  · contradiction

theorem Inv.callStep (inv : Inv s) (held : s.calls.held id = some call) {action : Action}
    (taken : s.callStep id call action = some next) : Inv next := by
  cases action with
  | getRefconn _ =>
      simp only [ClientConns.callStep] at taken
      split at taken
      · next free =>
          cases taken
          refine { inv with inside := ?_ }
          intro other phase has
          cases has
          exact ⟨call, held, free.1, trivial⟩
      · contradiction
  | send _ =>
      simp only [ClientConns.callStep] at taken
      split at taken
      · next phase =>
          have elsewhere : call.phase ≠ .transmitting := by simp [phase]
          split at taken
          · cases taken
            exact inv.goto held elsewhere .waiting
          · next c ch =>
              rw [inv.use_eq (refs_ch held ch)] at taken
              cases taken
              exact inv.goto held elsewhere .waiting
      · contradiction
  | timeout _ =>
      simp only [ClientConns.callStep] at taken
      split at taken
      · next phase =>
          have elsewhere : call.phase ≠ .transmitting := by simp [phase.1]
          split at taken
          · cases taken
            exact inv.goto held elsewhere .transmitting
          · next c ch =>
              rw [inv.use_eq (refs_ch held ch)] at taken
              split at taken
              · cases taken
                exact inv.goto held elsewhere .transmitting
              · cases taken
                exact inv
      · contradiction
  | leave _ =>
      simp only [ClientConns.callStep] at taken
      split at taken
      · next phase =>
          cases taken
          exact inv.goto held (by simp [phase]) .leaving
      · contradiction
  | finish _ => exact inv.finish held taken
  | call | check | drop | connect | release | take | die | close | delete => contradiction

/-! ## Steps of `get_refconn` -/

/-- The call that has `chan_m_` goes on there. -/
theorem Inv.position (inv : Inv s) (held : s.calls.held id = some call)
    (transmitting : call.phase = .transmitting) {phase : GetRefconn}
    (position : s.Position call phase) : Inv { s with chanM := some (id, phase) } := by
  refine { inv with inside := ?_ }
  intro other phase' has
  cases has
  exact ⟨call, held, transmitting, position.mono rfl fun _ died => died⟩

theorem Inv.check (inv : Inv s) (held : s.calls.held id = some call)
    (transmitting : call.phase = .transmitting)
    (taken : s.getStep id call .checking .check = some next) : Inv next := by
  simp only [ClientConns.getStep] at taken
  split at taken
  · next chan =>
      cases taken
      exact inv.position held transmitting chan
  · next c chan =>
      rw [inv.use_eq (refs_chan chan)] at taken
      split at taken
      · next dead =>
          cases taken
          exact inv.position held transmitting ⟨c, chan, dead⟩
      · cases taken
        exact inv.position held transmitting trivial

theorem Inv.drop (inv : Inv s) (held : s.calls.held id = some call)
    (transmitting : call.phase = .transmitting) (position : s.Position call .dropping)
    (taken : s.getStep id call .dropping .drop = some next) : Inv next := by
  rcases position with ⟨c, chan, died⟩
  simp only [ClientConns.getStep, chan] at taken
  rcases Option.map_eq_some_iff.mp taken with ⟨table, released, rfl⟩
  have gains := gains_chan chan table (some (id, .connecting)) s.destroy
  rcases inv.counted.decref gains (fun _ => died) released with ⟨counted, _, dead⟩
  refine ⟨counted, ?_, ?_, ?_, fun _ => rfl, inv.ended⟩
  · intro other call' c' held' ch _
    simp only [dead]
    by_cases same : c' = c
    · rw [same]
      exact died
    · exact inv.stale other call' c' held' ch (by simp [chan, Ne.symm same])
  · intro other phase' has'
    cases has'
    exact ⟨call, held, transmitting, rfl⟩
  · exact fun closed => absurd closed (by simp [inv.notBegun held])

theorem Inv.connect (inv : Inv s) (held : s.calls.held id = some call)
    (transmitting : call.phase = .transmitting) (chan : s.chan = none) {succ : Bool}
    (taken : s.getStep id call .connecting (.connect succ) = some next) : Inv next := by
  have notBegun := inv.notBegun held
  simp only [ClientConns.getStep] at taken
  split at taken
  · cases taken
    have gains : ConnTable.Gains s.refs ({ s with
        table := s.table.create
        chan := some s.table.created
        chanM := some (id, .releasing) } : ClientConns).refs s.table.created := by
      intro d
      simp only [refs, chan, Option.some.injEq, reduceCtorEq, if_false, eq_comm]
      omega
    refine ⟨inv.counted.create gains, ?_, ?_, ?_, ?_, inv.ended⟩
    · intro other call' c' held' ch _
      exact inv.stale other call' c' held' ch (by simp [chan])
    · intro other phase' has'
      cases has'
      exact ⟨call, held, transmitting, trivial⟩
    · exact fun closed => absurd closed (by simp [notBegun])
    · exact fun returned => absurd returned (by simp [notBegun])
  · cases taken
    have same : s = { s with chan := none } := by rw [← chan]
    rw [same] at inv held
    exact inv.position held transmitting trivial

theorem Inv.release (inv : Inv s) (held : s.calls.held id = some call)
    (transmitting : call.phase = .transmitting)
    (taken : s.getStep id call .releasing .release = some next) : Inv next := by
  have notBegun := inv.notBegun held
  simp only [ClientConns.getStep] at taken
  split at taken
  · next chan =>
      cases taken
      refine ⟨inv.counted.congr (refs_goto (s := { s with chanM := none }) held rfl), ?_, ?_,
        inv.closed, inv.returned, fun begun => absurd notBegun begun⟩
      · intro other call' c held' ch stale
        rcases Holders.held_set_some held' with ⟨rfl, rfl⟩ | ⟨_, before⟩
        · exact inv.stale other call c held ch stale
        · exact inv.stale other call' c before ch stale
      · exact fun other phase' has' => nomatch has'
  · next c chan =>
      split at taken
      · next ch =>
          cases taken
          exact inv.position held transmitting ⟨by simp [chan], ch⟩
      · next d ch =>
          rcases Option.map_eq_some_iff.mp taken with ⟨table, released, rfl⟩
          have gains := gains_goto (v := some { call with ch := none }) held ch (by simp)
          have last : ({ s with calls := s.calls.set id (some { call with ch := none }) } :
              ClientConns).refs d = 0 → s.table.dead d = true := fun last =>
            inv.stale id call d held ch fun chan => refs_chan (by exact chan) last
          rcases inv.counted.decref gains last released with ⟨counted, _, dead⟩
          refine ⟨counted, ?_, ?_, ?_, inv.returned, ?_⟩
          · intro other call' c held' ch stale
            refine (congrFun dead c).trans ?_
            rcases Holders.held_set_some held' with ⟨rfl, rfl⟩ | ⟨_, before⟩
            · contradiction
            · exact inv.stale other call' c before ch stale
          · intro other phase' has'
            cases has'
            exact ⟨{ call with ch := none }, by simp [ClientConns.goto], transmitting,
              by simp [ClientConns.goto, chan], rfl⟩
          · exact fun closed => absurd closed (by simp [ClientConns.goto, notBegun])
          · exact fun begun => absurd notBegun begun

/-- The call takes a reference to `chan_`. -/
theorem gains_take (held : s.calls.held id = some call) (ch : call.ch = none) (c : Nat) :
    ConnTable.Gains s.refs ({ s with
      table := s.table.incref c
      chanM := none }.goto id { phase := .sending, ch := some c }).refs c := by
  intro d
  have exchanged := s.calls.tally_set id (some { phase := .sending, ch := some c })
    fun call => call.ch == some d
  have before : (none == some d).toNat = 0 := rfl
  simp only [held, Option.any_some, ch, toNat_beq, before] at exchanged
  dsimp only [refs, ClientConns.goto]
  omega

theorem Inv.take (inv : Inv s) (held : s.calls.held id = some call)
    (position : s.Position call .taking)
    (taken : s.getStep id call .taking .take = some next) : Inv next := by
  simp only [ClientConns.getStep] at taken
  split at taken
  · contradiction
  · next c chan =>
      cases taken
      have counted := inv.counted.incref (refs_chan chan) (gains_take held position.2 c)
      refine ⟨counted, ?_, ?_, inv.closed, inv.returned,
        fun begun => absurd (inv.notBegun held) begun⟩
      · intro other call' c' held' ch' stale
        rcases Holders.held_set_some held' with ⟨rfl, rfl⟩ | ⟨_, before⟩
        · cases ch'
          exact absurd chan stale
        · exact inv.stale other call' c' before ch' stale
      · exact fun other phase' has' => nomatch has'

theorem Inv.getStep (inv : Inv s) {phase : GetRefconn} (has : s.chanM = some (id, phase))
    (held : s.calls.held id = some call) {action : Action}
    (taken : s.getStep id call phase action = some next) : Inv next := by
  rcases inv.inside id phase has with ⟨call', held', transmitting, position⟩
  rw [held] at held'
  cases held'
  have which := taken
  unfold ClientConns.getStep at which
  split at which
  · exact inv.check held transmitting taken
  · exact inv.drop held transmitting position taken
  · exact inv.connect held transmitting position taken
  · exact inv.release held transmitting taken
  · exact inv.take held position taken
  · contradiction

/-! ## Steps -/

theorem Inv.enter (inv : Inv s) (taken : s.step (.call id) = some next) : Inv next := by
  simp only [ClientConns.step] at taken
  split at taken
  · next free =>
      cases taken
      have counted : ∀ d, (s.goto id { phase := .transmitting }).refs d = s.refs d := by
        intro d
        have exchanged := s.calls.tally_set id (some { phase := .transmitting })
          fun call => call.ch == some d
        simp only [free.1, Option.any_none] at exchanged
        dsimp only [refs, ClientConns.goto]
        simpa using exchanged
      refine ⟨inv.counted.congr counted, ?_, ?_, inv.closed, inv.returned,
        fun begun => absurd free.2 begun⟩
      · intro other call' c' held' ch stale
        rcases Holders.held_set_some held' with ⟨rfl, rfl⟩ | ⟨_, before⟩
        · contradiction
        · exact inv.stale other call' c' before ch stale
      · intro other phase has
        rcases inv.inside other phase has with ⟨call', held', transmitting, position⟩
        have differs : other ≠ id := by
          rintro rfl
          rw [free.1] at held'
          contradiction
        refine ⟨call', ?_, transmitting, position.mono rfl fun _ died => died⟩
        simp only [ClientConns.goto, Holders.held_set_of_ne differs, held']
  · contradiction

theorem Inv.die (inv : Inv s) (bound : c < s.table.created) :
    Inv { s with table := s.table.die c } where
  counted := inv.counted.die bound
  stale id call d held ch stale := ConnTable.dead_die_of_dead (inv.stale id call d held ch stale)
  inside id phase has := by
    rcases inv.inside id phase has with ⟨call, held, transmitting, position⟩
    exact ⟨call, held, transmitting, position.mono rfl fun _ => ConnTable.dead_die_of_dead⟩
  closed closed := by
    rcases inv.closed closed with ⟨d, chan, dead⟩
    exact ⟨d, chan, ConnTable.dead_die_of_dead dead⟩
  returned := inv.returned
  ended := inv.ended

theorem Inv.close (inv : Inv s) (taken : s.step .close = some next) : Inv next := by
  simp only [ClientConns.step] at taken
  split at taken
  · next unused =>
      split at taken
      · next chan =>
          cases taken
          exact { inv with
            closed := fun closed => nomatch closed
            returned := fun _ => chan
            ended := fun _ => unused.1 }
      · next c chan =>
          have referenced := refs_chan chan
          rw [inv.use_eq referenced] at taken
          cases taken
          have died := inv.die (inv.counted.lt_created referenced)
          exact { died with
            closed := fun _ => ⟨c, chan, by simp [ConnTable.die]⟩
            returned := fun returned => nomatch returned
            ended := fun _ => unused.1 }
  · contradiction

theorem Inv.delete (inv : Inv s) (taken : s.step .delete = some next) : Inv next := by
  simp only [ClientConns.step] at taken
  split at taken
  · next c closed chan =>
      rcases Option.map_eq_some_iff.mp taken with ⟨table, released, rfl⟩
      rcases inv.closed closed with ⟨d, same, died⟩
      rw [chan] at same
      cases same
      have gains := gains_chan chan table s.chanM .returned
      rcases inv.counted.decref gains (fun _ => died) released with ⟨counted, _, dead⟩
      have idle := Holders.keys_eq_empty.mp (inv.ended (by simp [closed]))
      refine ⟨counted, ?_, ?_, nofun, fun _ => rfl, fun _ => inv.ended (by simp [closed])⟩
      · intro id call c' held
        rw [idle id] at held
        contradiction
      · intro id phase has
        rcases inv.inside id phase has with ⟨call, held, _, _⟩
        rw [idle id] at held
        contradiction
  · contradiction

theorem Inv.step (inv : Inv s) {action : Action} (taken : s.step action = some next) :
    Inv next := by
  cases action with
  | call id => exact inv.enter taken
  | die c =>
      simp only [ClientConns.step] at taken
      split at taken
      · next alive =>
          cases taken
          exact inv.die alive.1
      · contradiction
  | close => exact inv.close taken
  | delete => exact inv.delete taken
  | getRefconn id | send id | timeout id | leave id | finish id =>
      rcases Option.bind_eq_some_iff.mp taken with ⟨call, held, stepped⟩
      exact inv.callStep held stepped
  | check | drop | connect | release | take =>
      simp only [ClientConns.step] at taken
      split at taken
      · contradiction
      · next id phase has =>
          rcases Option.bind_eq_some_iff.mp taken with ⟨call, held, stepped⟩
          exact inv.getStep has held stepped

theorem reachable_inv {retrans : Bool} (reachable : (machine retrans).Reachable s) : Inv s :=
  reachable.invariant Inv (inv_initial retrans) fun _ _ _ _ inv taken => inv.step taken

/-! ## References balance -/

/-- Every reference is accounted for, and every connection is deleted when, and only when,
it has none. -/
structure Balanced (s : ClientConns) : Prop where
  refno : ∀ c, s.table.refno c =
    (if s.chan = some c then 1 else 0) + s.calls.tally fun call => call.ch == some c
  unmarked : s.table.misused = false
  deleted : ∀ c, c < s.table.created → s.table.deleted c = if s.table.refno c = 0 then 1 else 0
  dead : ∀ c, c < s.table.created → s.table.deleted c ≠ 0 → s.table.dead c = true
  destroyed : s.destroy = .returned → ∀ c, c < s.table.created → s.table.deleted c = 1

theorem balanced {retrans : Bool} (reachable : (machine retrans).Reachable s) : s.Balanced := by
  have inv := reachable_inv reachable
  have counted := inv.counted
  refine ⟨counted.refno, counted.unmarked, ?_, ?_, ?_⟩
  · intro c bound
    rw [counted.refno]
    exact counted.deleted c bound
  · intro c bound deleted
    apply counted.dead c bound
    by_contra held
    exact deleted (counted.deleted_held held)
  · intro returned c bound
    have idle := Holders.keys_eq_empty.mp (inv.ended (by simp [returned]))
    have empty : s.refs c = 0 := by
      have unheld : ¬ (s.calls.tally fun call => call.ch == some c) ≠ 0 := by
        rw [Holders.tally_ne_zero]
        rintro ⟨id, call, held, _⟩
        rw [idle id] at held
        contradiction
      simp only [refs, inv.returned returned]
      simpa using unheld
    rw [counted.deleted c bound, if_pos empty]

/-! ## A run -/

/-- The first call connects, the connection dies, a second call finds no new one, the
first one retransmits on a new one, and both return; then the client is destroyed. -/
def reconnect : List Action :=
  [.call 1, .getRefconn 1, .check, .connect true, .release, .take, .send 1, .die 0,
    .call 2, .getRefconn 2, .check, .drop, .connect false, .release, .send 2,
    .timeout 1, .getRefconn 1, .check, .connect true, .release, .take, .send 1,
    .leave 1, .leave 2, .finish 1, .finish 2, .close, .delete]

theorem balanced_reconnect :
    ∃ s, (machine true).Reachable s ∧ s.destroy = .returned ∧ s.table.created = 2 ∧
      s.Balanced := by
  have run : ((machine true).run (machine true).initial reconnect).map
      (fun s => (s.destroy, s.table.created)) = some (.returned, 2) := by decide +kernel
  rcases Option.map_eq_some_iff.mp run with ⟨s, taken, result⟩
  simp only [Prod.mk.injEq] at result
  have reachable := Machine.reachable_of_run taken
  exact ⟨s, reachable, result.1, result.2, balanced reachable⟩

end ClientConns

end YfsRpc.Rpc
