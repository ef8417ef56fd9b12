import YfsRpc.Rpc.ClientBalance

/-! # Retransmission

`call1` sends its request once on each connection: it transmits again when the one it has
is dead. When `get_refconn` cannot connect, the call keeps its dead connection and calls
`send` on it once more, which writes nothing.
-/

namespace YfsRpc.Rpc

structure ClientSends where
  conns : ClientConns
  /-- history: the connections on which a call sent its request while they were not dead -/
  sent : Nat → List Nat := fun _ => []

namespace ClientSends

open ClientConns (Action)

/-- The connection on which `send` does not fail at once. -/
def target (s : ClientConns) (id : Nat) : Option Nat :=
  ((s.calls.held id).bind Call.ch).filter fun c => !s.table.dead c

def observe (s : ClientSends) : Action → Nat → List Nat
  | .call id => Function.update s.sent id []
  | .send id => Function.update s.sent id (s.sent id ++ (target s.conns id).toList)
  | _ => s.sent

def step (s : ClientSends) (action : Action) : Option ClientSends :=
  (s.conns.step action).map fun conns => { conns, sent := s.observe action }

def machine (retrans : Bool) : Machine ClientSends Action where
  initial := { conns := (ClientConns.machine retrans).initial }
  step := step

/-! ## What a step does to the calls -/

/-- A step of a call that runs: another phase of `get_refconn`, `send`, or a timeout. -/
inductive Goes (s : ClientConns) (action : Action) (id : Nat) (call : Call) : Call → Prop
  | stays (quiet : action ≠ .send id) : Goes s action id call call
  | obtains (phase : call.phase = .transmitting) (quiet : action ≠ .send id) (call' : Call)
      (obtained : call'.phase = .transmitting ∨ call'.phase = .sending) :
      Goes s action id call call'
  | sends (phase : call.phase = .sending) (sends : action = .send id) :
      Goes s action id call { call with phase := .waiting }
  | retransmits (retrans : s.retrans = true) (quiet : action ≠ .send id)
      (dead : ∀ c, call.ch = some c → s.table.dead c = true) :
      Goes s action id call { call with phase := .transmitting }
  | leaves (phase : call.phase = .waiting) (quiet : action ≠ .send id) :
      Goes s action id call { call with phase := .leaving }

structure Stepped (s : ClientConns) (action : Action) (next : ClientConns) : Prop where
  retrans : next.retrans = s.retrans
  dead : ∀ c, s.table.dead c = true → next.table.dead c = true
  calls : ∀ id call, next.calls.held id = some call →
    (∃ before, s.calls.held id = some before ∧ Goes s action id before call) ∨
      (action = .call id ∧ call = { phase := .transmitting })

variable {s next : ClientConns} {action : Action} {id : Nat} {call : Call}

/-- One call goes on, or returns. -/
theorem Stepped.of_set {v : Option Call} (retrans : next.retrans = s.retrans)
    (dead : ∀ c, s.table.dead c = true → next.table.dead c = true)
    (calls : next.calls = s.calls.set id v) (held : s.calls.held id = some call)
    (others : ∀ other, other ≠ id → action ≠ .send other)
    (goes : ∀ call', v = some call' → Goes s action id call call') : Stepped s action next where
  retrans := retrans
  dead := dead
  calls other call' held' := by
    rw [calls] at held'
    rcases Holders.held_set held' with ⟨rfl, same⟩ | ⟨differs, before⟩
    · exact Or.inl ⟨call, held, goes call' same⟩
    · exact Or.inl ⟨call', before, .stays (others other differs)⟩

/-- No call goes on. -/
theorem Stepped.of_same (retrans : next.retrans = s.retrans)
    (dead : ∀ c, s.table.dead c = true → next.table.dead c = true)
    (calls : next.calls = s.calls) (quiet : ∀ id, action ≠ .send id) : Stepped s action next where
  retrans := retrans
  dead := dead
  calls id call held := by
    rw [calls] at held
    exact Or.inl ⟨call, held, .stays (quiet id)⟩

theorem dead_kept {table table' : ConnTable} {c : Nat} (released : table.decref c = some table')
    (d : Nat) (dead : table.dead d = true) : table'.dead d = true := by
  rw [ConnTable.dead_decref released]
  exact dead

theorem callStep_stepped (held : s.calls.held id = some call)
    (own : ∀ other, other ≠ id → action ≠ .send other)
    (taken : s.callStep id call action = some next) : Stepped s action next := by
  cases action with
  | getRefconn =>
      simp only [ClientConns.callStep] at taken
      split at taken
      · cases taken
        exact .of_same rfl (fun _ dead => dead) rfl (by simp)
      · contradiction
  | send other =>
      have self : other = id := by
        by_contra differs
        exact own other differs rfl
      subst self
      simp only [ClientConns.callStep] at taken
      split at taken
      · next sending =>
          have goes (call' : Call) (same : some { call with phase := .waiting } = some call') :
              Goes s (.send other) other call call' := by
            cases same
            exact .sends sending rfl
          split at taken <;> cases taken <;>
            exact .of_set rfl (fun _ dead => dead) rfl held own goes
      · contradiction
  | timeout other =>
      simp only [ClientConns.callStep] at taken
      split at taken
      · next waiting =>
          have again (dead : ∀ c, call.ch = some c → s.table.dead c = true) (call' : Call)
              (same : some { call with phase := .transmitting } = some call') :
              Goes s (.timeout other) id call call' := by
            cases same
            exact .retransmits waiting.2 (by simp) dead
          split at taken
          · next none =>
              cases taken
              exact .of_set rfl (fun _ dead => dead) rfl held own (again (by simp [none]))
          · next c ch =>
              split at taken
              · next dead =>
                  cases taken
                  have dead (d : Nat) (ch' : call.ch = some d) : s.table.dead d = true := by
                    rw [ch] at ch'
                    cases ch'
                    exact dead
                  exact .of_set rfl (fun _ dead => dead) rfl held own (again dead)
              · cases taken
                exact .of_same rfl (fun _ dead => dead) rfl (by simp)
      · contradiction
  | leave other =>
      simp only [ClientConns.callStep] at taken
      split at taken
      · next waiting =>
          cases taken
          have goes (call' : Call) (same : some { call with phase := .leaving } = some call') :
              Goes s (.leave other) id call call' := by
            cases same
            exact .leaves waiting (by simp)
          exact .of_set rfl (fun _ dead => dead) rfl held own goes
      · contradiction
  | finish =>
      simp only [ClientConns.callStep] at taken
      split at taken
      · split at taken
        · cases taken
          exact .of_set rfl (fun _ dead => dead) rfl held own (by simp)
        · rcases Option.map_eq_some_iff.mp taken with ⟨table, released, rfl⟩
          exact .of_set rfl (dead_kept released) rfl held own (by simp)
      · contradiction
  | call | check | drop | connect | release | take | die | close | delete => contradiction

/-- The call that has `chan_m_` is transmitting, and does so or is ready to send after. -/
theorem getStep_stepped (held : s.calls.held id = some call)
    (transmitting : call.phase = .transmitting) {phase : GetRefconn}
    (quiet : ∀ other, action ≠ .send other)
    (taken : s.getStep id call phase action = some next) : Stepped s action next := by
  have goes (call' : Call) (obtained : call'.phase = .transmitting ∨ call'.phase = .sending)
      (call'' : Call) (same : some call' = some call'') : Goes s action id call call'' := by
    cases same
    exact .obtains transmitting (quiet id) call' obtained
  unfold ClientConns.getStep at taken
  split at taken
  · split at taken
    · cases taken
      exact .of_same rfl (fun _ dead => dead) rfl quiet
    · dsimp only at taken
      split at taken <;> cases taken <;> exact .of_same rfl (fun _ dead => dead) rfl quiet
  · split at taken
    · contradiction
    · rcases Option.map_eq_some_iff.mp taken with ⟨table, released, rfl⟩
      exact .of_same rfl (dead_kept released) rfl quiet
  · split at taken <;> cases taken <;> exact .of_same rfl (fun _ dead => dead) rfl quiet
  · split at taken
    · cases taken
      exact .of_set rfl (fun _ dead => dead) rfl held (fun other _ => quiet other)
        (goes _ (Or.inr rfl))
    · split at taken
      · cases taken
        exact .of_same rfl (fun _ dead => dead) rfl quiet
      · rcases Option.map_eq_some_iff.mp taken with ⟨table, released, rfl⟩
        exact .of_set rfl (dead_kept released) rfl held (fun other _ => quiet other)
          (goes _ (Or.inl transmitting))
  · split at taken
    · contradiction
    · cases taken
      exact .of_set rfl (fun _ dead => dead) rfl held (fun other _ => quiet other)
        (goes _ (Or.inr rfl))
  · contradiction

theorem step_stepped (inv : s.Inv) (taken : s.step action = some next) :
    Stepped s action next := by
  cases action with
  | call id =>
      simp only [ClientConns.step] at taken
      split at taken
      · cases taken
        constructor
        · rfl
        · exact fun _ dead => dead
        · intro other call held
          rcases Holders.held_set_some held with ⟨rfl, rfl⟩ | ⟨_, before⟩
          · exact Or.inr ⟨rfl, rfl⟩
          · exact Or.inl ⟨call, before, .stays (by simp)⟩
      · contradiction
  | die c =>
      simp only [ClientConns.step] at taken
      split at taken
      · cases taken
        exact .of_same rfl (fun _ => ConnTable.dead_die_of_dead) rfl (by simp)
      · contradiction
  | close =>
      simp only [ClientConns.step] at taken
      split at taken
      · split at taken
        · cases taken
          exact .of_same rfl (fun _ dead => dead) rfl (by simp)
        · cases taken
          exact .of_same rfl (fun _ => ConnTable.dead_die_of_dead) rfl (by simp)
      · contradiction
  | delete =>
      simp only [ClientConns.step] at taken
      split at taken
      · rcases Option.map_eq_some_iff.mp taken with ⟨table, released, rfl⟩
        exact .of_same rfl (dead_kept released) rfl (by simp)
      · contradiction
  | getRefconn id | send id | timeout id | leave id | finish id =>
      rcases Option.bind_eq_some_iff.mp taken with ⟨call, held, stepped⟩
      exact callStep_stepped held (fun other differs => by simp [Ne.symm differs]) stepped
  | check | drop | connect | release | take =>
      simp only [ClientConns.step] at taken
      split at taken
      · contradiction
      · next id phase has =>
          rcases Option.bind_eq_some_iff.mp taken with ⟨call, held, stepped⟩
          rcases inv.inside id phase has with ⟨call', held', transmitting, _⟩
          rw [held] at held'
          cases held'
          exact getStep_stepped held transmitting (by simp) stepped

/-! ## Where a request was sent -/

structure Inv (s : ClientSends) : Prop where
  nodup : ∀ id, (s.sent id).Nodup
  earlier : ∀ id, ∀ c ∈ (s.sent id).dropLast, s.conns.table.dead c = true
  /-- the last one may be the connection on which the call waits for the reply -/
  current : ∀ id call, s.conns.calls.held id = some call → ∀ c ∈ s.sent id,
    s.conns.table.dead c = true ∨
      call.ch = some c ∧ (call.phase = .waiting ∨ call.phase = .leaving)
  single : s.conns.retrans = false → ∀ id, (s.sent id).length ≤ 1
  unsent : s.conns.retrans = false → ∀ id call, s.conns.calls.held id = some call →
    call.phase = .transmitting ∨ call.phase = .sending → s.sent id = []

theorem inv_initial (retrans : Bool) : Inv (machine retrans).initial where
  nodup _ := List.nodup_nil
  earlier _ _ none := absurd none List.not_mem_nil
  current _ _ held := nomatch held
  single _ _ := Nat.zero_le 1
  unsent _ _ _ held := nomatch held

variable {t after : ClientSends}

/-- Where a call has sent its request, it is waiting, or the connection is dead. -/
theorem Inv.dead_of_sent (inv : Inv t) (held : t.conns.calls.held id = some call)
    (elsewhere : call.phase = .transmitting ∨ call.phase = .sending) {c : Nat}
    (sent : c ∈ t.sent id) : t.conns.table.dead c = true := by
  rcases inv.current id call held c sent with dead | ⟨_, waits⟩
  · exact dead
  · rcases elsewhere with phase | phase <;> rw [phase] at waits <;> simp at waits

/-- What `send` adds to the connections of a call. -/
theorem observe_send (held : t.conns.calls.held id = some call) :
    t.observe (.send id) id = t.sent id ∨
      ∃ c, call.ch = some c ∧ t.conns.table.dead c = false ∧
        t.observe (.send id) id = t.sent id ++ [c] := by
  have sent : t.observe (.send id) id = t.sent id ++ (target t.conns id).toList :=
    Function.update_self ..
  rw [sent]
  cases found : target t.conns id with
  | none => exact Or.inl (List.append_nil _)
  | some c =>
      rcases Option.filter_eq_some_iff.mp found with ⟨ch, alive⟩
      rw [held] at ch
      exact Or.inr ⟨c, ch, by simpa using alive, rfl⟩

theorem observe_other (called : action ≠ .call id) (sends : action ≠ .send id) :
    t.observe action id = t.sent id := by
  cases action with
  | call other =>
      have differs : id ≠ other := fun same => called (same ▸ rfl)
      exact Function.update_of_ne differs _ _
  | send other =>
      have differs : id ≠ other := fun same => sends (same ▸ rfl)
      exact Function.update_of_ne differs _ _
  | _ => rfl

theorem sending_of_send {conns : ClientConns} (taken : s.step (.send id) = some conns) :
    ∃ call, s.calls.held id = some call ∧ call.phase = .sending := by
  rcases Option.bind_eq_some_iff.mp taken with ⟨call, held, stepped⟩
  simp only [ClientConns.callStep] at stepped
  split at stepped
  · next sending => exact ⟨call, held, sending⟩
  · contradiction

/-- A connection is added when those before it are dead, and it is not one of them. -/
theorem Inv.sent_step (inv : Inv t) {conns : ClientConns}
    (taken : t.conns.step action = some conns) (id : Nat) :
    (t.observe action id).Nodup ∧ (∀ c ∈ (t.observe action id).dropLast,
      t.conns.table.dead c = true) ∧
      (t.conns.retrans = false → (t.observe action id).length ≤ 1) := by
  by_cases called : action = .call id
  · subst called
    have none : t.observe (.call id) id = [] := Function.update_self ..
    rw [none]
    exact ⟨List.nodup_nil, nofun, fun _ => Nat.zero_le 1⟩
  · by_cases sends : action = .send id
    · subst sends
      rcases sending_of_send taken with ⟨call, held, sending⟩
      rcases observe_send held with same | ⟨c, ch, alive, more⟩
      · rw [same]
        exact ⟨inv.nodup id, inv.earlier id, fun retrans => inv.single retrans id⟩
      · rw [more, List.dropLast_concat]
        refine ⟨?_, ?_, ?_⟩
        · apply List.nodup_append.mpr
          refine ⟨inv.nodup id, List.nodup_singleton c, ?_⟩
          intro d sent e last same
          have dead := inv.dead_of_sent held (Or.inr sending) sent
          rw [same, List.mem_singleton.mp last, alive] at dead
          contradiction
        · exact fun d sent => inv.dead_of_sent held (Or.inr sending) sent
        · intro retrans
          rw [inv.unsent retrans id call held (Or.inr sending)]
          exact Nat.le_refl 1
    · rw [observe_other called sends]
      exact ⟨inv.nodup id, inv.earlier id, fun retrans => inv.single retrans id⟩

theorem Inv.step (inv : Inv t) (conns : t.conns.Inv) (taken : t.step action = some after) :
    Inv after := by
  rcases Option.map_eq_some_iff.mp taken with ⟨next, moved, rfl⟩
  have stepped := step_stepped conns moved
  -- a call that does not begin, and that has sent nothing now
  have old {id : Nat} {call : Call} (held : t.conns.calls.held id = some call)
      (quiet : action ≠ .send id) : t.observe action id = t.sent id := by
    apply observe_other _ quiet
    intro called
    subst called
    simp only [ClientConns.step] at moved
    split at moved
    · next free =>
        have vacant := held.symm.trans free.1
        contradiction
    · contradiction
  constructor
  · exact fun id => (inv.sent_step moved id).1
  · exact fun id c sent => stepped.dead c ((inv.sent_step moved id).2.1 c sent)
  · intro id call held c sent
    rcases stepped.calls id call held with ⟨before, was, goes⟩ | ⟨called, rfl⟩
    · cases goes with
      | stays quiet =>
          have sent' : c ∈ t.sent id := (old was quiet) ▸ sent
          exact (inv.current id _ was c sent').imp_left (stepped.dead c)
      | obtains phase quiet =>
          have sent' : c ∈ t.sent id := (old was quiet) ▸ sent
          exact Or.inl (stepped.dead c (inv.dead_of_sent was (Or.inl phase) sent'))
      | sends phase sends =>
          subst sends
          rcases observe_send was with same | ⟨d, ch, alive, more⟩
          · have sent' : c ∈ t.sent id := same ▸ sent
            exact Or.inl (stepped.dead c (inv.dead_of_sent was (Or.inr phase) sent'))
          · have sent' : c ∈ t.sent id ++ [d] := more ▸ sent
            rcases List.mem_append.mp sent' with before' | last
            · exact Or.inl (stepped.dead c (inv.dead_of_sent was (Or.inr phase) before'))
            · rw [List.mem_singleton.mp last]
              exact Or.inr ⟨ch, Or.inl rfl⟩
      | retransmits retrans quiet dead =>
          have sent' : c ∈ t.sent id := (old was quiet) ▸ sent
          rcases inv.current id before was c sent' with died | ⟨ch, _⟩
          · exact Or.inl (stepped.dead c died)
          · exact Or.inl (stepped.dead c (dead c ch))
      | leaves phase quiet =>
          have sent' : c ∈ t.sent id := (old was quiet) ▸ sent
          rcases inv.current id before was c sent' with died | ⟨ch, _⟩
          · exact Or.inl (stepped.dead c died)
          · exact Or.inr ⟨ch, Or.inr rfl⟩
    · subst called
      have none : t.observe (.call id) id = [] := Function.update_self ..
      have sent' : c ∈ t.observe (.call id) id := sent
      rw [none] at sent'
      contradiction
  · intro retrans id
    exact (inv.sent_step moved id).2.2 (stepped.retrans.symm.trans retrans)
  · intro retrans id call held phase'
    have never : t.conns.retrans = false := stepped.retrans.symm.trans retrans
    rcases stepped.calls id call held with ⟨before, was, goes⟩ | ⟨called, rfl⟩
    · cases goes with
      | stays quiet => exact (old was quiet).trans (inv.unsent never id _ was phase')
      | obtains phase quiet =>
          exact (old was quiet).trans (inv.unsent never id _ was (Or.inl phase))
      | sends => simp at phase'
      | retransmits retrans' =>
          rw [never] at retrans'
          contradiction
      | leaves => simp at phase'
    · subst called
      exact Function.update_self ..

/-- A call sends its request at most once on each connection, and on another one only when
those before are dead. Without retransmission it sends it once. -/
theorem sent_once {retrans : Bool} (reachable : (machine retrans).Reachable t) (id : Nat) :
    (t.sent id).Nodup ∧ (∀ c ∈ (t.sent id).dropLast, t.conns.table.dead c = true) ∧
      (t.conns.retrans = false → (t.sent id).length ≤ 1) := by
  have both : t.conns.Inv ∧ Inv t := by
    apply reachable.invariant fun t => t.conns.Inv ∧ Inv t
    · exact ⟨ClientConns.inv_initial retrans, inv_initial retrans⟩
    · intro t action after _ before taken
      rcases Option.map_eq_some_iff.mp taken with ⟨next, moved, rfl⟩
      exact ⟨before.1.step moved, before.2.step before.1 taken⟩
  exact ⟨both.2.nodup id, both.2.earlier id, fun retrans => both.2.single retrans id⟩

/-- The connection dies after the request was sent, connecting fails once, and then the
request is sent on a new connection. -/
def sentAgain : List Action :=
  [.call 0, .getRefconn 0, .check, .connect true, .release, .take, .send 0, .die 0, .timeout 0,
    .getRefconn 0, .check, .drop, .connect false, .release, .send 0, .timeout 0,
    .getRefconn 0, .check, .connect true, .release, .take, .send 0]

theorem sent_once_sentAgain :
    ∃ t : ClientSends, t.sent 0 = [0, 1] ∧ (t.sent 0).Nodup ∧
      (∀ c ∈ (t.sent 0).dropLast, t.conns.table.dead c = true) ∧
      (t.conns.retrans = false → (t.sent 0).length ≤ 1) := by
  have run : ((machine true).run (machine true).initial sentAgain).map (fun t => t.sent 0) =
      some [0, 1] := by decide +kernel
  rcases Option.map_eq_some_iff.mp run with ⟨t, taken, sent⟩
  exact ⟨t, sent, sent_once (Machine.reachable_of_run taken) 0⟩

end ClientSends

end YfsRpc.Rpc
