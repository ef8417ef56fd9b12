import YfsRpc.Foundation.Machine
import YfsRpc.Rpc.ClientInvariant

/-! # Cancellation of the calls of a client

The threads in `call1` and the thread in `cancel`, with their sections under `m_` and under
the mutex of a caller object. A step is one section, apart from that of `cancel`: it holds
`m_` while it takes the mutexes of the caller objects one after the other.
-/

namespace YfsRpc.Rpc

namespace Client

/-- `calls_` in the order of its keys, which are signed. -/
def entries (cl : Client) : List (Nat × Nat) :=
  cl.calls.toList.filter (2 ^ 31 ≤ ·.1) ++ cl.calls.toList.filter (·.1 < 2 ^ 31)

/-- `cancel` forces a caller to fail. -/
def force (number : Nat) (cl : Client) : Client :=
  { cl with
    callers := Function.update cl.callers number ((cl.callers number).map fun ca =>
      { ca with done := true, intret := RpcConst.cancelFailure }) }

/-- `call1` erases its call. -/
def erase (number : Nat) (cl : Client) : Option Client :=
  (cl.callers number).map fun ca =>
    { cl with
      calls := cl.calls.erase ca.xid
      xidRepWindow := updateXidRep cl.xidRepWindow ca.xid }

/-- `call1` returns, and its caller object is gone. -/
def leave (number : Nat) (cl : Client) : Option (Client × Int) :=
  (cl.callers number).map fun ca =>
    let ret := if ca.done then ca.intret else RpcConst.timeoutFailure
    ({ cl with
      callers := Function.update cl.callers number none
      returned := cl.returned ++ [{ req := ca.req, ret, payload := ca.un }] }, ret)

end Client

/-- Where a thread in `call1` is. -/
inductive CallerPhase
  /-- in the loop, where `last` says that `finaldeadline.tv_sec` is 0 -/
  | sending (last : Bool)
  /-- before it looks at `ca.done` -/
  | checking (last : Bool)
  /-- in `pthread_cond_timedwait` -/
  | waiting (last signalled : Bool)
  /-- behind the loop -/
  | left
  /-- the call is not in `calls_` any more -/
  | erased
  | returned (ret : Int)
  deriving DecidableEq

namespace CallerPhase

/-- A signal or a broadcast of `ca.c`. -/
def signal : CallerPhase → CallerPhase
  | waiting last _ => waiting last true
  | phase => phase

/-- The call was not erased. -/
def Registered : CallerPhase → Prop
  | sending _ | checking _ | waiting .. | left => True
  | erased | returned _ => False

/-- The caller object exists. -/
def Inside : CallerPhase → Prop
  | sending _ | checking _ | waiting .. | left | erased => True
  | returned _ => False

theorem signal_kept (phase : CallerPhase) :
    (phase.Registered → phase.signal.Registered) ∧ (phase.Inside → phase.signal.Inside) ∧
      ∀ ret, phase = .returned ret → phase.signal = .returned ret := by
  cases phase <;> exact ⟨id, id, fun _ same => by cases same <;> rfl⟩

end CallerPhase

/-- Where the thread in `cancel` is. -/
inductive Canceller
  | outside
  /-- in its loop over `calls_`, with `m_` -/
  | forcing (rest : List (Nat × Nat))
  /-- in `pthread_cond_wait` -/
  | waiting (signalled : Bool)
  | returned
  deriving DecidableEq

namespace Canceller

/-- A signal of `destroy_wait_c_`. -/
def signal : Canceller → Canceller
  | waiting _ => waiting true
  | canceller => canceller

/-- A signal does not move the thread. -/
theorem signal_kept (canceller : Canceller) (sent : Bool) :
    (∀ rest, (if sent then canceller.signal else canceller) = .forcing rest →
      canceller = .forcing rest) ∧
      (∀ signalled, (if sent then canceller.signal else canceller) = .waiting signalled →
        ∃ before, canceller = .waiting before ∧ (sent = true → signalled = true)) ∧
      ((if sent then canceller.signal else canceller) = .returned → canceller = .returned) := by
  cases sent with
  | false => exact ⟨fun _ => id, fun signalled same => ⟨signalled, same, nofun⟩, id⟩
  | true =>
      cases canceller with
      | outside => exact ⟨nofun, nofun, nofun⟩
      | forcing rest => exact ⟨fun _ => id, nofun, nofun⟩
      | waiting before =>
          refine ⟨nofun, fun signalled same => ⟨before, rfl, fun _ => ?_⟩, nofun⟩
          cases same
          rfl
      | returned => exact ⟨nofun, nofun, fun _ => rfl⟩

end Canceller

structure Cancellation where
  client : Client := {}
  /-- the calls that were registered, by their number -/
  phases : Nat → Option CallerPhase := fun _ => none
  cancel : Canceller := .outside

namespace Cancellation

/-- `cancel` holds `m_` between its sections. -/
def locked (s : Cancellation) : Bool :=
  match s.cancel with
  | .forcing _ => true
  | .outside | .waiting _ | .returned => false

def setPhase (s : Cancellation) (number : Nat) (phase : CallerPhase) : Cancellation :=
  { s with phases := Function.update s.phases number (some phase) }

def signalCall (s : Cancellation) (number : Nat) : Cancellation :=
  { s with phases := Function.update s.phases number ((s.phases number).map .signal) }

/-- The condition of the loop at the end of `cancel`, under `m_`. -/
def test (s : Cancellation) : Cancellation :=
  if s.client.calls.isEmpty then
    { s with cancel := .returned }
  else
    { s with client := { s.client with destroyWait := true }, cancel := .waiting false }

inductive Action
  /-- a call of `call1`; `last` as in `CallerPhase` -/
  | call (proc : Nat) (payload : List UInt8) (last : Bool)
  /-- a turn of the loop sends or not; its wait is the last one if `last` -/
  | turn (number : Nat) (last : Bool)
  | check (number : Nat)
  /-- a wait ends with a signal, with `ETIMEDOUT` or for no reason -/
  | wake (number : Nat) (timedOut : Bool)
  | erase (number : Nat)
  | leave (number : Nat)
  | bind (ret : Return)
  | gotPdu (reply : Reply)
  | cancel
  /-- `cancel` forces the next caller to fail, or begins to wait for the callers -/
  | force
  /-- `cancel` wakes up -/
  | wakeCancel

/-- A thread that needs `m_` has no step while `cancel` holds it. -/
def step (nonce : Nat) (s : Cancellation) : Action → Option Cancellation
  | .call proc payload last =>
      if s.locked then
        none
      else
        (s.client.call1 nonce proc payload).map fun client =>
          { s with client }.setPhase (s.client.issued.length + 1) (.sending last)
  | .turn number last =>
      match s.phases number with
      | some (.sending true) => some (s.setPhase number .left)
      | some (.sending false) => some (s.setPhase number (.checking last))
      | _ => none
  | .check number =>
      match s.phases number, s.client.callers number with
      | some (.checking last), some ca =>
          some (s.setPhase number (if ca.done then .left else .waiting last false))
      | _, _ => none
  | .wake number timedOut =>
      match s.phases number, s.client.callers number with
      | some (.waiting last _), some ca =>
          some (s.setPhase number
            (if ca.done then .left
            else if timedOut then .sending last
            else .waiting last false))
      | _, _ => none
  | .erase number =>
      if s.locked ∨ s.phases number ≠ some .left then
        none
      else
        (s.client.erase number).map fun client =>
          { s with
            client
            cancel := if client.destroyWait then s.cancel.signal else s.cancel
          }.setPhase number .erased
  | .leave number =>
      if s.phases number = some .erased then
        (s.client.leave number).map fun (client, ret) =>
          { s with client }.setPhase number (.returned ret)
      else
        none
  | .bind ret =>
      if s.locked then none else (s.client.bind ret).map fun client => { s with client }
  | .gotPdu reply =>
      if s.locked then
        none
      else
        let next := { s with client := s.client.gotPdu reply }
        match s.client.calls[reply.xid]? with
        | none => some next
        | some number => some (next.signalCall number)
  | .cancel =>
      match s.cancel with
      | .outside | .returned => some { s with cancel := .forcing s.client.entries }
      | .forcing _ | .waiting _ => none
  | .force =>
      match s.cancel with
      | .forcing (entry :: rest) =>
          some ({ s with
            client := s.client.force entry.2
            cancel := .forcing rest }.signalCall entry.2)
      | .forcing [] => some s.test
      | .outside | .waiting _ | .returned => none
  | .wakeCancel =>
      match s.cancel with
      | .waiting _ => some s.test
      | .outside | .forcing _ | .returned => none

/-- A client whose nonce is given, from its constructor on. -/
def machine (nonce : Nat) : Machine Cancellation Action where
  initial := {}
  step := step nonce

/-- The call is in `calls_`. -/
def Registered (s : Cancellation) (number : Nat) : Prop :=
  ∃ xid : Nat, s.client.calls[xid]? = some number

/-- The caller object of a call says that it was cancelled. -/
def Forced (s : Cancellation) (number : Nat) : Prop :=
  ∃ ca, s.client.callers number = some ca ∧ ca.done = true ∧
    ca.intret = RpcConst.cancelFailure

/-- Every caller in `calls_` is done, and a reply changes no caller. -/
structure Settled (s : Cancellation) : Prop where
  forced : ∀ number, s.Registered number → s.Forced number
  replies : ∀ reply, (s.client.gotPdu reply).callers = s.client.callers

/-- The cancellation of the calls is complete. -/
structure Complete (nonce : Nat) (s : Cancellation) : Prop where
  /-- from the moment `cancel` waits, no call is registered and the callers are settled -/
  closed : ∀ signalled actions later, s.cancel = .waiting signalled →
    (machine nonce).run s actions = some later →
    later.client.issued = s.client.issued ∧ later.Settled
  /-- a call that is registered when `cancel` begins returns `cancel_failure` -/
  failed : ∀ started number actions later ret, step nonce s .cancel = some started →
    s.Registered number → (machine nonce).run started actions = some later →
    later.phases number = some (.returned ret) → ret = RpcConst.cancelFailure
  /-- nothing is registered when `cancel` returns -/
  emptied : ∀ action next, step nonce s action = some next → s.cancel ≠ .returned →
    next.cancel = .returned → next.client.calls.isEmpty
  /-- a caller that is done was signalled, and so was `cancel` when the callers are gone -/
  signalled : ∀ number ca last signalled, s.client.callers number = some ca → ca.done = true →
    s.phases number = some (.waiting last signalled) → signalled = true
  wakened : ∀ signalled, s.cancel = .waiting signalled → s.client.calls.isEmpty →
    signalled = true

@[simp] theorem test_phases (s : Cancellation) : s.test.phases = s.phases := by
  unfold test
  split <;> rfl

@[simp] theorem test_callers (s : Cancellation) :
    s.test.client.callers = s.client.callers := by
  unfold test
  split <;> rfl

@[simp] theorem test_calls (s : Cancellation) : s.test.client.calls = s.client.calls := by
  unfold test
  split <;> rfl

@[simp] theorem test_issued (s : Cancellation) : s.test.client.issued = s.client.issued := by
  unfold test
  split <;> rfl

/-- `cancel` returns when no call is left, or waits and lets none in. -/
theorem test_cases (s : Cancellation) :
    (s.client.calls.isEmpty ∧ s.test.cancel = .returned ∧
      s.test.client.destroyWait = s.client.destroyWait) ∨
    (s.client.calls.isEmpty = false ∧ s.test.cancel = .waiting false ∧
      s.test.client.destroyWait = true) := by
  unfold test
  split
  · next empty => exact Or.inl ⟨empty, rfl, rfl⟩
  · next left => exact Or.inr ⟨by simpa using left, rfl, rfl⟩

/-! ## Sections of the client -/

section Client

variable {cl next : Client} {number other xid : Nat}

theorem mem_entries : (xid, number) ∈ cl.entries ↔ cl.calls[xid]? = some number := by
  rw [← Std.ExtTreeMap.mem_toList_iff_getElem?_eq_some]
  simp only [Client.entries, List.mem_append, List.mem_filter, decide_eq_true_eq]
  constructor
  · rintro (⟨member, -⟩ | ⟨member, -⟩) <;> exact member
  · intro member
    rcases Nat.lt_or_ge xid (2 ^ 31) with positive | negative
    · exact Or.inr ⟨member, positive⟩
    · exact Or.inl ⟨member, negative⟩

theorem force_callers_self : (cl.force number).callers number =
    (cl.callers number).map fun ca =>
      { ca with done := true, intret := RpcConst.cancelFailure } :=
  Function.update_self ..

theorem force_callers_other (differs : other ≠ number) :
    (cl.force number).callers other = cl.callers other :=
  Function.update_of_ne differs ..

theorem erase_some (taken : cl.erase number = some next) :
    ∃ ca, cl.callers number = some ca ∧
      next = { cl with
        calls := cl.calls.erase ca.xid
        xidRepWindow := updateXidRep cl.xidRepWindow ca.xid } := by
  rcases Option.map_eq_some_iff.mp taken with ⟨ca, current, rfl⟩
  exact ⟨ca, current, rfl⟩

theorem leave_some {ret : Int} (taken : cl.leave number = some (next, ret)) :
    ∃ ca, cl.callers number = some ca ∧
      ret = (if ca.done then ca.intret else RpcConst.timeoutFailure) ∧
      next.callers = Function.update cl.callers number none ∧ next.calls = cl.calls ∧
      next.issued = cl.issued ∧ next.destroyWait = cl.destroyWait := by
  rcases Option.map_eq_some_iff.mp taken with ⟨ca, current, same⟩
  cases same
  exact ⟨ca, current, rfl, rfl, rfl, rfl, rfl⟩

/-- A reply changes at most the caller that is registered under its xid. -/
theorem gotPdu_callers (cl : Client) (reply : Reply) :
    (cl.gotPdu reply).callers = cl.callers ∨
      ∃ number ca, cl.calls[reply.xid]? = some number ∧ cl.callers number = some ca ∧
        ca.done = false ∧
        (cl.gotPdu reply).callers = Function.update cl.callers number
          (some { ca with un := reply.payload, intret := reply.ret, done := true }) := by
  unfold Client.gotPdu
  dsimp only
  split
  · exact Or.inl rfl
  · next number found =>
      split
      · exact Or.inl rfl
      · next ca current =>
          split
          · exact Or.inl rfl
          · next pending =>
              exact Or.inr ⟨number, ca, found, current, by simpa using pending, rfl⟩

/-- `finish` is both sections at once. -/
theorem finish_eq_leave : cl.finish number =
    (cl.erase number).bind fun cl => (cl.leave number).map Prod.fst := by
  unfold Client.finish Client.erase
  split
  · next none => rw [none]; rfl
  · next ca current =>
      rw [current]
      simp only [Option.map_some, Option.bind_some, Client.leave, current]

/-- The loop of `cancel` over some of the calls. -/
theorem foldl_force (entries : List (Nat × Nat)) :
    entries.foldl (fun cl entry => cl.force entry.2) cl =
      { cl with
        callers := fun number => (cl.callers number).map fun ca =>
          if entries.any fun entry => entry.2 = number then
            { ca with done := true, intret := RpcConst.cancelFailure }
          else
            ca } := by
  induction entries generalizing cl with
  | nil => simp
  | cons entry entries induction =>
      rw [List.foldl_cons, induction]
      change ({ cl with callers := _ } : Client) = { cl with callers := _ }
      congr 1
      funext number
      by_cases here : number = entry.2
      · subst here
        rw [force_callers_self, Option.map_map]
        congr 1
        funext ca
        simp
      · rw [force_callers_other here]
        have skip : (entry :: entries).any (fun entry => entry.2 = number) =
            entries.any fun entry => entry.2 = number := by
          rw [List.any_cons, decide_eq_false (Ne.symm here), Bool.false_or]
        rw [skip]

/-- `cancel` on a client is the whole loop at once. -/
theorem cancel_eq_force : cl.cancel =
    { cl.entries.foldl (fun cl entry => cl.force entry.2) cl with
      destroyWait := cl.destroyWait || !cl.calls.isEmpty } := by
  rw [foldl_force]
  unfold Client.cancel
  congr 1
  funext number
  have same : (cl.calls.toList.any fun entry => entry.2 = number) =
      cl.entries.any fun entry => entry.2 = number := by
    apply Bool.eq_iff_iff.mpr
    simp only [List.any_eq_true]
    constructor
    · rintro ⟨entry, member, here⟩
      have found := Std.ExtTreeMap.mem_toList_iff_getElem?_eq_some.mp member
      exact ⟨entry, mem_entries.mpr found, here⟩
    · rintro ⟨entry, member, here⟩
      have found := mem_entries.mp member
      exact ⟨entry, Std.ExtTreeMap.mem_toList_iff_getElem?_eq_some.mpr found, here⟩
  rw [same]

end Client

/-! ## What a step does -/

variable {nonce : Nat} {s next : Cancellation} {number other : Nat} {phase after : CallerPhase}

/-- A caller that is done and waits was signalled. -/
def Awake (s : Cancellation) : Prop :=
  ∀ number ca last signalled, s.client.callers number = some ca → ca.done = true →
    s.phases number = some (.waiting last signalled) → signalled = true

/-- No call begins or ends, and what is in `calls_` and in `cancel` stays the same. -/
structure Quiet (s next : Cancellation) : Prop where
  calls : next.client.calls = s.client.calls
  issued : next.client.issued = s.client.issued
  destroyWait : next.client.destroyWait = s.client.destroyWait
  cancel : next.cancel = s.cancel
  phases : ∀ number phase, s.phases number = some phase → ∃ after,
    next.phases number = some after ∧ (phase.Registered → after.Registered) ∧
      (phase.Inside → after.Inside) ∧ ∀ ret, phase = .returned ret → after = .returned ret
  known : ∀ number after, next.phases number = some after → ∃ phase, s.phases number = some phase
  callers : ∀ number ca, s.client.callers number = some ca → ∃ after,
    next.client.callers number = some after ∧ after.xid = ca.xid ∧ (ca.done = true → after = ca)
  old : ∀ number after, next.client.callers number = some after →
    ∃ ca, s.client.callers number = some ca
  awake : s.Awake → next.Awake

/-- What a step does. -/
inductive Stepped (s : Cancellation) : Cancellation → Prop
  | quiet {next : Cancellation} (quiet : s.Quiet next) : Stepped s next
  | call (h : Request) (last : Bool) (unlocked : s.locked = false)
      (admitted : s.client.destroyWait = false) :
      Stepped s ({ s with client := s.client.register h }.setPhase
        (s.client.issued.length + 1) (.sending last))
  | erase (number : Nat) (ca : Caller) (unlocked : s.locked = false)
      (left : s.phases number = some .left) (current : s.client.callers number = some ca) :
      Stepped s ({ s with
        client := { s.client with
          calls := s.client.calls.erase ca.xid
          xidRepWindow := updateXidRep s.client.xidRepWindow ca.xid }
        cancel := if s.client.destroyWait then s.cancel.signal else s.cancel }.setPhase
          number .erased)
  | leave (number : Nat) (ca : Caller) (client : Client)
      (erased : s.phases number = some .erased) (current : s.client.callers number = some ca)
      (callers : client.callers = Function.update s.client.callers number none)
      (calls : client.calls = s.client.calls) (issued : client.issued = s.client.issued)
      (destroyWait : client.destroyWait = s.client.destroyWait) :
      Stepped s ({ s with client }.setPhase number
        (.returned (if ca.done then ca.intret else RpcConst.timeoutFailure)))
  | cancel (unlocked : s.locked = false) (moved : ∀ signalled, s.cancel ≠ .waiting signalled) :
      Stepped s { s with cancel := .forcing s.client.entries }
  | force (entry : Nat × Nat) (rest : List (Nat × Nat))
      (forcing : s.cancel = .forcing (entry :: rest)) :
      Stepped s ({ s with
        client := s.client.force entry.2
        cancel := .forcing rest }.signalCall entry.2)
  | test (looks : s.cancel = .forcing [] ∨ ∃ signalled, s.cancel = .waiting signalled) :
      Stepped s s.test

theorem phases_signalCall (s : Cancellation) (number other : Nat) :
    (s.signalCall number).phases other =
      if other = number then (s.phases number).map .signal else s.phases other :=
  Function.update_apply ..

theorem phases_setPhase (s : Cancellation) (number other : Nat) (phase : CallerPhase) :
    (s.setPhase number phase).phases other =
      if other = number then some phase else s.phases other :=
  Function.update_apply ..

/-- A signal leaves every call where it is. -/
theorem signalCall_kept (number : Nat) (found : s.phases other = some phase) :
    ∃ after, (s.signalCall number).phases other = some after ∧
      (phase.Registered → after.Registered) ∧ (phase.Inside → after.Inside) ∧
      ∀ ret, phase = .returned ret → after = .returned ret := by
  rw [phases_signalCall]
  split
  · next same =>
      rw [same] at found
      exact ⟨phase.signal, congrArg (Option.map CallerPhase.signal) found, phase.signal_kept⟩
  · exact ⟨phase, found, id, id, fun _ => id⟩

theorem signalCall_known (found : (s.signalCall number).phases other = some after) :
    ∃ phase, s.phases other = some phase := by
  rw [phases_signalCall] at found
  split at found
  · next same =>
      rcases Option.map_eq_some_iff.mp found with ⟨phase, found, -⟩
      exact ⟨phase, same ▸ found⟩
  · exact ⟨after, found⟩

theorem signalCall_waiting {last signalled : Bool}
    (waits : (s.signalCall number).phases other = some (.waiting last signalled)) :
    signalled = true ∨ (other ≠ number ∧ s.phases other = some (.waiting last signalled)) := by
  rw [phases_signalCall] at waits
  split at waits
  · rcases Option.map_eq_some_iff.mp waits with ⟨phase, -, waits⟩
    cases phase <;> cases waits
    exact Or.inl rfl
  · next differs => exact Or.inr ⟨differs, waits⟩

/-- A thread moves within the loop of `call1`. -/
theorem quiet_move (there : s.phases number = some phase)
    (inside : phase.Inside) (registered : after.Registered)
    (awake : ∀ ca last, s.client.callers number = some ca → ca.done = true →
      after ≠ .waiting last false) : s.Quiet (s.setPhase number after) where
  calls := rfl
  issued := rfl
  destroyWait := rfl
  cancel := rfl
  phases := by
    intro other before found
    rw [phases_setPhase]
    split
    · next same =>
        rw [same, there] at found
        cases found
        refine ⟨after, rfl, fun _ => registered, fun _ => ?_, fun ret same => ?_⟩
        · cases after <;> trivial
        · rw [same] at inside
          contradiction
    · exact ⟨before, found, id, id, fun _ => id⟩
  known := by
    intro other found now
    rw [phases_setPhase] at now
    split at now
    · next same => exact ⟨phase, same ▸ there⟩
    · exact ⟨found, now⟩
  callers := fun other ca current => ⟨ca, current, rfl, fun _ => rfl⟩
  old := fun other ca current => ⟨ca, current⟩
  awake := by
    intro before other ca last signalled current done waits
    rw [phases_setPhase] at waits
    split at waits
    · next same =>
        rw [same] at current
        cases signalled with
        | true => rfl
        | false => exact absurd (Option.some.inj waits) (awake ca last current done)
    · exact before other ca last signalled current done waits

/-- Another section of the client under `m_`. -/
theorem quiet_client {client : Client} (calls : client.calls = s.client.calls)
    (issued : client.issued = s.client.issued)
    (destroyWait : client.destroyWait = s.client.destroyWait)
    (callers : client.callers = s.client.callers) : s.Quiet { s with client } where
  calls := calls
  issued := issued
  destroyWait := destroyWait
  cancel := rfl
  phases := fun _ phase found => ⟨phase, found, id, id, fun _ => id⟩
  known := fun _ phase found => ⟨phase, found⟩
  callers := by
    intro other ca current
    refine ⟨ca, ?_, rfl, fun _ => rfl⟩
    rwa [← callers] at current
  old := by
    intro other ca current
    refine ⟨ca, ?_⟩
    rwa [← callers]
  awake := by
    intro before other ca last signalled current done waits
    change client.callers other = some ca at current
    rw [callers] at current
    exact before other ca last signalled current done waits

/-- A section of the client ends with a signal to one of the callers. -/
theorem quiet_signal {client : Client} (calls : client.calls = s.client.calls)
    (issued : client.issued = s.client.issued)
    (destroyWait : client.destroyWait = s.client.destroyWait)
    (others : ∀ other, other ≠ number → client.callers other = s.client.callers other)
    (kept : ∀ ca, s.client.callers number = some ca → ∃ after,
      client.callers number = some after ∧ after.xid = ca.xid ∧ (ca.done = true → after = ca))
    (old : ∀ after, client.callers number = some after →
      ∃ ca, s.client.callers number = some ca) :
    s.Quiet ({ s with client }.signalCall number) where
  calls := calls
  issued := issued
  destroyWait := destroyWait
  cancel := rfl
  phases := fun _ _ found => signalCall_kept number found
  known := fun _ _ found => signalCall_known found
  callers := by
    intro other ca current
    by_cases same : other = number
    · subst same
      exact kept ca current
    · exact ⟨ca, (others other same).trans current, rfl, fun _ => rfl⟩
  old := by
    intro other after current
    by_cases same : other = number
    · subst same
      exact old after current
    · exact ⟨after, (others other same).symm.trans current⟩
  awake := by
    intro before other after last signalled current done waits
    rcases signalCall_waiting waits with sent | ⟨differs, waits⟩
    · exact sent
    · have current := (others other differs).symm.trans current
      exact before other after last signalled current done waits

/-- A caller that was not done gets its result. -/
theorem quiet_gotPdu {reply : Reply} (taken : step nonce s (.gotPdu reply) = some next) :
    s.Quiet next := by
  have issued := Client.issued_gotPdu reply s.client
  have calls := Client.calls_gotPdu reply s.client
  have destroyWait := Client.destroyWait_gotPdu reply s.client
  simp only [step] at taken
  split at taken
  · contradiction
  · rcases gotPdu_callers s.client reply with
      same | ⟨number, ca, found, current, pending, changed⟩
    · split at taken
      · cases taken
        exact quiet_client calls issued destroyWait same
      · next number found =>
          cases taken
          refine quiet_signal calls issued destroyWait ?_ ?_ ?_
          · intro other _
            rw [same]
          · intro ca current
            exact ⟨ca, by rw [same, current], rfl, fun _ => rfl⟩
          · intro ca current
            exact ⟨ca, by rw [← same, current]⟩
    · rw [found] at taken
      cases taken
      refine quiet_signal calls issued destroyWait ?_ ?_ ?_
      · intro other differs
        rw [changed, Function.update_of_ne differs]
      · intro before found
        rw [current] at found
        cases found
        refine ⟨_, (congrFun changed number).trans (Function.update_self ..), rfl,
          fun done => ?_⟩
        rw [pending] at done
        contradiction
      · exact fun _ _ => ⟨ca, current⟩

theorem step_stepped {action : Action} (taken : step nonce s action = some next) :
    s.Stepped next := by
  cases action with
  | call proc payload last =>
      simp only [step] at taken
      split at taken
      · contradiction
      · next unlocked =>
          rcases Option.map_eq_some_iff.mp taken with ⟨client, called, rfl⟩
          rcases Client.call1_eq called with ⟨-, admitted, rfl⟩
          exact .call _ last (by simpa using unlocked) admitted
  | turn number last =>
      simp only [step] at taken
      split at taken
      · next there =>
          cases taken
          exact .quiet (quiet_move there trivial trivial fun _ _ _ _ => nofun)
      · next there =>
          cases taken
          exact .quiet (quiet_move there trivial trivial fun _ _ _ _ => nofun)
      · contradiction
  | check number =>
      simp only [step] at taken
      split at taken
      · next last ca there current =>
          cases taken
          refine .quiet (quiet_move there trivial ?_ ?_)
          · split <;> trivial
          · intro other last found done
            rw [current] at found
            cases found
            rw [if_pos done]
            nofun
      · contradiction
  | wake number timedOut =>
      simp only [step] at taken
      split at taken
      · next last signalled ca there current =>
          cases taken
          refine .quiet (quiet_move there trivial ?_ ?_)
          · split
            · trivial
            · split <;> trivial
          · intro other last found done
            rw [current] at found
            cases found
            rw [if_pos done]
            nofun
      · contradiction
  | erase number =>
      simp only [step] at taken
      split at taken
      · contradiction
      · next ready =>
          rcases not_or.mp ready with ⟨unlocked, left⟩
          rcases Option.map_eq_some_iff.mp taken with ⟨client, erased, rfl⟩
          rcases erase_some erased with ⟨ca, current, rfl⟩
          exact .erase number ca (by simpa using unlocked) (not_not.mp left) current
  | leave number =>
      simp only [step] at taken
      split at taken
      · next erased =>
          rcases Option.map_eq_some_iff.mp taken with ⟨⟨client, ret⟩, left, rfl⟩
          rcases leave_some left with ⟨ca, current, rfl, callers, calls, issued, destroyWait⟩
          exact .leave number ca client erased current callers calls issued destroyWait
      · contradiction
  | bind ret =>
      simp only [step] at taken
      split at taken
      · contradiction
      · rcases Option.map_eq_some_iff.mp taken with ⟨client, bound, rfl⟩
        rcases Client.bind_eq bound with ⟨-, r, -, rfl⟩
        exact .quiet (quiet_client rfl rfl rfl rfl)
  | gotPdu reply => exact .quiet (quiet_gotPdu taken)
  | cancel =>
      simp only [step] at taken
      split at taken
      · next outside =>
          cases taken
          exact .cancel (by rw [locked, outside]) (by rw [outside]; nofun)
      · next returned =>
          cases taken
          exact .cancel (by rw [locked, returned]) (by rw [returned]; nofun)
      · contradiction
      · contradiction
  | force =>
      simp only [step] at taken
      split at taken
      · next entry rest forcing =>
          cases taken
          exact .force entry rest forcing
      · next forcing =>
          cases taken
          exact .test (Or.inl forcing)
      all_goals contradiction
  | wakeCancel =>
      simp only [step] at taken
      split at taken
      · next signalled waits =>
          cases taken
          exact .test (Or.inr ⟨signalled, waits⟩)
      all_goals contradiction

end Cancellation

end YfsRpc.Rpc
