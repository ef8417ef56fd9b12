import YfsRpc.Foundation.CondVar
import YfsRpc.Rpc.Connection
import YfsRpc.Rpc.PollMgr

/-! # A connection and its waiting senders

The sending end of a connection with its two condition variables: a call of `send` waits
on `send_wait_` for its turn and on `send_complete_` for the rest of a partial write. A
step is one stretch of code under `m_`, together with the call of the poll manager that
it makes there. What `readpdu` answers is part of the action.
-/

namespace YfsRpc.Rpc

open Connection (Charbuf SendPhase WriteResult writepdu)

/-- What a step asks of the poll manager for its own descriptor. -/
inductive PollCall
  | addCallback (flag : PollFlag)
  | delCallback (flag : PollFlag)
  /-- `block_remove_fd`, called once `m_` is released -/
  | blockRemove
  deriving DecidableEq

structure Endpoint (ι : Type) extends Connection.Sending ι where
  waiters : Nat := 0
  sendWait : CondVar ι := .init
  sendComplete : CondVar ι := .init

namespace Endpoint

variable {ι : Type} [DecidableEq ι]

def goto (e : Endpoint ι) (i : ι) (phase : SendPhase) : Endpoint ι :=
  { e with senders := Function.update e.senders i phase }

/-- The end of `send`. -/
def finish (e : Endpoint ι) (i : ι) (b : List UInt8) : Endpoint ι :=
  { e with
    wpdu := {}
    sendWait := if 0 < e.waiters then e.sendWait.broadcast else e.sendWait }.goto i
      (.returned b (!e.dead && e.wpdu.solong == e.wpdu.sz))

/-- The loop on `send_complete_`. -/
def awaitComplete (e : Endpoint ι) (i : ι) (b : List UInt8) : Endpoint ι :=
  if !e.dead && 0 ≤ e.wpdu.solong && e.wpdu.solong < e.wpdu.sz then
    { e with sendComplete := e.sendComplete.wait i }.goto i (.waitComplete b)
  else
    e.finish i b

/-- The part of `send` that owns `wpdu_`. -/
def obtain (e : Endpoint ι) (i : ι) (b : List UInt8) (result : WriteResult) :
    Option (Endpoint ι × Option PollCall) :=
  let e := { e with
    wpdu := { buf := some b, sz := b.length, solong := 0 }
    obtained := e.obtained ++ [(i, b)] }
  match writepdu e.wpdu e.stream result with
  | none => none
  | some (false, wpdu, stream) =>
      some ({ e with wpdu, stream, dead := true }.goto i (.removing b), some .blockRemove)
  | some (true, wpdu, stream) =>
      let e := { e with wpdu, stream }
      if e.wpdu.solong = e.wpdu.sz then
        some (e.finish i b, none)
      else
        some (e.awaitComplete i b, some (.addCallback .wronly))

/-- The loop on `send_wait_`. -/
def awaitTurn (e : Endpoint ι) (i : ι) (b : List UInt8) (result : WriteResult) :
    Option (Endpoint ι × Option PollCall) :=
  if !e.dead && e.wpdu.buf.isSome then
    some ({ e with sendWait := e.sendWait.wait i }.goto i (.waitTurn b), none)
  else
    let e := { e with waiters := e.waiters - 1 }
    if e.dead then
      some (e.goto i (.returned b false), none)
    else
      e.obtain i b result

/-- There is no successor when an assertion fails. -/
def writeCb (e : Endpoint ι) (pick : ι) (result : WriteResult) :
    Option (Endpoint ι × Option PollCall) :=
  if e.dead then
    none
  else if e.wpdu.sz = 0 then
    some (e, some (.delCallback .wronly))
  else
    match writepdu e.wpdu e.stream result with
    | none => none
    | some (false, wpdu, stream) =>
        (e.sendComplete.signal pick).map fun sendComplete =>
          ({ e with wpdu, stream, dead := true, sendComplete }, some (.delCallback .rdwr))
    | some (true, wpdu, stream) =>
        if wpdu.solong < 0 then
          none
        else if wpdu.solong < wpdu.sz then
          some ({ e with wpdu, stream }, none)
        else
          (e.sendComplete.signal pick).map fun sendComplete =>
            ({ e with wpdu, stream, sendComplete }, none)

def readCb (e : Endpoint ι) (pick : ι) (succ : Bool) : Option (Endpoint ι × Option PollCall) :=
  if e.dead then
    some (e, none)
  else if succ then
    some (e, none)
  else
    (e.sendComplete.signal pick).map fun sendComplete =>
      ({ e with dead := true, sendComplete }, some (.delCallback .rdwr))

def closeconn (e : Endpoint ι) : Endpoint ι × Option PollCall :=
  if !e.dead then ({ e with dead := true }, some .blockRemove) else (e, none)

inductive Action (ι : Type)
  | send (i : ι) (b : List UInt8) (result : WriteResult)
  | wakeTurn (i : ι) (result : WriteResult)
  | wakeComplete (i : ι)
  /-- return from `block_remove_fd` -/
  | removed (i : ι)
  | writeCb (pick : ι) (result : WriteResult)
  | readCb (pick : ι) (succ : Bool)
  | closeconn
  | spuriousTurn (i : ι)
  | spuriousComplete (i : ι)

def step (e : Endpoint ι) : Action ι → Option (Endpoint ι × Option PollCall)
  | .send i b result =>
      if e.senders i = .idle then
        { e with waiters := e.waiters + 1 }.awaitTurn i b result
      else
        none
  | .wakeTurn i result =>
      match e.senders i with
      | .waitTurn b =>
          (e.sendWait.resume i).bind fun sendWait => { e with sendWait }.awaitTurn i b result
      | _ => none
  | .wakeComplete i =>
      match e.senders i with
      | .waitComplete b =>
          (e.sendComplete.resume i).map fun sendComplete =>
            ({ e with sendComplete }.awaitComplete i b, none)
      | _ => none
  | .removed i =>
      match e.senders i with
      | .removing b => some (e.finish i b, none)
      | _ => none
  | .writeCb pick result => e.writeCb pick result
  | .readCb pick succ => e.readCb pick succ
  | .closeconn => some e.closeconn
  | .spuriousTurn i =>
      (e.sendWait.spurious i).map fun sendWait => ({ e with sendWait }, none)
  | .spuriousComplete i =>
      (e.sendComplete.spurious i).map fun sendComplete => ({ e with sendComplete }, none)

/-- A fresh connection; every call of `send` is a sender of its own. -/
def machine (ι : Type) [DecidableEq ι] : Machine (Endpoint ι) (Action ι) where
  initial := {}
  step e action := (e.step action).map Prod.fst

/-! ## The bytes on the wire

Without the condition variables an endpoint is the sending end of a connection, so what
holds of the byte stream there holds here.
-/

/-- The PDUs have a size that the other end accepts. -/
def Sized (_ : Endpoint ι) : Action ι → Prop
  | .send _ b _ => rpcHeaderSz ≤ b.length ∧ b.length ≤ maxPdu
  | _ => True

variable {e next : Endpoint ι} {i : ι} {b : List UInt8}

theorem finish_sending : (e.finish i b).toSending = Connection.finish e.toSending i b := rfl

theorem awaitComplete_sending :
    (e.awaitComplete i b).toSending = Connection.awaitComplete e.toSending i b := by
  unfold awaitComplete Connection.awaitComplete
  split <;> rfl

theorem obtain_sending (result : WriteResult) :
    (e.obtain i b result).map (fun after => after.1.toSending) =
      Connection.obtain e.toSending i b result := by
  unfold obtain Connection.obtain
  dsimp only
  cases written : writepdu { buf := some b, sz := b.length } e.stream result with
  | none => rfl
  | some outcome =>
      rcases outcome with ⟨succ, wpdu, stream⟩
      cases succ with
      | false => rfl
      | true =>
          dsimp only
          split
          · next complete =>
              rw [Option.map_some, finish_sending]
              unfold Connection.awaitComplete
              rw [if_neg]
              simp [complete]
          · rw [Option.map_some, awaitComplete_sending]

theorem awaitTurn_sending (result : WriteResult) :
    (e.awaitTurn i b result).map (fun after => after.1.toSending) =
      Connection.awaitTurn e.toSending i b result := by
  unfold awaitTurn Connection.awaitTurn
  split
  · rfl
  · dsimp only
    split
    · rfl
    · exact obtain_sending result

theorem writeCb_sending {pick : ι} {result : WriteResult} {call : Option PollCall}
    (taken : e.writeCb pick result = some (next, call)) :
    Connection.writeCb e.toSending result = some next.toSending := by
  unfold writeCb at taken
  unfold Connection.writeCb
  split at taken
  · contradiction
  · next alive =>
      rw [if_neg alive]
      split at taken
      · next empty =>
          cases taken
          rw [if_pos empty]
      · next full =>
          rw [if_neg full]
          cases written : writepdu e.wpdu e.stream result with
          | none =>
              rw [written] at taken
              contradiction
          | some outcome =>
              rcases outcome with ⟨succ, wpdu, stream⟩
              rw [written] at taken
              cases succ with
              | false =>
                  rcases Option.map_eq_some_iff.mp taken with ⟨_, _, same⟩
                  cases same
                  rfl
              | true =>
                  dsimp only at taken ⊢
                  split at taken
                  · contradiction
                  · next proper =>
                      rw [if_neg proper]
                      split at taken
                      · cases taken
                        rfl
                      · rcases Option.map_eq_some_iff.mp taken with ⟨_, _, same⟩
                        cases same
                        rfl

/-- A step of an endpoint is a step of the sending end, or nothing. -/
theorem step_sending {action : Action ι} {call : Option PollCall} (sized : Sized e action)
    (taken : e.step action = some (next, call)) :
    next.toSending = e.toSending ∨ ∃ a, Connection.sendStep e.toSending a = some next.toSending ∧
      ∀ r stream, Connection.readStep r stream a = some r := by
  have turned : ∀ {before : Endpoint ι} {i b result},
      before.awaitTurn i b result = some (next, call) → before.toSending = e.toSending →
      Connection.awaitTurn e.toSending i b result = some next.toSending := by
    intro before i b result turn same
    rw [← same, ← awaitTurn_sending, turn]
    rfl
  cases action with
  | send i b result =>
      simp only [step] at taken
      split at taken
      · next idle =>
          refine Or.inr ⟨.send i b result, ?_, fun _ _ => rfl⟩
          simp only [Connection.sendStep]
          rw [if_pos ⟨idle, sized⟩]
          exact turned taken rfl
      · contradiction
  | wakeTurn i result =>
      simp only [step] at taken
      split at taken
      · next b phase =>
          rcases Option.bind_eq_some_iff.mp taken with ⟨sendWait, _, turn⟩
          refine Or.inr ⟨.wakeTurn i result, ?_, fun _ _ => rfl⟩
          simp only [Connection.sendStep, phase]
          exact turned turn rfl
      · contradiction
  | wakeComplete i =>
      simp only [step] at taken
      split at taken
      · next b phase =>
          rcases Option.map_eq_some_iff.mp taken with ⟨_, _, same⟩
          cases same
          refine Or.inr ⟨.wakeComplete i, ?_, fun _ _ => rfl⟩
          simp only [Connection.sendStep, phase, awaitComplete_sending]
      · contradiction
  | removed i =>
      simp only [step] at taken
      split at taken
      · next b phase =>
          cases taken
          refine Or.inr ⟨.removed i, ?_, fun _ _ => rfl⟩
          simp only [Connection.sendStep, phase, finish_sending]
      · contradiction
  | writeCb pick result =>
      exact Or.inr ⟨.writeCb result, writeCb_sending taken, fun _ _ => rfl⟩
  | readCb pick succ =>
      simp only [step, readCb] at taken
      split at taken
      · cases taken
        exact Or.inl rfl
      · split at taken
        · cases taken
          exact Or.inl rfl
        · rcases Option.map_eq_some_iff.mp taken with ⟨_, _, same⟩
          cases same
          exact Or.inr ⟨.die, rfl, fun _ _ => rfl⟩
  | closeconn =>
      simp only [step, closeconn] at taken
      split at taken
      · cases taken
        exact Or.inr ⟨.die, rfl, fun _ _ => rfl⟩
      · cases taken
        exact Or.inl rfl
  | spuriousTurn i | spuriousComplete i =>
      rcases Option.map_eq_some_iff.mp taken with ⟨_, _, same⟩
      cases same
      exact Or.inl rfl

/-- The sending end of a reachable endpoint is that of a reachable connection. -/
theorem reachable_sending (reachable : (machine ι).ReachableUnder Sized e) :
    (Connection.machine ι).Reachable { sending := e.toSending } := by
  apply reachable.invariant fun e => (Connection.machine ι).Reachable { sending := e.toSending }
  · exact Machine.Reachable.initial
  · intro state action next _ before sized taken
    rcases Option.map_eq_some_iff.mp taken with ⟨⟨after, call⟩, stepped, rfl⟩
    rcases step_sending sized stepped with same | ⟨a, sent, unread⟩
    · simpa only [same] using before
    · have followed : (Connection.machine ι).step { sending := state.toSending } a =
          some { sending := after.toSending } := by
        simp only [Connection.machine, sent, unread]
        rfl
      exact before.step followed

end Endpoint

end YfsRpc.Rpc
