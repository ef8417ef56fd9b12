import YfsRpc.Rpc.RoundTrip
import YfsRpc.Rpc.Server

/-! # The lock server

`lock_server` keeps one `lock` for each lock id that was ever acquired. `grant` and
`release` run under one mutex, and `stat` takes none. A grant that finds the lock taken
waits on the condition of the lock and looks again whenever it wakes up.
-/

namespace YfsRpc.LockService

open YfsRpc.Rpc

/-! ## The lock protocol -/

namespace LockProtocol

abbrev LockId := UInt64

/-- The status `OK`. -/
def ok : Int := 0
def acquire : Nat := 0x7001
def release : Nat := 0x7002
def stat : Nat := 0x7004

end LockProtocol

open LockProtocol (LockId)

inductive LockState
  | locked
  | free
  deriving DecidableEq

structure Lock where
  lid : LockId
  clt : Int32 := 0
  state : LockState := .free
  deriving DecidableEq

namespace Lock

def isLocked (l : Lock) : Bool := l.state = .locked

def getOwner (l : Lock) : Int32 := l.clt

/-- `Set_Locked`; its answer is used by no caller. -/
def setLocked (clt : Int32) (l : Lock) : Lock :=
  match l.state with
  | .free => { l with state := .locked, clt }
  | .locked => l

def setFree (l : Lock) : Lock := { l with state := .free, clt := 0 }

end Lock

/-! ## The procedures -/

structure LockServer where
  nacquire : Int32 := 0
  mapLocks : LockId → Option Lock := fun _ => none

namespace LockServer

def setLock (s : LockServer) (lid : LockId) (l : Lock) : LockServer :=
  { s with mapLocks := Function.update s.mapLocks lid (some l) }

/-- `grant` from where it holds the mutex to its end, or nothing while the lock
is taken. -/
def grant (clt : Int32) (lid : LockId) (s : LockServer) : Option LockServer :=
  match s.mapLocks lid with
  | some l => if l.isLocked then none else some (s.setLock lid (l.setLocked clt))
  | none => some (s.setLock lid (({ lid } : Lock).setLocked clt))

/-- Without an entry in the map a null pointer is dereferenced. -/
def release (clt : Int32) (lid : LockId) (s : LockServer) : Option LockServer :=
  match s.mapLocks lid with
  | none => none
  | some l =>
      if l.isLocked then
        if clt = l.getOwner then some (s.setLock lid l.setFree) else some s
      else
        some s

end LockServer

/-! ## The procedures as handlers -/

/-- A handler of the lock server that has unmarshalled its arguments. -/
inductive Handler
  | unmarshalArgsFailure
  | stat (clt : Int32) (lid : LockId)
  | grant (clt : Int32) (lid : LockId)
  | release (clt : Int32) (lid : LockId)

/-- `m << clt`, `m << lid`; the client id is an `unsigned int`. -/
def encodeArgs (clt : UInt32) (lid : LockId) : List UInt8 :=
  Ty.uint.encode clt ++ Ty.ulonglong.encode lid

/-- `args >> a1`, `args >> a2`; the client id is an `int`. -/
def getArgs : StateM Unmarshall (Int32 × LockId) := do
  let clt ← Unmarshall.getInt
  let lid ← Unmarshall.getULongLong
  return (clt, lid)

def decodeArgs (payload : List UInt8) : Option (Int32 × LockId) :=
  let (args, u) := getArgs (.takeContent (fun _ => 0) payload)
  if u.okdone then some args else none

def handler (proc : Nat) (payload : List UInt8) : Handler :=
  match decodeArgs payload with
  | none => .unmarshalArgsFailure
  | some (clt, lid) =>
      if proc = LockProtocol.acquire then .grant clt lid
      else if proc = LockProtocol.release then .release clt lid
      else .stat clt lid

/-- The reply `OK` with `r = nacquire`. -/
def LockServer.reply (s : LockServer) : LockServer × (Handler ⊕ (Int × List UInt8)) :=
  (s, .inr (LockProtocol.ok, Server.encodeInt s.nacquire))

/-- `server.reg` in the main program of the lock server. -/
def lockService : Service LockServer Handler where
  initial := {}
  registered proc :=
    proc = LockProtocol.stat ∨ proc = LockProtocol.acquire ∨ proc = LockProtocol.release
  invoke := handler
  resume s h _ :=
    match h with
    | .unmarshalArgsFailure => some (s, .inr (RpcConst.unmarshalArgsFailure, []))
    | .stat _ _ => some s.reply
    | .grant clt lid =>
        match s.grant clt lid with
        | none => some (s, .inl (.grant clt lid))
        | some s => some s.reply
    | .release clt lid => (s.release clt lid).map LockServer.reply

/-! ## Arguments -/

theorem decodeArgs_encodeArgs (clt : UInt32) (lid : LockId) :
    decodeArgs (encodeArgs clt lid) = some (clt.toInt32, lid) := by
  have reads : Unmarshall.Reads getArgs (encodeArgs clt lid) (clt.toInt32, lid) := by
    have first := Unmarshall.getInt_reads clt.toInt32
    rw [UInt32.toUInt32_toInt32] at first
    exact first.bind ((Unmarshall.getULongLong_reads lid).bind_pure rfl)
  have length : (encodeArgs clt lid).length = 12 := by
    simp [encodeArgs, Ty.encode]
  rcases reads.takeContent (fun _ => 0) (by rw [length]; decide) with ⟨after, done, ended⟩
  unfold decodeArgs
  rw [done]
  exact if_pos ended

attribute [irreducible] decodeArgs

theorem handler_encodeArgs (proc : Nat) (clt : UInt32) (lid : LockId) :
    handler proc (encodeArgs clt lid) =
      if proc = LockProtocol.acquire then .grant clt.toInt32 lid
      else if proc = LockProtocol.release then .release clt.toInt32 lid
      else .stat clt.toInt32 lid := by
  unfold handler
  rw [decodeArgs_encodeArgs]

/-! ## Owners -/

namespace LockServer

/-- The client that has the lock. -/
def lockedBy (s : LockServer) (lid : LockId) : Option Int32 :=
  match s.mapLocks lid with
  | some l => if l.isLocked then some l.clt else none
  | none => none

theorem lockedBy_setLock (s : LockServer) (lid : LockId) (l : Lock) :
    (s.setLock lid l).lockedBy lid = if l.isLocked then some l.clt else none := by
  simp [lockedBy, setLock]

theorem lockedBy_setLock_of_ne (s : LockServer) {lid other : LockId} (l : Lock)
    (differs : other ≠ lid) : (s.setLock lid l).lockedBy other = s.lockedBy other := by
  simp [lockedBy, setLock, Function.update_of_ne differs]

/-- What a grant that does not wait does. -/
theorem grant_some {clt : Int32} {lid : LockId} {s next : LockServer}
    (done : s.grant clt lid = some next) :
    s.lockedBy lid = none ∧ next.lockedBy lid = some clt ∧
      ∀ other, other ≠ lid → next.lockedBy other = s.lockedBy other := by
  unfold grant at done
  cases found : s.mapLocks lid with
  | none =>
      simp only [found] at done
      cases done
      refine ⟨by simp [lockedBy, found], ?_, fun other => lockedBy_setLock_of_ne s _⟩
      rw [lockedBy_setLock]
      rfl
  | some l =>
      simp only [found] at done
      cases state : l.state with
      | locked =>
          simp only [Lock.isLocked, state, decide_true, if_true] at done
          contradiction
      | free =>
          simp only [Lock.isLocked, state] at done
          cases done
          refine ⟨?_, ?_, fun other => lockedBy_setLock_of_ne s _⟩
          · simp [lockedBy, found, Lock.isLocked, state]
          · rw [lockedBy_setLock]
            simp [Lock.setLocked, Lock.isLocked, state]

/-- A release by the owner frees the lock. -/
theorem release_owner {clt : Int32} {lid : LockId} {s next : LockServer}
    (done : s.release clt lid = some next) (owner : s.lockedBy lid = some clt) :
    next.lockedBy lid = none ∧
      ∀ other, other ≠ lid → next.lockedBy other = s.lockedBy other := by
  unfold release at done
  cases found : s.mapLocks lid with
  | none =>
      simp only [found] at done
      contradiction
  | some l =>
      simp only [lockedBy, found] at owner
      split at owner
      · next locked =>
          cases owner
          simp only [found, locked, Lock.getOwner, if_true] at done
          cases done
          refine ⟨?_, fun other => lockedBy_setLock_of_ne s _⟩
          rw [lockedBy_setLock]
          rfl
      · contradiction

end LockServer

/-! ## What a handler does -/

/-- The effect of a handler that returns. -/
def Handler.Effect (before after : LockServer) : Handler → Prop
  | .grant clt lid => before.grant clt lid = some after
  | .release clt lid => before.release clt lid = some after
  | .unmarshalArgsFailure | .stat _ _ => after = before

/-- Only a grant waits, and it changes nothing then. -/
theorem resume_waits {s state : LockServer} {h later : Handler} {choice : Nat}
    (resumed : lockService.resume s h choice = some (state, .inl later)) :
    state = s ∧ later = h := by
  cases h with
  | unmarshalArgsFailure | stat => cases resumed
  | grant clt lid =>
      simp only [lockService] at resumed
      split at resumed
      · cases resumed
        exact ⟨rfl, rfl⟩
      · cases resumed
  | release clt lid =>
      rcases Option.map_eq_some_iff.mp resumed with ⟨_, _, same⟩
      cases same

theorem resume_returns {s state : LockServer} {h : Handler} {choice : Nat} {ret : Int}
    {payload : List UInt8}
    (resumed : lockService.resume s h choice = some (state, .inr (ret, payload))) :
    h.Effect s state := by
  cases h with
  | unmarshalArgsFailure | stat =>
      cases resumed
      rfl
  | grant clt lid =>
      simp only [lockService] at resumed
      split at resumed
      · cases resumed
      · next granted =>
          cases resumed
          exact granted
  | release clt lid =>
      rcases Option.map_eq_some_iff.mp resumed with ⟨_, released, same⟩
      cases same
      exact released

/-- A handler that has its arguments returns `OK` and an `int`. -/
theorem resume_ok {s state : LockServer} {h : Handler} (unmarshalled : h ≠ .unmarshalArgsFailure)
    {choice : Nat} {ret : Int} {payload : List UInt8}
    (resumed : lockService.resume s h choice = some (state, .inr (ret, payload))) :
    ret = LockProtocol.ok ∧ ∃ r, payload = Server.encodeInt r := by
  cases h with
  | unmarshalArgsFailure => contradiction
  | stat clt lid =>
      cases resumed
      exact ⟨rfl, _, rfl⟩
  | grant clt lid =>
      simp only [lockService] at resumed
      split at resumed
      · cases resumed
      · cases resumed
        exact ⟨rfl, _, rfl⟩
  | release clt lid =>
      rcases Option.map_eq_some_iff.mp resumed with ⟨_, _, same⟩
      cases same
      exact ⟨rfl, _, rfl⟩

end YfsRpc.LockService
