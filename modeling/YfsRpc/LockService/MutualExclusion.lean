import YfsRpc.LockService.LockInvariant
import YfsRpc.Rpc.Instances

/-! # Mutual exclusion

A thread holds a lock between the return of its acquire and its call of release.
No two threads hold a lock together, whatever the network does, as long as the
clients do not run out of xids: a reply to an old call is taken for that of a new
one with the same xid.
-/

namespace YfsRpc.LockService.LockSystem

open YfsRpc.Rpc
open LockProtocol (LockId)

variable {ι : Type} {nonce : ι → UInt32} {s : LockSystem ι}

/-- At most one thread of all clients holds a lock. -/
def MutuallyExclusive (s : LockSystem ι) : Prop :=
  ∀ lid c id c' id', lid ∈ (s.threads c id).holds → lid ∈ (s.threads c' id').holds →
    c = c' ∧ id = id'

/-- A thread that holds a lock has it. -/
theorem tokens_of_holds {c : ι} {id : Nat} {lid : LockId}
    (holds : lid ∈ (s.threads c id).holds) : s.tokens nonce c id lid ≠ 0 := by
  have positive := List.count_pos_iff.mpr holds
  unfold tokens ClientThread.tokens
  omega

/-- All threads that have a lock are the same. -/
theorem Locks.tokens_unique (locks : Locks nonce s) {lid : LockId} {c c' : ι} {id id' : Nat}
    (first : s.tokens nonce c id lid ≠ 0) (second : s.tokens nonce c' id' lid ≠ 0) :
    c = c' ∧ id = id' := by
  cases owner : s.rpc.server.service.lockedBy lid with
  | none => exact absurd (locks.free lid owner c id) first
  | some clt =>
      rcases locks.held lid clt owner with ⟨_, _, _, _, unique⟩
      rcases unique c id first with ⟨rfl, rfl⟩
      rcases unique c' id' second with ⟨rfl, rfl⟩
      exact ⟨rfl, rfl⟩

variable [DecidableEq ι] {srvNonce : Nat}

/-- No two threads hold a lock together in a run in which every client issues
fewer than 2^32 - 1 calls. -/
theorem mutually_exclusive (distinct : Function.Injective nonce) (nonzero : ∀ c, nonce c ≠ 0)
    (reachable : (machine nonce srvNonce).ReachableUnder FewCalls s) : MutuallyExclusive s := by
  have locks := (reachable_inv distinct nonzero reachable).2.locks
  intro lid c id c' id' first second
  have firstHas : s.tokens nonce c id lid ≠ 0 := tokens_of_holds first
  exact locks.tokens_unique firstHas (tokens_of_holds second)

/-! ## Runs of one client -/

instance (s : LockSystem ι) : ∀ action, Decidable (FewCalls s action)
  | .enter c _ _ => Nat.decLt ((s.rpc.clients c).issued.length + 1) (2 ^ 32 - 1)
  | .leave .. | .rpc _ => instDecidableTrue

instance (s : LockSystem ι) : ∀ action, Decidable (NoTimeout s action)
  | .leave c id =>
      match status : (s.threads c id).status with
      | .calling _ number =>
          decidable_of_iff (¬ (s.rpc.clients c).Waiting number) (by simp only [NoTimeout, status])
      | .idle | .aborted .. => .isTrue (by simp only [NoTimeout, status])
  | .enter .. | .rpc _ => instDecidableTrue

def lockConn : Conn Unit where
  client := ()
  serial := 0
  createTime := 0

/-- The request of a call that acknowledges the one before it. -/
def request (xid : Nat) (op : Op) : Request where
  xid := xid
  proc := op.proc
  cltNonce := 5
  srvNonce := if op = .bind then 0 else 9
  xidRep := xid - 1
  payload := op.payload 5

def reply (xid : Nat) (op : Op) (result : Int32) : Message Unit where
  dest := ()
  answer := {
    cause := request xid op
    reply := { xid, ret := 0, payload := Server.encodeInt result } }
  nonce := 9

end YfsRpc.LockService.LockSystem
