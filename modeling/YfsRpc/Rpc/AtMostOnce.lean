import YfsRpc.Rpc.SystemInvariant
import Mathlib.Data.List.Nodup

/-! # At-most-once execution and reply integrity

Whatever the network does, the server calls the handler at most once for each
call of a client, and a call that returns a result returns that of this one
execution.
-/

namespace YfsRpc.Rpc

/-- In a list whose keys are distinct, only the element itself has its key. -/
theorem filter_key_eq {α β : Type} [DecidableEq β] {key : α → β} {list : List α} {x : α}
    (distinct : (list.map key).Nodup) (member : x ∈ list) :
    (list.filter fun y => key y = key x) = [x] := by
  induction list with
  | nil => contradiction
  | cons y rest induction =>
      rw [List.map_cons, List.nodup_cons] at distinct
      rcases List.mem_cons.mp member with rfl | later
      · rw [List.filter_cons_of_pos (by simp), List.filter_eq_nil_iff.mpr]
        intro z found same
        rw [← of_decide_eq_true same] at distinct
        exact distinct.1 (List.mem_map_of_mem found)
      · rw [List.filter_cons_of_neg, induction distinct.2 later]
        intro same
        rw [of_decide_eq_true same] at distinct
        exact distinct.1 (List.mem_map_of_mem later)

namespace System

variable {ι σ Local : Type} {nonce : ι → Nat} {service : Service σ Local} {srvNonce : Nat}
  {s : System ι σ Local}

/-- No two executions are for the same key. -/
theorem Inv.finished_keys (inv : Inv nonce s) :
    ((s.server.finished.map Execution.req).map Request.key).Nodup := by
  have history := inv.server.history
  have begun : ∀ r ∈ s.server.finished.map Execution.req, r ∈ s.server.begun := by
    intro r member
    rcases List.mem_map.mp member with ⟨ex, executed, rfl⟩
    exact history.returned ex executed
  have keys : (s.server.begun.map Request.key).Nodup := by
    rw [history.keys]
    exact history.news_nodup
  apply (List.nodup_map_iff_inj_on history.once).mpr
  intro r left r' right same
  exact List.inj_on_of_nodup_map keys (begun r left) (begun r' right) same

variable [DecidableEq ι]

/-- A service whose one procedure returns its payload. -/
def echo : Service Unit (List UInt8) where
  initial := ()
  registered proc := proc = 7
  invoke _ payload := payload
  resume _ payload _ := some ((), .inr (0, payload))

/-- One client that calls an instance of the server. -/
def echoMachine : Machine (System Unit Unit (List UInt8)) (Action Unit) :=
  machine (fun _ => 5) echo 9

def echoConn : Conn Unit where
  client := ()
  serial := 0
  createTime := 0

/-- The first request of the client. -/
def bindRequest : Request where
  xid := 1
  proc := RpcConst.bind
  cltNonce := 5
  srvNonce := 0
  xidRep := 0
  payload := [0, 0, 0, 0]

/-- The request of `bind` arrives twice, and the threads take turns. -/
def bindTwice : List (Action Unit) := [
  .call () RpcConst.bind [0, 0, 0, 0], .transmit () 1 0 0,
  .gotRequest 0 echoConn bindRequest, .gotRequest 1 echoConn bindRequest,
  .dispatch 0 0 false, .dispatch 1 0 false, .dispatch 0 0 false, .dispatch 1 0 false,
  .dispatch 0 0 false, .dispatch 1 0 false, .dispatch 0 0 false, .dispatch 0 0 false,
  .dispatch 0 0 false, .dispatch 0 0 false]

/-- A call that returns a result was executed once, for the request it packed,
and it returns what this execution produced. -/
theorem returned_executed_once (distinct : Function.Injective nonce) (nonzero : ∀ c, nonce c ≠ 0)
    (reachable : (machine nonce service srvNonce).ReachableUnder FewCalls s) {c : ι} {ret : Return}
    (returned : ret ∈ (s.clients c).returned) (valid : 0 ≤ ret.ret) :
    ret.req ∈ (s.clients c).issued ∧ ret.req.cltNonce = nonce c ∧
      (s.server.begun.filter fun r => r.key = ret.req.key) = [ret.req] ∧
      (s.server.finished.filter fun ex => ex.req.key = ret.req.key) =
        [{ req := ret.req, ret := ret.ret, payload := ret.payload }] := by
  have inv := reachable_inv distinct nonzero reachable
  have history := inv.server.history
  rcases (inv.clients c).returned ret returned with ⟨issued, result⟩
  have executed := result valid
  have begun := history.returned _ executed
  refine ⟨issued, (inv.clients c).nonce _ issued, ?_, ?_⟩
  · apply filter_key_eq _ begun
    rw [history.keys]
    exact history.news_nodup
  · have keys := inv.finished_keys
    rw [List.map_map] at keys
    exact filter_key_eq keys executed

/-- The reply of the server instance to `bind`. -/
def bindReply : Message Unit where
  dest := ()
  answer := {
    cause := bindRequest
    reply := { xid := 1, ret := 0, payload := [0, 0, 0, 9] } }
  nonce := 9

end System

end YfsRpc.Rpc
