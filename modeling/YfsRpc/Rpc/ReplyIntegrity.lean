import YfsRpc.Rpc.AtMostOnce
import YfsRpc.Rpc.RawSystem

/-! # The integrity of replies

A call returns what the one execution of its request produced, unless the server sends a
reply from a block that it has freed meanwhile.
-/

namespace YfsRpc.Rpc.RawSystem

variable {ι σ Local : Type}

/-- A call that returned a result was executed once, for the request it packed, and it
returned what this execution produced. -/
def ReturnsExecuted (nonce : ι → Nat) (s : RawSystem ι σ Local) : Prop :=
  ∀ c, ∀ ret ∈ (s.clients c).returned, 0 ≤ ret.ret →
    ret.req ∈ (s.clients c).issued ∧ ret.req.cltNonce = nonce c ∧
      (s.server.begun.filter fun r => r.key = ret.req.key) = [ret.req] ∧
      (s.server.finished.filter fun ex => ex.req.key = ret.req.key) =
        [{ req := ret.req, ret := ret.ret, payload := ret.payload }]

variable [DecidableEq ι] {nonce : ι → Nat} {service : Service σ Local} {srvNonce : Nat}
  {s : RawSystem ι σ Local}

theorem returns_executed (distinct : Function.Injective nonce) (nonzero : ∀ c, nonce c ≠ 0)
    (reachable : (machine nonce service srvNonce).ReachableUnder Careful s) :
    s.ReturnsExecuted nonce := by
  intro c ret returned valid
  exact System.returned_executed_once distinct nonzero (reachable_view reachable).2 returned valid

/-! ## Runs of two clients -/

open YfsRpc.Rpc.System (echo)

/-- Two clients that call an instance of the server. -/
def echoNonce (c : Bool) : Nat := if c then 6 else 5

def echoTwo : Machine (RawSystem Bool Unit (List UInt8)) (System.Action Bool × Nat) :=
  machine echoNonce echo 9

def connOf (c : Bool) : Conn Bool where
  client := c
  serial := 0
  createTime := 0

/-- The calls of a client are `bind` and then calls of `echo`, each of four bytes. -/
def requestOf (c : Bool) (xid xidRep : Nat) : Request where
  xid := xid
  proc := if xid = 1 then RpcConst.bind else 7
  cltNonce := echoNonce c
  srvNonce := if xid = 1 then 0 else 9
  xidRep := xidRep
  payload := [0, 0, if c then 1 else 0, UInt8.ofNat (xid - 1)]

/-- The request of a call arrives, and a thread goes some steps for it. -/
def arrive (c : Bool) (xid xidRep id steps block : Nat) : List (System.Action Bool × Nat) :=
  (.gotRequest id (connOf c) (requestOf c xid xidRep), 0) ::
    List.replicate steps (.dispatch id 0 false, block)

def payloadOf (c : Bool) (xid : Nat) : List UInt8 :=
  if xid = 1 then [0, 0, 0, 9] else (requestOf c xid 0).payload

/-- The call returns with a reply. -/
def receive (c : Bool) (xid : Nat) (m : Message Bool) : List (System.Action Bool × Nat) :=
  [(.gotReply c m, 0), (.finish c xid, 0)] ++
    if xid = 1 then
      [(.bind c { req := requestOf c 1 0, ret := 0, payload := payloadOf c 1 }, 0)]
    else
      []

def replyTo (c : Bool) (xid xidRep : Nat) : Message Bool where
  dest := c
  answer := {
    cause := requestOf c xid xidRep
    reply := { xid, ret := 0, payload := payloadOf c xid } }
  nonce := 9

/-- A call is made, and its request is sent. -/
def enter (c : Bool) (xid : Nat) : List (System.Action Bool × Nat) :=
  [(.call c (requestOf c xid 0).proc (requestOf c xid 0).payload, 0), (.transmit c xid 0 0, 0)]

/-- A call that is answered at once from the given block. -/
def callOnce (c : Bool) (xid xidRep block : Nat) : List (System.Action Bool × Nat) :=
  enter c xid ++ arrive c xid xidRep 0 7 block ++ receive c xid (replyTo c xid xidRep)

/-- The third call frees the reply to the first, and takes its block. -/
def blockReused : List (System.Action Bool × Nat) :=
  callOnce false 1 0 0 ++ callOnce false 2 1 1 ++ callOnce false 3 2 0

theorem returns_executed_blockReused :
    ∃ s, echoTwo.ReachableUnder Careful s ∧ (s.clients false).returned.length = 3 ∧
      s.ReturnsExecuted echoNonce := by
  have run : ((echoTwo.restrict Careful).run echoTwo.initial blockReused).map
      (fun s => (s.clients false).returned.length) = some 3 := by decide +kernel
  rcases Option.map_eq_some_iff.mp run with ⟨s, taken, three⟩
  have reachable := Machine.reachableUnder_of_run taken
  exact ⟨s, reachable, three, returns_executed (by decide) (by decide) reachable⟩

/-- A duplicate of the first request is found done and its reply is about to be sent, while
the third call of the same client frees that reply and waits in the handler. The third reply
to the other client gets the block, and is what is sent. -/
def replyReplaced : List (System.Action Bool × Nat) :=
  callOnce false 1 0 0 ++ callOnce false 2 1 1 ++ arrive false 1 0 1 3 0 ++
    enter false 3 ++ arrive false 3 2 2 3 0 ++
    callOnce true 1 0 2 ++ callOnce true 2 1 3 ++ callOnce true 3 2 0 ++
    [(.dispatch 1 0 false, 0)] ++ receive false 3 { replyTo true 3 2 with dest := false }

theorem replyReplaced_not_executed :
    ∃ s, echoTwo.ReachableUnder FewCalls s ∧ ¬ s.ReturnsExecuted echoNonce := by
  have run : ((echoTwo.restrict FewCalls).run echoTwo.initial replyReplaced).map
      (fun s => (decide ({ req := requestOf false 3 2, ret := 0, payload := [0, 0, 1, 2] } ∈
        (s.clients false).returned), s.server.finished.filter fun ex => ex.req.key = (5, 3))) =
        some (true, []) := by decide +kernel
  rcases Option.map_eq_some_iff.mp run with ⟨s, taken, result⟩
  rw [Prod.mk.injEq, decide_eq_true_eq] at result
  refine ⟨s, Machine.reachableUnder_of_run taken, fun executed => ?_⟩
  have once := (executed false _ result.1 (Int.le_refl 0)).2.2.2
  exact List.cons_ne_nil _ _ (once.symm.trans result.2)

end YfsRpc.Rpc.RawSystem
