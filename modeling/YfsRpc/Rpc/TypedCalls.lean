import YfsRpc.Rpc.Handlers
import YfsRpc.Rpc.Linearizability
import YfsRpc.Rpc.Overwrite
import YfsRpc.Rpc.PduSize

/-! # Typed calls

`rpcc::call` marshals its arguments and unmarshals the result, and `rpcs::reg` wraps
a method into a handler that does the reverse. What a call returns to its caller is then
what the method returned, called once with the arguments of the caller.
-/

namespace YfsRpc.Rpc

/-! ## The client -/

/-- `get_content`, and `str`: what was marshalled behind the header. -/
def Marshall.getContent (m : Marshall) : List UInt8 :=
  m.buf.read rpcHeaderSz (m.ind - rpcHeaderSz)

/-- The arguments of `call`, marshalled for `call1`. -/
def Client.packArgs (values : List Datum) : Option (List UInt8) :=
  (putAll values (Marshall.new fun _ => 0)).map Marshall.getContent

/-- `call_m` when `call1` has returned; `r` is the variable of the caller. -/
def Return.callM (ret : Return) (R : Ty) (r : R.Val) : Int × R.Val :=
  YfsRpc.Rpc.callM R ret.ret (.takeContent (fun _ => 0) ret.payload) r

/-! ## The server -/

/-- `procs_`: the handlers by their procedure numbers. -/
abbrev Procs (σ : Type) := Nat → Option (Handler σ)

/-- `reg1`, which asserts that the number is free. -/
def reg1 {σ : Type} (proc : Nat) (h : Handler σ) (procs : Procs σ) : Option (Procs σ) :=
  match procs proc with
  | some _ => none
  | none => some (Function.update procs proc (some h))

/-- The registered handlers of a server object. There is no result where marshalling aborts. -/
def handlerService {σ : Type} (initial : σ) (procs : Procs σ) : Service σ (Nat × List UInt8) where
  initial := initial
  registered proc := (procs proc).isSome
  invoke proc payload := (proc, payload)
  resume sob l _ :=
    (procs l.1).bind fun h =>
      let run := h.fn (.takeContent (fun _ => 0) l.2) (Marshall.new fun _ => 0) sob
      run.ret.map fun rep => (run.sob, .inr (run.b, rep.getContent))

theorem handlerService_atomic {σ : Type} (initial : σ) (procs : Procs σ) :
    (handlerService initial procs).Atomic := by
  intro sob l choice next later resumed
  rcases Option.bind_eq_some_iff.mp resumed with ⟨h, _, ran⟩
  rcases Option.map_eq_some_iff.mp ran with ⟨_, _, same⟩
  cases same

/-! ## Marshalling both ways -/

/-- What was marshalled into a fresh buffer is its content. -/
theorem getContent_putAll {values : List Datum} {junk : Nat → UInt8} {m : Marshall}
    (done : putAll values (Marshall.new junk) = some m) (small : pduSize values < 2 ^ 31) :
    m.getContent = encodeAll values := by
  rcases putAll_appended done (Marshall.new_valid junk)
    (show defaultRpcSz < 2 ^ 31 by decide) small with ⟨appended, _⟩
  have ind : m.ind = rpcHeaderSz + (encodeAll values).length := appended.ind
  rw [Marshall.getContent, ind, Nat.add_sub_cancel_left]
  exact appended.content

theorem getContent_put {R : Ty} {r : R.Val} {junk : Nat → UInt8} {m : Marshall}
    (done : R.put r (Marshall.new junk) = some m) (small : pduSize [⟨R, r⟩] < 2 ^ 31) :
    m.getContent = R.encode r := by
  have single : putAll [⟨R, r⟩] (Marshall.new junk) = some m := by
    simp [putAll, Marshall.putEach, done]
  rw [getContent_putAll single small]
  exact List.append_nil _

/-- What a call packs is the encoding of its arguments. -/
theorem Client.packArgs_eq {values : List Datum} {payload : List UInt8}
    (packed : Client.packArgs values = some payload) (small : pduSize values < 2 ^ 31) :
    payload = encodeAll values := by
  rcases Option.map_eq_some_iff.mp packed with ⟨m, done, rfl⟩
  exact getContent_putAll done small

/-- The result of the method comes back, behind what a vector of the caller holds. -/
theorem Return.callM_encode {R : Ty} {req : Request} {b : Int} {r : R.Val} (valid : 0 ≤ b)
    (small : pduSize [⟨R, r⟩] < 2 ^ 31) (old : R.Val) :
    Return.callM { req, ret := b, payload := R.encode r } R old = (b, R.keep old r) := by
  have size : rpcHeaderSz + (R.encode r).length < 2 ^ 31 := by
    have same : encodeAll [⟨R, r⟩] = R.encode r := List.append_nil _
    rw [pduSize, same] at small
    exact small
  rcases (R.get_reads r).takeContent (fun _ => 0) size with ⟨after, decoded, done⟩
  have state : (R.get old (.takeContent (fun _ => 0) (R.encode r))).2 = after := by
    rw [R.get_state old R.default, decoded]
  have ok : after.ok = true := by
    unfold Unmarshall.okdone at done
    exact (Bool.and_eq_true_iff.mp done).1
  have value := R.get_keep old (.takeContent (fun _ => 0) (R.encode r)) (state ▸ ok)
  rw [decoded] at value
  unfold Return.callM YfsRpc.Rpc.callM
  rw [if_neg (Int.not_lt.mpr valid), state, done, value]
  rfl

/-- The handler calls its method with the arguments that were packed. -/
theorem Handler.fn_packed {σ : Type} (h : Handler σ) {values : List Datum}
    (types : values.map Sigma.fst = h.args) (small : pduSize values < 2 ^ 31) (rep : Marshall)
    (sob : σ) :
    (h.fn (.takeContent (fun _ => 0) (encodeAll values)) rep sob).b =
        (h.meth values h.ret.default sob).1 ∧
      (h.fn (.takeContent (fun _ => 0) (encodeAll values)) rep sob).ret =
        h.ret.put (h.meth values h.ret.default sob).2.1 rep ∧
      (h.fn (.takeContent (fun _ => 0) (encodeAll values)) rep sob).sob =
        (h.meth values h.ret.default sob).2.2 := by
  have targets : h.targets = defaultTargets values := by
    unfold Handler.targets defaultTargets
    rw [← types, List.map_map]
    rfl
  rcases (getAll_reads values).takeContent (fun _ => 0) small with ⟨after, decoded, done⟩
  rw [← targets] at decoded
  simp only [Handler.fn, decoded, done, Bool.not_true, Bool.false_eq_true, if_false, and_self]

/-! ## What the service does for a call -/

variable {σ : Type} {initial : σ} {procs : Procs σ}

/-- A handler of the service is where it was invoked. -/
theorem handlerService_stage {start l : Nat × List UInt8}
    (stage : (handlerService initial procs).Stage start l) : l = start := by
  cases stage with
  | start => rfl
  | paused _ resumed =>
      rcases Option.bind_eq_some_iff.mp resumed with ⟨h, _, ran⟩
      rcases Option.map_eq_some_iff.mp ran with ⟨_, _, same⟩
      cases same

/-- The object calls the method and returns what it returned. The values that were packed
need not have the types of the parameters, only the same bytes. -/
theorem handlerService_effect {srvNonce proc : Nat} {h : Handler σ} {values args : List Datum}
    {payload out : List UInt8} {state next : σ} {b : Int} (registered : procs proc = some h)
    (other : proc ≠ RpcConst.bind) (types : args.map Sigma.fst = h.args)
    (bytes : encodeAll values = encodeAll args)
    (packed : Client.packArgs values = some payload) (small : pduSize values < 2 ^ 31)
    (effect : ((handlerService initial procs).object srvNonce).effect state (proc, payload)
      (b, out) next) :
    ∃ r, h.meth args h.ret.default state = (b, r, next) ∧
      (pduSize [⟨h.ret, r⟩] < 2 ^ 31 → out = h.ret.encode r) := by
  have small' : pduSize args < 2 ^ 31 := by
    rw [pduSize, ← bytes]
    exact small
  simp only [Service.object, if_neg other] at effect
  rcases effect with ⟨l, choice, stage, resumed⟩
  rw [handlerService_stage stage, Client.packArgs_eq packed small, bytes] at resumed
  rcases Option.bind_eq_some_iff.mp resumed with ⟨h', found, ran⟩
  have same : h = h' := Option.some.inj (registered.symm.trans found)
  subst same
  rcases Option.map_eq_some_iff.mp ran with ⟨rep, marshalled, results⟩
  rcases h.fn_packed types small' (Marshall.new fun _ => 0) state with ⟨isB, isRet, isSob⟩
  change (h.fn (.takeContent (fun _ => 0) (encodeAll args)) _ state).ret = some rep at marshalled
  change ((h.fn (.takeContent (fun _ => 0) (encodeAll args)) (Marshall.new fun _ => 0) state).sob,
    Sum.inr ((h.fn (.takeContent (fun _ => 0) (encodeAll args)) (Marshall.new fun _ => 0)
      state).b, rep.getContent)) = _ at results
  rw [isRet] at marshalled
  rw [isSob, isB] at results
  cases results
  exact ⟨_, rfl, getContent_put marshalled⟩

namespace RawSystem

variable {ι : Type} [DecidableEq ι] {nonce : ι → Nat} {srvNonce : Nat}
  {s : RawSystem ι σ (Nat × List UInt8)}

/-- `handle_22`: `r = a + b`. -/
def handle22 : Handler Unit where
  args := [.string, .string]
  ret := .string
  meth := fun values r _ =>
    match values with
    | [⟨.string, a⟩, ⟨.string, b⟩] => (0, List.append a b, ())
    | _ => (0, r, ())
  one_le := by decide
  le_seven := by decide

/-- `handle_slow`: `r = a + 2`, after a while. -/
def handleSlow : Handler Unit where
  args := [.int]
  ret := .int
  meth := fun values r _ =>
    match values with
    | [⟨.int, a⟩] => (0, Int32.add a 2, ())
    | _ => (0, r, ())
  one_le := handleFast.one_le
  le_seven := handleFast.le_seven

/-- `startserver`, but for `handle_bigrep`, which throws when its argument is negative. -/
def startserver : Procs Unit :=
  ((reg1 22 handle22 fun _ => none).bind fun procs =>
    (reg1 23 handleFast procs).bind (reg1 24 handleSlow)).getD fun _ => none

def testMachine : Machine (RawSystem Unit Unit (Nat × List UInt8)) (System.Action Unit × Nat) :=
  machine (fun _ => 5) (handlerService () startserver) 9

open YfsRpc.Rpc.System (echoConn bindRequest bindReply)

/-- The request of `c->call(23, 77u, xx)`. -/
def callRequest : Request where
  xid := 2
  proc := 23
  cltNonce := 5
  srvNonce := 9
  xidRep := 1
  payload := [0, 0, 0, 77]

def callReply : Message Unit where
  dest := ()
  answer := {
    cause := callRequest
    reply := { xid := 2, ret := 0, payload := [0, 0, 0, 78] } }
  nonce := 9

/-- The client is bound, and calls the procedure 23. -/
def callUnsigned : List (System.Action Unit × Nat) :=
  [(.call () RpcConst.bind [0, 0, 0, 0], 0), (.transmit () 1 0 0, 0),
    (.gotRequest 0 echoConn bindRequest, 0)] ++ List.replicate 7 (.dispatch 0 0 false, 0) ++
  [(.gotReply () bindReply, 0), (.finish () 1, 0),
    (.bind () { req := bindRequest, ret := 0, payload := [0, 0, 0, 9] }, 0),
    (.call () 23 [0, 0, 0, 77], 0), (.transmit () 2 0 0, 0),
    (.gotRequest 3 echoConn callRequest, 0)] ++ List.replicate 7 (.dispatch 3 0 false, 1) ++
  [(.gotReply () callReply, 0), (.finish () 2, 0)]

end RawSystem

end YfsRpc.Rpc
