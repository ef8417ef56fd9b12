import YfsRpc.Rpc.RoundTrip
import YfsRpc.Rpc.AtMostOnce

/-! # Server instances that replace each other

An instance of the server is destroyed with everything it remembers, and another
one with another nonce takes its address. The messages under way stay, and so do
the clients, which may be bound to an instance that is gone.
-/

namespace YfsRpc.Rpc

/-- The clients, the network and the current instance, and the nonces of the
instances before it. -/
structure Instances (ι σ Local : Type) where
  system : System ι σ Local
  past : List Nat := []

namespace Instances

variable {ι σ Local : Type}

inductive Action (ι σ : Type)
  | run (action : System.Action ι)
  /-- an instance starts with what `random` draws and with its own services -/
  | restart (nonce : Nat) (service : σ)

def step [DecidableEq ι] (nonce : ι → Nat) (service : Service σ Local)
    (s : Instances ι σ Local) : Action ι σ → Option (Instances ι σ Local)
  | .run action => (s.system.step nonce service action).map fun system => { s with system }
  | .restart srvNonce state =>
      if srvNonce < 2 ^ 31 ∧ srvNonce ≠ s.system.server.nonce ∧ srvNonce ∉ s.past then
        some {
          system := { s.system with server := { nonce := srvNonce, service := state } }
          past := s.system.server.nonce :: s.past }
      else
        none

def machine [DecidableEq ι] (nonce : ι → Nat) (service : Service σ Local) (srvNonce : Nat) :
    Machine (Instances ι σ Local) (Action ι σ) where
  initial := { system := (System.machine nonce service srvNonce).initial }
  step := step nonce service

end Instances

namespace System

variable {ι σ Local : Type}

/-- A `bind` with this xid was answered with this payload. -/
def Answered (s : System ι σ Local) (c : ι) (xid : Nat) (payload : List UInt8) : Prop :=
  ∃ m ∈ s.replies, m.dest = c ∧ m.answer.cause.proc = RpcConst.bind ∧
    m.answer.reply = { xid, ret := 0, payload }

/-- A call of `bind` returned 0 at the client, with a reply that the instance sent. -/
def BoundTo (s : System ι σ Local) (c : ι) (srvNonce : Nat) : Prop :=
  ∃ m ∈ s.replies, m.dest = c ∧ m.nonce = srvNonce ∧ m.answer.cause.proc = RpcConst.bind ∧
    ∃ ret ∈ (s.clients c).returned, ret.req.proc = RpcConst.bind ∧ ret.ret = 0 ∧
      m.answer.reply = { xid := ret.req.xid, ret := 0, payload := ret.payload }

/-- What the current instance executed, `bind` apart, was issued by clients, and
each of them had bound to this instance when it packed the request. -/
def Isolated (s : System ι σ Local) : Prop :=
  ∀ r ∈ s.server.begun, r.proc ≠ RpcConst.bind →
    (∃ c, r ∈ (s.clients c).issued) ∧
      ∀ c, r ∈ (s.clients c).issued → r.srvNonce = s.server.nonce ∧ s.BoundTo c s.server.nonce

end System

/-! ## The reply to `bind` -/

/-- The reply of a `bind` names the instance that made it. -/
structure Names (srvNonce : Nat) (a : Answer) : Prop where
  xid : a.reply.xid = a.cause.xid
  bind : a.cause.proc = RpcConst.bind → a.reply.ret = 0 →
    a.reply.payload = Server.encodeInt (UInt32.ofNat srvNonce).toInt32

theorem refuse_names (srvNonce : Nat) (req : Request) {ret : Int} (failure : ret ≠ 0) :
    Names srvNonce (Server.refuse req ret) :=
  ⟨rfl, fun _ success => absurd success failure⟩

theorem rpcbind_names (srvNonce : Nat) (req : Request) :
    Names srvNonce {
      cause := req
      reply := {
        xid := req.xid
        ret := (Server.rpcbind srvNonce req.payload).1
        payload := (Server.rpcbind srvNonce req.payload).2 } } := by
  refine ⟨rfl, fun _ success => ?_⟩
  cases decoded : Client.decodeInt req.payload with
  | none =>
      simp only [Server.rpcbind, decoded] at success
      exact absurd success (by decide)
  | some a => simp only [Server.rpcbind, decoded]

/-- What `bind` decodes is what the handler of `bind` encoded. -/
theorem decodeInt_encodeInt (x : Int32) : Client.decodeInt (Server.encodeInt x) = some x := by
  rcases (Unmarshall.getInt_reads x).takeContent (fun _ => 0)
    (by rw [Words.length_bytes32]; decide) with ⟨after, done, ended⟩
  unfold Client.decodeInt
  rw [show Server.encodeInt x = Words.bytes32 x.toUInt32 from rfl, done]
  exact if_pos ended

/-! ## The clients -/

namespace Client

/-- `answered` says which replies to `bind` were sent to the client, and `bound`
to which instances its calls of `bind` have bound it. -/
structure Traced (nonce : Nat) (answered : Nat → List UInt8 → Prop) (bound : Nat → Prop)
    (cl : Client) : Prop where
  nonce : ∀ r ∈ cl.issued, r.cltNonce = nonce
  unbound : cl.bindDone = false → ∀ r ∈ cl.issued, r.proc = RpcConst.bind
  current : cl.bindDone = true → bound cl.srvNonce
  packed : ∀ r ∈ cl.issued, r.proc ≠ RpcConst.bind → bound r.srvNonce
  callers : ∀ number ca, cl.callers number = some ca → ca.req ∈ cl.issued ∧
    (ca.done = true → ca.req.proc = RpcConst.bind → ca.intret = 0 → answered ca.req.xid ca.un)
  calls : ∀ x number, cl.calls[x]? = some number → number ≤ cl.issued.length ∧
    ∀ ca, cl.callers number = some ca → ca.req.xid = x ∧
      (ca.req.proc = RpcConst.bind → ∀ r ∈ cl.issued, r.xid = x → r.proc = RpcConst.bind)
  returned : ∀ ret ∈ cl.returned, ret.req.proc = RpcConst.bind → ret.ret = 0 →
    answered ret.req.xid ret.payload

variable {nonce : Nat} {answered : Nat → List UInt8 → Prop} {bound : Nat → Prop}
  {cl next : Client}

theorem initial_traced : Traced nonce answered bound {} where
  nonce := nofun
  unbound := nofun
  current := nofun
  packed := nofun
  callers := nofun
  calls := by
    intro x number found
    have none : (Std.ExtTreeMap.empty : Calls)[x]? = none := Std.ExtTreeMap.getElem?_empty
    exact absurd (none.symm.trans found) nofun
  returned := nofun

theorem Traced.mono {answeredNow : Nat → List UInt8 → Prop} {boundNow : Nat → Prop}
    (traced : Traced nonce answered bound cl)
    (answers : ∀ xid payload, answered xid payload → answeredNow xid payload)
    (binds : ∀ srvNonce, bound srvNonce → boundNow srvNonce) :
    Traced nonce answeredNow boundNow cl where
  nonce := traced.nonce
  unbound := traced.unbound
  current := fun done => binds _ (traced.current done)
  packed := fun r member other => binds _ (traced.packed r member other)
  callers := by
    intro number ca current
    rcases traced.callers number ca current with ⟨issued, result⟩
    exact ⟨issued, fun done bind success => answers _ _ (result done bind success)⟩
  calls := traced.calls
  returned := fun ret member bind success => answers _ _ (traced.returned ret member bind success)

theorem Traced.call1 (traced : Traced nonce answered bound cl) {proc : Nat} {payload : List UInt8}
    (done : cl.call1 nonce proc payload = some next) : Traced nonce answered bound next := by
  rcases call1_eq done with ⟨admitted, _, rfl⟩
  generalize packed : cl.pack nonce proc payload = h
  have hProc : h.proc = proc := by rw [← packed]; rfl
  have hNonce : h.cltNonce = nonce := by rw [← packed]; rfl
  have hSrv : h.srvNonce = cl.srvNonce := by rw [← packed]; rfl
  rw [← hProc] at admitted
  refine ⟨?_, ?_, traced.current, ?_, ?_, ?_, traced.returned⟩
  · intro r member
    rcases List.mem_append.mp member with old | new
    · exact traced.nonce r old
    · rw [List.mem_singleton.mp new]
      exact hNonce
  · intro unbound r member
    rcases List.mem_append.mp member with old | new
    · exact traced.unbound unbound r old
    · rw [List.mem_singleton.mp new]
      exact admitted.mpr unbound
  · intro r member other
    rcases List.mem_append.mp member with old | new
    · exact traced.packed r old other
    · rw [List.mem_singleton.mp new] at other ⊢
      rw [hSrv]
      exact traced.current (bindDone_of_admitted admitted other)
  · intro number ca current
    by_cases same : number = cl.issued.length + 1
    · subst same
      rw [callers_register_self] at current
      cases current
      exact ⟨List.mem_append_right _ (List.mem_singleton_self h), nofun⟩
    · rw [callers_register_of_ne h same] at current
      rcases traced.callers number ca current with ⟨issued, result⟩
      exact ⟨List.mem_append_left _ issued, result⟩
  · intro x number found
    rw [issued_register, List.length_append]
    rw [calls_register] at found
    split at found
    · next same =>
        cases found
        refine ⟨Nat.le_refl _, ?_⟩
        intro ca current
        rw [callers_register_self] at current
        cases current
        refine ⟨same, fun bind r member _ => ?_⟩
        rcases List.mem_append.mp member with old | new
        · exact traced.unbound (admitted.mp bind) r old
        · rw [List.mem_singleton.mp new]
          exact bind
    · next other =>
        rcases traced.calls x number found with ⟨limit, named⟩
        refine ⟨Nat.le_trans limit (Nat.le_add_right _ _), ?_⟩
        intro ca current
        rw [callers_register_of_ne h (by omega)] at current
        rcases named ca current with ⟨xid, binds⟩
        refine ⟨xid, fun bind r member same => ?_⟩
        rcases List.mem_append.mp member with old | new
        · exact binds bind r old same
        · rw [List.mem_singleton.mp new] at same
          exact absurd same other

/-- Only results of caller objects change. -/
theorem Traced.callers_update (traced : Traced nonce answered bound cl)
    {callers : Nat → Option Caller} {window : List Nat} {destroyWait : Bool}
    (kept : ∀ number ca, callers number = some ca → ∃ before, cl.callers number = some before ∧
      ca.req = before.req ∧ (ca.done = true → ca.req.proc = RpcConst.bind → ca.intret = 0 →
        answered ca.req.xid ca.un)) :
    Traced nonce answered bound { cl with callers, xidRepWindow := window, destroyWait } where
  nonce := traced.nonce
  unbound := traced.unbound
  current := traced.current
  packed := traced.packed
  callers := by
    intro number ca current
    rcases kept number ca current with ⟨before, was, req, result⟩
    rw [req]
    rw [req] at result
    exact ⟨(traced.callers number before was).1, result⟩
  calls := by
    intro x number found
    rcases traced.calls x number found with ⟨limit, named⟩
    refine ⟨limit, fun ca current => ?_⟩
    rcases kept number ca current with ⟨before, was, req, _⟩
    rw [req]
    exact named before was
  returned := traced.returned

theorem Traced.gotPdu (traced : Traced nonce answered bound cl) {reply : Reply} {cause : Request}
    (issued : cause ∈ cl.issued) (xid : reply.xid = cause.xid)
    (answer : cause.proc = RpcConst.bind → reply.ret = 0 → answered reply.xid reply.payload) :
    Traced nonce answered bound (cl.gotPdu reply) := by
  have unchanged (window : List Nat) :
      Traced nonce answered bound { cl with xidRepWindow := window } := by
    apply traced.callers_update
    intro number ca current
    exact ⟨ca, current, rfl, (traced.callers number ca current).2⟩
  simp only [Client.gotPdu]
  split
  · exact unchanged _
  · next number found =>
      split
      · exact unchanged _
      · next ca current =>
          split
          · exact unchanged _
          · apply traced.callers_update
            intro other after now
            rcases slot_filled now with ⟨rfl, rfl⟩ | ⟨_, before⟩
            · rcases (traced.calls _ _ found).2 ca current with ⟨same, binds⟩
              refine ⟨ca, current, rfl, fun _ bind success => ?_⟩
              change answered ca.req.xid reply.payload
              rw [same]
              exact answer (binds bind cause issued xid.symm) success
            · exact ⟨after, before, rfl, (traced.callers other after before).2⟩

theorem Traced.finish (traced : Traced nonce answered bound cl) {number : Nat}
    (done : cl.finish number = some next) : Traced nonce answered bound next := by
  unfold Client.finish at done
  split at done
  · contradiction
  · next ca current =>
      cases done
      refine ⟨traced.nonce, traced.unbound, traced.current, traced.packed, ?_, ?_, ?_⟩
      · intro other after found
        exact traced.callers other after (slot_emptied found).2
      · intro x other found
        have found := (getElem?_erase_calls cl.calls ca.xid x).symm.trans found
        split at found
        · contradiction
        · rcases traced.calls x other found with ⟨limit, named⟩
          exact ⟨limit, fun after now => named after (slot_emptied now).2⟩
      · intro ret member bind success
        rcases List.mem_append.mp member with old | new
        · exact traced.returned ret old bind success
        · cases List.mem_singleton.mp new
          cases pending : ca.done with
          | true =>
              simp only [pending, if_true] at success
              exact (traced.callers number ca current).2 pending bind success
          | false =>
              rw [pending] at success
              exact absurd success (show ¬ (-1 : Int) = 0 by decide)

theorem Traced.bind (traced : Traced nonce answered bound cl) {srvNonce : Nat}
    (isBound : bound srvNonce) :
    Traced nonce answered bound { cl with bindDone := true, srvNonce } where
  nonce := traced.nonce
  unbound := nofun
  current := fun _ => isBound
  packed := traced.packed
  callers := traced.callers
  calls := traced.calls
  returned := traced.returned

theorem Traced.cancel (traced : Traced nonce answered bound cl) :
    Traced nonce answered bound cl.cancel := by
  apply traced.callers_update
  intro number after found
  rcases callers_cancel found with ⟨ca, current, rfl | rfl⟩
  · exact ⟨after, current, rfl, (traced.callers number after current).2⟩
  · exact ⟨ca, current, rfl, fun _ _ success => absurd success (show ¬ (-7 : Int) = 0 by decide)⟩

end Client

end YfsRpc.Rpc
