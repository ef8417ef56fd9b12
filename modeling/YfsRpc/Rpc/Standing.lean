import YfsRpc.Rpc.Isolation

/-! # Calls that stand until their reply

Clients that bind first, do not cancel and let no call time out are considered here
without a bound on the number of their calls, so xids come back. What the server has
answered stays remembered in the reply window all the same, and a request is executed only
while the call it came from has no reply.
-/

namespace YfsRpc.Rpc

/-! ## The calls of a client -/

/-- What the reply to a call of `bind` says, which is the call with the xid 1. -/
def Introduces (srvNonce : Nat) (reply : Reply) : Prop :=
  reply.xid = 1 → reply.ret = 0 →
    reply.payload = Server.encodeInt (UInt32.ofNat srvNonce).toInt32

namespace Client

/-- `replied` says which xids were replied to: those of the calls that are done. -/
structure Numbered (nonce : Nat) (replied : Nat → Prop) (cl : Client) : Prop where
  nonce : ∀ r ∈ cl.issued, r.cltNonce = nonce
  xid : cl.xid = (cl.issued.length + 1) % 2 ^ 32
  acknowledged : ∀ r ∈ cl.issued, ∀ x, x ≠ 0 → x ≤ r.xidRep → replied x
  window : Acknowledges replied cl.xidRepWindow
  callers : ∀ number ca, cl.callers number = some ca →
    ca.req ∈ cl.issued ∧ ca.xid = ca.req.xid ∧ (ca.done = true → replied ca.xid)
  calls : ∀ x number, cl.calls[x]? = some number → number ≤ cl.issued.length ∧
    ∀ ca, cl.callers number = some ca → ca.req.xid = x
  standing : ∀ k r, cl.issued[k]? = some r → replied r.xid ∨
    ∃ ca, cl.callers (k + 1) = some ca ∧ ca.req = r

/-- The client is bound to no instance but this one. -/
structure Introduced (srvNonce : Nat) (replied : Nat → Prop) (cl : Client) : Prop where
  binds : ∀ r ∈ cl.issued, r.proc = RpcConst.bind → r.xid = 1 ∧ r.srvNonce = 0
  packed : ∀ r ∈ cl.issued, r.proc ≠ RpcConst.bind → replied 1 ∧ r.srvNonce = srvNonce
  unbound : cl.bindDone = false → cl.srvNonce = 0
  current : cl.bindDone = true → replied 1 ∧ cl.srvNonce = srvNonce
  callers : ∀ number ca, cl.callers number = some ca → ca.req.proc = RpcConst.bind →
    ca.done = true → ca.intret = 0 →
      ca.un = Server.encodeInt (UInt32.ofNat srvNonce).toInt32
  returned : ∀ ret ∈ cl.returned, ret.req.proc = RpcConst.bind → ret.ret = 0 →
    replied 1 ∧ ret.payload = Server.encodeInt (UInt32.ofNat srvNonce).toInt32

variable {replied now : Nat → Prop} {cl next : Client} {nonce srvNonce : Nat}

theorem initial_numbered : Numbered nonce replied {} where
  nonce _ member := nomatch member
  xid := rfl
  acknowledged _ member := nomatch member
  window := initial_acknowledges _
  callers _ _ current := nomatch current
  calls x _ found :=
    absurd ((Std.ExtTreeMap.getElem?_empty : (Std.ExtTreeMap.empty : Calls)[x]? = none).symm.trans
      found) nofun
  standing _ _ found := nomatch found

theorem initial_introduced : Introduced srvNonce replied {} where
  binds _ member := nomatch member
  packed _ member := nomatch member
  unbound _ := rfl
  current bound := nomatch bound
  callers _ _ current := nomatch current
  returned _ member := nomatch member

theorem Numbered.mono (numbered : Numbered nonce replied cl) (more : ∀ x, replied x → now x) :
    Numbered nonce now cl where
  nonce := numbered.nonce
  xid := numbered.xid
  acknowledged r member x nonzero below := more x (numbered.acknowledged r member x nonzero below)
  window := numbered.window.mono more
  callers number ca current := by
    rcases numbered.callers number ca current with ⟨issued, xid, answered⟩
    exact ⟨issued, xid, fun done => more _ (answered done)⟩
  calls := numbered.calls
  standing k r found := (numbered.standing k r found).imp_left (more _)

theorem Introduced.mono (introduced : Introduced srvNonce replied cl)
    (more : ∀ x, replied x → now x) : Introduced srvNonce now cl where
  binds := introduced.binds
  packed r member other := (introduced.packed r member other).imp_left (more 1)
  unbound := introduced.unbound
  current bound := (introduced.current bound).imp_left (more 1)
  callers := introduced.callers
  returned ret member bind success := (introduced.returned ret member bind success).imp_left (more 1)

/-! ### Entering a call -/

theorem Numbered.call1 (numbered : Numbered nonce replied cl) {proc : Nat} {payload : List UInt8}
    (done : cl.call1 nonce proc payload = some next) : Numbered nonce replied next := by
  rcases call1_eq done with ⟨_, _, rfl⟩
  generalize packed : cl.pack nonce proc payload = h
  have hNonce : h.cltNonce = nonce := by rw [← packed]; rfl
  have hRep : h.xidRep = cl.front := by rw [← packed]; rfl
  refine ⟨?_, ?_, ?_, numbered.window, ?_, ?_, ?_⟩
  · intro r member
    rcases List.mem_append.mp member with old | new
    · exact numbered.nonce r old
    · rw [List.mem_singleton.mp new]
      exact hNonce
  · change (cl.xid + 1) % 2 ^ 32 = _
    rw [numbered.xid, issued_register, List.length_append, List.length_singleton]
    omega
  · intro r member x nonzero below
    rcases List.mem_append.mp member with old | new
    · exact numbered.acknowledged r old x nonzero below
    · rw [List.mem_singleton.mp new, hRep] at below
      exact numbered.window.below x nonzero below
  · intro number ca current
    by_cases same : number = cl.issued.length + 1
    · subst same
      rw [callers_register_self] at current
      cases current
      exact ⟨List.mem_append_right _ (List.mem_singleton_self h), rfl, nofun⟩
    · rw [callers_register_of_ne h same] at current
      rcases numbered.callers number ca current with ⟨issued, rest⟩
      exact ⟨List.mem_append_left _ issued, rest⟩
  · intro x number found
    rw [issued_register, List.length_append, List.length_singleton]
    rw [calls_register] at found
    split at found
    · next same =>
        cases found
        refine ⟨Nat.le_refl _, fun ca current => ?_⟩
        rw [callers_register_self] at current
        cases current
        exact same
    · rcases numbered.calls x number found with ⟨limit, named⟩
      refine ⟨by omega, fun ca current => named ca ?_⟩
      rw [callers_register_of_ne h (by omega)] at current
      exact current
  · intro k r found
    rw [issued_register, List.getElem?_append] at found
    split at found
    · next old =>
        rw [callers_register_of_ne h (by omega)]
        exact numbered.standing k r found
    · next later =>
        have last : k = cl.issued.length := by
          have inside := (List.getElem?_eq_some_iff.mp found).1
          rw [List.length_singleton] at inside
          omega
        subst last
        rw [Nat.sub_self] at found
        cases found
        exact Or.inr ⟨_, callers_register_self _, rfl⟩

theorem Introduced.call1 (introduced : Introduced srvNonce replied cl)
    (numbered : Numbered nonce replied cl) {proc : Nat} {payload : List UInt8}
    (first : proc = RpcConst.bind → cl.issued = [])
    (done : cl.call1 nonce proc payload = some next) : Introduced srvNonce replied next := by
  rcases call1_eq done with ⟨admitted, _, rfl⟩
  generalize packed : cl.pack nonce proc payload = h
  have hXid : h.xid = (cl.issued.length + 1) % 2 ^ 32 := by
    rw [← packed]
    exact numbered.xid
  have hProc : h.proc = proc := by rw [← packed]; rfl
  have hSrv : h.srvNonce = cl.srvNonce := by rw [← packed]; rfl
  refine ⟨?_, ?_, introduced.unbound, introduced.current, ?_, introduced.returned⟩
  · intro r member bind
    rcases List.mem_append.mp member with old | new
    · exact introduced.binds r old bind
    · rw [List.mem_singleton.mp new] at bind ⊢
      rw [hProc] at bind
      rw [hXid, hSrv, first bind]
      exact ⟨rfl, introduced.unbound (admitted.mp bind)⟩
  · intro r member other
    rcases List.mem_append.mp member with old | new
    · exact introduced.packed r old other
    · rw [List.mem_singleton.mp new] at other ⊢
      rw [hProc] at other
      rw [hSrv]
      exact introduced.current (bindDone_of_admitted admitted other)
  · intro number ca current
    by_cases same : number = cl.issued.length + 1
    · subst same
      rw [callers_register_self] at current
      cases current
      exact nofun
    · rw [callers_register_of_ne h same] at current
      exact introduced.callers number ca current

/-! ### Replies -/

/-- `got_pdu` acknowledges the reply, and hands it to the registered call. -/
theorem gotPdu_outcome (cl : Client) (reply : Reply) :
    cl.gotPdu reply = { cl with xidRepWindow := updateXidRep cl.xidRepWindow reply.xid } ∨
    ∃ number ca, cl.calls[reply.xid]? = some number ∧ cl.callers number = some ca ∧
      cl.gotPdu reply = { cl with
        callers := Function.update cl.callers number
          (some { ca with un := reply.payload, intret := reply.ret, done := true })
        xidRepWindow := updateXidRep cl.xidRepWindow reply.xid } := by
  unfold gotPdu
  cases found : cl.calls[reply.xid]? with
  | none => exact Or.inl (by simp only [found])
  | some number =>
      cases current : cl.callers number with
      | none => exact Or.inl (by simp only [found, current])
      | some ca =>
          cases done : ca.done with
          | true => exact Or.inl (by simp only [found, current, done, if_true])
          | false =>
              right
              exact ⟨number, ca, rfl, current, by simp [found, current, done]⟩

theorem Numbered.gotPdu (numbered : Numbered nonce replied cl) {reply : Reply}
    (answered : replied reply.xid) : Numbered nonce replied (cl.gotPdu reply) := by
  have window := numbered.window.updateXidRep answered
  rcases gotPdu_outcome cl reply with same | ⟨number, ca, found, current, same⟩
  · rw [same]
    exact { numbered with window }
  · rw [same]
    rcases numbered.callers number ca current with ⟨issued, own, _⟩
    have xid := (numbered.calls _ number found).2 ca current
    refine { numbered with window, callers := ?_, calls := ?_, standing := ?_ }
    · intro other ca' now
      rcases slot_filled now with ⟨_, rfl⟩ | ⟨_, before⟩
      · exact ⟨issued, own, fun _ => (own.trans xid) ▸ answered⟩
      · exact numbered.callers other ca' before
    · intro x other registered
      rcases numbered.calls x other registered with ⟨limit, named⟩
      refine ⟨limit, fun ca' now => ?_⟩
      rcases slot_filled now with ⟨rfl, rfl⟩ | ⟨_, before⟩
      · exact named ca current
      · exact named ca' before
    · intro k r standing
      rcases numbered.standing k r standing with before | ⟨ca', was, req⟩
      · exact Or.inl before
      · right
        by_cases here : k + 1 = number
        · subst here
          cases current.symm.trans was
          exact ⟨_, Function.update_self _ _ _, req⟩
        · exact ⟨ca', (Function.update_of_ne here _ _).trans was, req⟩

theorem Introduced.gotPdu (introduced : Introduced srvNonce replied cl)
    (numbered : Numbered nonce replied cl) {reply : Reply} (introduces : Introduces srvNonce reply) :
    Introduced srvNonce replied (cl.gotPdu reply) := by
  rcases gotPdu_outcome cl reply with same | ⟨number, ca, found, current, same⟩
  · rw [same]
    exact { introduced with }
  · rw [same]
    refine { introduced with callers := ?_ }
    intro other ca' now bind done success
    rcases slot_filled now with ⟨_, rfl⟩ | ⟨_, before⟩
    · have issued := (numbered.callers number ca current).1
      have xid := (numbered.calls _ number found).2 ca current
      exact introduces (xid.symm.trans (introduced.binds ca.req issued bind).1) success
    · exact introduced.callers other ca' before bind done success

/-! ### Returns -/

/-- What returns from `call1` after its reply. -/
theorem finish_outcome {number : Nat} (settled : ¬ cl.Waiting number)
    (done : cl.finish number = some next) :
    ∃ ca, cl.callers number = some ca ∧ ca.done = true ∧
      next = { cl with
        callers := Function.update cl.callers number none
        calls := cl.calls.erase ca.xid
        xidRepWindow := updateXidRep cl.xidRepWindow ca.xid
        returned := cl.returned ++ [{ req := ca.req, ret := ca.intret, payload := ca.un }] } := by
  unfold finish at done
  split at done
  · contradiction
  · next ca current =>
      have isDone : ca.done = true := by
        cases pending : ca.done with
        | true => rfl
        | false => exact absurd ⟨ca, current, pending⟩ settled
      simp only [isDone, if_true] at done
      cases done
      exact ⟨ca, current, isDone, rfl⟩

theorem Numbered.finish (numbered : Numbered nonce replied cl) {number : Nat}
    (settled : ¬ cl.Waiting number) (done : cl.finish number = some next) :
    Numbered nonce replied next := by
  rcases finish_outcome settled done with ⟨ca, current, isDone, rfl⟩
  rcases numbered.callers number ca current with ⟨_, own, answered⟩
  refine {
    nonce := numbered.nonce
    xid := numbered.xid
    acknowledged := numbered.acknowledged
    window := numbered.window.updateXidRep (answered isDone)
    callers := ?_
    calls := ?_
    standing := ?_ }
  · intro other ca' found
    exact numbered.callers other ca' (slot_emptied found).2
  · intro x other found
    have found := (getElem?_erase_calls cl.calls ca.xid x).symm.trans found
    split at found
    · contradiction
    · rcases numbered.calls x other found with ⟨limit, named⟩
      exact ⟨limit, fun ca' now => named ca' (slot_emptied now).2⟩
  · intro k r issued
    rcases numbered.standing k r issued with before | ⟨ca', was, req⟩
    · exact Or.inl before
    · by_cases here : k + 1 = number
      · subst here
        left
        cases current.symm.trans was
        rw [← req, ← own]
        exact answered isDone
      · exact Or.inr ⟨ca', (Function.update_of_ne here _ _).trans was, req⟩

theorem Introduced.finish (introduced : Introduced srvNonce replied cl)
    (numbered : Numbered nonce replied cl) {number : Nat} (settled : ¬ cl.Waiting number)
    (done : cl.finish number = some next) : Introduced srvNonce replied next := by
  rcases finish_outcome settled done with ⟨ca, current, isDone, rfl⟩
  refine { introduced with callers := ?_, returned := ?_ }
  · intro other ca' found
    exact introduced.callers other ca' (slot_emptied found).2
  · intro ret member bind success
    rcases List.mem_append.mp member with old | new
    · exact introduced.returned ret old bind success
    · cases List.mem_singleton.mp new
      rcases numbered.callers number ca current with ⟨issued, own, answered⟩
      refine ⟨?_, introduced.callers number ca current bind isDone success⟩
      rw [← (introduced.binds ca.req issued bind).1, ← own]
      exact answered isDone

theorem Numbered.bind (numbered : Numbered nonce replied cl) {ret : Return}
    (done : cl.bind ret = some next) : Numbered nonce replied next := by
  rcases bind_eq done with ⟨_, r, _, rfl⟩
  exact { numbered with }

theorem Introduced.bind (introduced : Introduced srvNonce replied cl) (small : srvNonce < 2 ^ 32)
    {ret : Return} (done : cl.bind ret = some next) : Introduced srvNonce replied next := by
  rcases bind_eq done with ⟨⟨returned, bind, success⟩, r, decoded, rfl⟩
  rcases introduced.returned ret returned bind success with ⟨answered, payload⟩
  rw [payload, decodeInt_encodeInt] at decoded
  cases decoded
  refine { introduced with unbound := nofun, current := fun _ => ⟨answered, ?_⟩ }
  change (UInt32.ofNat srvNonce).toInt32.toUInt32.toNat = srvNonce
  rw [UInt32.toUInt32_toInt32]
  exact UInt32.toNat_ofNat_of_lt' small

end Client

end YfsRpc.Rpc
