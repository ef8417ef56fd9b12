import YfsRpc.Foundation.Slots
import YfsRpc.Rpc.Client
import Mathlib.Tactic.Linarith

/-! # Invariants of a client

As long as a client issues fewer than 2^32 - 1 calls, the xid of a call is its
number, a caller object is registered under its own xid until the call returns,
and the acknowledgement window is sound.
-/

namespace YfsRpc.Rpc

/-- The calls map of a client. -/
abbrev Calls := Std.ExtTreeMap Nat Nat compare

theorem getElem?_insert_calls (calls : Calls) (x number y : Nat) :
    (calls.insert x number)[y]? = if x = y then some number else calls[y]? := by
  simp [Std.ExtTreeMap.getElem?_insert]

theorem getElem?_erase_calls (calls : Calls) (x y : Nat) :
    (calls.erase x)[y]? = if x = y then none else calls[y]? := by
  simp [Std.ExtTreeMap.getElem?_erase]

namespace Client

theorem Completed.not_waiting {cl : Client} {number : Nat} (completed : cl.Completed number) :
    ¬ cl.Waiting number := completed.2.2

/-- A caller object that is in the place of its call. -/
structure Placed (produced : Request → Int → List UInt8 → Prop) (cl : Client) (number : Nat)
    (ca : Caller) : Prop where
  xid : ca.xid = number
  req : ca.req ∈ cl.issued
  reqXid : ca.req.xid = number
  registered : cl.calls[number]? = some number
  result : ca.done = true → 0 ≤ ca.intret → produced ca.req ca.intret ca.un

/-- `produced` says which results the server has produced for which requests. -/
structure Inv (nonce : Nat) (produced : Request → Int → List UInt8 → Prop) (cl : Client) :
    Prop where
  count : cl.xid = cl.issued.length + 1
  nonce : ∀ r ∈ cl.issued, r.cltNonce = nonce
  range : ∀ r ∈ cl.issued, 0 < r.xid ∧ r.xid ≤ cl.issued.length
  unique : ∀ r ∈ cl.issued, ∀ r' ∈ cl.issued, r.xid = r'.xid → r = r'
  xidRep : ∀ r ∈ cl.issued, r.xidRep < r.xid ∧ r.xidRep ≤ cl.front
  callers : ∀ number ca, cl.callers number = some ca → cl.Placed produced number ca
  registered : ∀ x number, cl.calls[x]? = some number →
    number = x ∧ ∃ ca, cl.callers x = some ca
  acknowledges : Acknowledges cl.Completed cl.xidRepWindow
  returned : ∀ ret ∈ cl.returned, ret.req ∈ cl.issued ∧
    (0 ≤ ret.ret → produced ret.req ret.ret ret.payload)

theorem initial_inv (nonce : Nat) (produced : Request → Int → List UInt8 → Prop) :
    Inv nonce produced {} where
  count := rfl
  nonce := nofun
  range := nofun
  unique := nofun
  xidRep := nofun
  callers := nofun
  registered := by
    intro x number found
    have none : (Std.ExtTreeMap.empty : Calls)[x]? = none := Std.ExtTreeMap.getElem?_empty
    exact absurd (none.symm.trans found) nofun
  acknowledges := initial_acknowledges _
  returned := nofun

variable {nonce : Nat} {produced : Request → Int → List UInt8 → Prop} {cl next : Client}

theorem Inv.mono {now : Request → Int → List UInt8 → Prop} (inv : Inv nonce produced cl)
    (more : ∀ r ret payload, produced r ret payload → now r ret payload) :
    Inv nonce now cl := by
  refine { inv with callers := ?_, returned := ?_ }
  · intro number ca current
    have placed := inv.callers number ca current
    exact { placed with
      result := fun done valid => more _ _ _ (placed.result done valid) }
  · intro ret member
    rcases inv.returned ret member with ⟨issued, result⟩
    exact ⟨issued, fun valid => more _ _ _ (result valid)⟩

/-- A number up to the front belongs to a completed call. -/
theorem Inv.completed_of_le_front (inv : Inv nonce produced cl) {number : Nat}
    (positive : 0 < number) (below : number ≤ cl.front) : cl.Completed number :=
  inv.acknowledges.below number (Nat.pos_iff_ne_zero.mp positive) below

theorem Inv.front_le (inv : Inv nonce produced cl) : cl.front ≤ cl.issued.length := by
  cases front : cl.front with
  | zero => exact Nat.zero_le _
  | succ number =>
      have completed := inv.completed_of_le_front (Nat.succ_pos number) (Nat.le_of_eq front.symm)
      exact completed.2.1

/-- A waiting call is beyond the front. -/
theorem Inv.front_lt_of_waiting (inv : Inv nonce produced cl) {number : Nat}
    (waiting : cl.Waiting number) : cl.front < number := by
  rcases waiting with ⟨ca, current, pending⟩
  have placed := inv.callers number ca current
  have positive : 0 < number := by
    rw [← placed.reqXid]
    exact (inv.range ca.req placed.req).1
  by_contra below
  have completed := inv.completed_of_le_front positive (Nat.le_of_not_lt below)
  exact completed.not_waiting ⟨ca, current, pending⟩

theorem Inv.waiting_le (inv : Inv nonce produced cl) {number : Nat}
    (waiting : cl.Waiting number) : number ≤ cl.issued.length := by
  rcases waiting with ⟨ca, current, _⟩
  have placed := inv.callers number ca current
  rw [← placed.reqXid]
  exact (inv.range ca.req placed.req).2

/-! ## Entering a call -/

/-- What the first section of `call1` does when it admits the call. -/
theorem call1_eq {proc : Nat} {payload : List UInt8}
    (done : cl.call1 nonce proc payload = some next) :
    (proc = RpcConst.bind ↔ cl.bindDone = false) ∧ cl.destroyWait = false ∧
      next = cl.register (cl.pack nonce proc payload) := by
  unfold call1 at done
  split at done
  · contradiction
  · next admitted =>
      split at done
      · contradiction
      · next continued =>
          cases done
          refine ⟨?_, by simpa using continued, rfl⟩
          cases bound : cl.bindDone <;> simp_all

/-- A call that is not `bind` is admitted by a client that is bound. -/
theorem bindDone_of_admitted {proc : Nat}
    (admitted : proc = RpcConst.bind ↔ cl.bindDone = false) (other : proc ≠ RpcConst.bind) :
    cl.bindDone = true := by
  cases bindDone : cl.bindDone with
  | true => rfl
  | false => exact absurd (admitted.mpr bindDone) other

@[simp] theorem issued_register (h : Request) : (cl.register h).issued = cl.issued ++ [h] := rfl

@[simp] theorem callers_register_self (h : Request) :
    (cl.register h).callers (cl.issued.length + 1) = some { xid := h.xid, req := h } :=
  Function.update_self _ _ _

theorem callers_register_of_ne (h : Request) {number : Nat}
    (other : number ≠ cl.issued.length + 1) :
    (cl.register h).callers number = cl.callers number :=
  Function.update_of_ne other _ _

theorem calls_register (h : Request) (x : Nat) :
    (cl.register h).calls[x]? =
      if h.xid = x then some (cl.issued.length + 1) else cl.calls[x]? :=
  getElem?_insert_calls cl.calls h.xid _ x

/-- A call other than the new one waits, or is completed, as before. -/
theorem waiting_register {h : Request} {number : Nat} (old : number ≤ cl.issued.length) :
    (cl.register h).Waiting number ↔ cl.Waiting number := by
  have other : number ≠ cl.issued.length + 1 := by omega
  simp only [Waiting, callers_register_of_ne h other]

theorem register_waiting (h : Request) :
    (cl.register h).Waiting (cl.issued.length + 1) :=
  ⟨_, callers_register_self h, rfl⟩

theorem Completed.register {number : Nat} (completed : cl.Completed number) (h : Request) :
    (cl.register h).Completed number := by
  rcases completed with ⟨positive, old, settled⟩
  refine ⟨positive, ?_, fun waiting => settled ((waiting_register old).mp waiting)⟩
  change number ≤ (cl.issued ++ [h]).length
  rw [List.length_append]
  exact Nat.le_trans old (Nat.le_add_right _ _)

theorem Inv.call1 (inv : Inv nonce produced cl) {proc : Nat} {payload : List UInt8}
    (few : cl.issued.length + 1 < 2 ^ 32 - 1)
    (done : cl.call1 nonce proc payload = some next) : Inv nonce produced next := by
  rcases call1_eq done with ⟨_, _, rfl⟩
  generalize packed : cl.pack nonce proc payload = h
  have hXid : h.xid = cl.issued.length + 1 := by rw [← packed]; exact inv.count
  have hRep : h.xidRep = cl.front := by rw [← packed]; rfl
  have hNonce : h.cltNonce = nonce := by rw [← packed]; rfl
  have length : (cl.register h).issued.length = cl.issued.length + 1 :=
    List.length_append
  have member_cases : ∀ r ∈ (cl.register h).issued, r ∈ cl.issued ∨ r = h := by
    simp [register]
  have keep : ∀ r ∈ cl.issued, r ∈ (cl.register h).issued := by
    intro r member
    exact List.mem_append_left _ member
  have new : h ∈ (cl.register h).issued := List.mem_append_right _ (List.mem_singleton_self h)
  refine ⟨?_, ?_, ?_, ?_, ?_, ?_, ?_, ?_, ?_⟩
  · rw [length]
    change (cl.xid + 1) % 2 ^ 32 = _
    rw [inv.count]
    exact Nat.mod_eq_of_lt (by omega)
  · intro r member
    rcases member_cases r member with old | rfl
    · exact inv.nonce r old
    · exact hNonce
  · intro r member
    rw [length]
    rcases member_cases r member with old | rfl
    · have range := inv.range r old
      omega
    · omega
  · intro r member r' member' same
    rcases member_cases r member with old | rfl
    · rcases member_cases r' member' with old' | rfl
      · exact inv.unique r old r' old' same
      · have range := inv.range r old
        omega
    · rcases member_cases r' member' with old' | rfl
      · have range := inv.range r' old'
        omega
      · rfl
  · intro r member
    change _ ∧ r.xidRep ≤ cl.front
    rcases member_cases r member with old | rfl
    · exact inv.xidRep r old
    · have front := inv.front_le
      omega
  · intro number ca current
    by_cases same : number = cl.issued.length + 1
    · subst same
      rw [callers_register_self] at current
      cases current
      refine ⟨hXid, new, hXid, ?_, nofun⟩
      rw [calls_register, if_pos hXid]
    · rw [callers_register_of_ne h same] at current
      have placed := inv.callers number ca current
      refine ⟨placed.xid, keep _ placed.req, placed.reqXid, ?_, placed.result⟩
      rw [calls_register, if_neg (by omega)]
      exact placed.registered
  · intro x number found
    rw [calls_register] at found
    split at found
    · next same =>
        cases found
        refine ⟨by omega, { xid := h.xid, req := h }, ?_⟩
        rw [← same, ← callers_register_self, hXid]
    · next other =>
        rcases inv.registered x number found with ⟨same, ca, current⟩
        refine ⟨same, ca, ?_⟩
        rw [callers_register_of_ne h (by omega)]
        exact current
  · exact inv.acknowledges.mono fun number completed => completed.register h
  · intro ret member
    rcases inv.returned ret member with ⟨issued, result⟩
    exact ⟨keep _ issued, result⟩

/-! ## Replies, returns and cancellation -/

/-- The caller objects change, but only in results of registered calls, and
completed calls are reported. -/
theorem Inv.settle (inv : Inv nonce produced cl) {callers : Nat → Option Caller}
    {window : List Nat} {destroyWait : Bool}
    (same : ∀ number, (callers number).isSome = (cl.callers number).isSome)
    (kept : ∀ number ca, callers number = some ca → ∃ before, cl.callers number = some before ∧
      ca.xid = before.xid ∧ ca.req = before.req ∧
      (ca.done = true → 0 ≤ ca.intret → produced ca.req ca.intret ca.un))
    (front : cl.front ≤ window.headD 0)
    (acknowledges : Acknowledges { cl with callers }.Completed window) :
    Inv nonce produced { cl with callers, xidRepWindow := window, destroyWait } where
  count := inv.count
  nonce := inv.nonce
  range := inv.range
  unique := inv.unique
  xidRep := by
    intro r member
    rcases inv.xidRep r member with ⟨smaller, below⟩
    exact ⟨smaller, Nat.le_trans below front⟩
  callers := by
    intro number ca current
    rcases kept number ca current with ⟨before, was, xid, req, result⟩
    have placed := inv.callers number before was
    refine ⟨xid.trans placed.xid, ?_, ?_, placed.registered, result⟩
    · rw [req]
      exact placed.req
    · rw [req]
      exact placed.reqXid
  registered := by
    intro x number found
    rcases inv.registered x number found with ⟨rfl, ca, current⟩
    refine ⟨rfl, Option.isSome_iff_exists.mp ?_⟩
    change (callers number).isSome = true
    rw [same number, current]
    rfl
  acknowledges := acknowledges
  returned := inv.returned

/-- Fewer waiting calls are more completed ones. -/
theorem Completed.settle {callers : Nat → Option Caller} {number : Nat}
    (completed : cl.Completed number)
    (fewer : { cl with callers }.Waiting number → cl.Waiting number) :
    { cl with callers }.Completed number :=
  ⟨completed.1, completed.2.1, fun waiting => completed.2.2 (fewer waiting)⟩

/-- `got_pdu` changes callers and the window. -/
theorem gotPdu_frame (reply : Reply) (cl : Client) :
    ∃ callers window, cl.gotPdu reply = { cl with callers, xidRepWindow := window } := by
  simp only [gotPdu]
  split
  · exact ⟨_, _, rfl⟩
  · split
    · exact ⟨_, _, rfl⟩
    · split <;> exact ⟨_, _, rfl⟩

@[simp] theorem issued_gotPdu (reply : Reply) (cl : Client) :
    (cl.gotPdu reply).issued = cl.issued := by
  rcases gotPdu_frame reply cl with ⟨callers, window, same⟩
  rw [same]

@[simp] theorem returned_gotPdu (reply : Reply) (cl : Client) :
    (cl.gotPdu reply).returned = cl.returned := by
  rcases gotPdu_frame reply cl with ⟨callers, window, same⟩
  rw [same]

@[simp] theorem calls_gotPdu (reply : Reply) (cl : Client) :
    (cl.gotPdu reply).calls = cl.calls := by
  rcases gotPdu_frame reply cl with ⟨callers, window, same⟩
  rw [same]

@[simp] theorem destroyWait_gotPdu (reply : Reply) (cl : Client) :
    (cl.gotPdu reply).destroyWait = cl.destroyWait := by
  rcases gotPdu_frame reply cl with ⟨callers, window, same⟩
  rw [same]

/-- `got_pdu` hands the reply to the caller object of a waiting call. -/
theorem gotPdu_cases (inv : Inv nonce produced cl) (reply : Reply) :
    (¬ cl.Waiting reply.xid ∧
      cl.gotPdu reply = { cl with xidRepWindow := updateXidRep cl.xidRepWindow reply.xid }) ∨
    ∃ ca, cl.callers reply.xid = some ca ∧ ca.done = false ∧
      cl.gotPdu reply = { cl with
        callers := Function.update cl.callers reply.xid
          (some { ca with un := reply.payload, intret := reply.ret, done := true })
        xidRepWindow := updateXidRep cl.xidRepWindow reply.xid } := by
  unfold gotPdu
  cases found : cl.calls[reply.xid]? with
  | none =>
      left
      refine ⟨?_, by simp only [found]⟩
      rintro ⟨ca, current, _⟩
      exact absurd (found.symm.trans (inv.callers _ ca current).registered) nofun
  | some number =>
      rcases inv.registered _ _ found with ⟨rfl, ca, current⟩
      cases done : ca.done with
      | true =>
          left
          refine ⟨?_, by simp only [found, current, done, if_true]⟩
          rintro ⟨other, same, pending⟩
          rw [current] at same
          cases same
          exact absurd (done.symm.trans pending) nofun
      | false =>
          right
          exact ⟨ca, current, done, by simp [found, current, done]⟩

/-- The call that got the reply waits no more. -/
theorem Inv.waiting_gotPdu (inv : Inv nonce produced cl) {reply : Reply} {number : Nat}
    (waiting : (cl.gotPdu reply).Waiting number) : number ≠ reply.xid ∧ cl.Waiting number := by
  rcases gotPdu_cases inv reply with ⟨settled, same⟩ | ⟨ca, current, pending, same⟩
  · rw [same] at waiting
    refine ⟨?_, waiting⟩
    rintro rfl
    exact settled waiting
  · rw [same] at waiting
    rcases waiting with ⟨other, found, undone⟩
    rcases slot_filled found with ⟨_, rfl⟩ | ⟨elsewhere, before⟩
    · contradiction
    · exact ⟨elsewhere, other, before, undone⟩

theorem Inv.gotPdu (inv : Inv nonce produced cl) {reply : Reply}
    (range : 0 < reply.xid ∧ reply.xid ≤ cl.issued.length)
    (result : ∀ r ∈ cl.issued, r.xid = reply.xid → 0 ≤ reply.ret →
      produced r reply.ret reply.payload) : Inv nonce produced (cl.gotPdu reply) := by
  have ascending := inv.acknowledges.ascending
  rcases gotPdu_cases inv reply with ⟨settled, same⟩ | ⟨ca, current, pending, same⟩
  · rw [same]
    have reported : cl.Completed reply.xid := ⟨range.1, range.2, settled⟩
    refine inv.settle (fun _ => rfl) ?_ (headD_updateXidRep ascending _)
      (inv.acknowledges.updateXidRep reported)
    intro number ca current
    exact ⟨ca, current, rfl, rfl, (inv.callers number ca current).result⟩
  · rw [same]
    have placed := inv.callers _ ca current
    have fewer (number : Nat) (waiting : Waiting { cl with
        callers := Function.update cl.callers reply.xid
          (some { ca with un := reply.payload, intret := reply.ret, done := true }) } number) :
        number ≠ reply.xid ∧ cl.Waiting number := by
      apply inv.waiting_gotPdu
      rw [same]
      exact waiting
    refine inv.settle ?_ ?_ (headD_updateXidRep ascending _) ?_
    · intro number
      by_cases here : number = reply.xid
      · subst here
        rw [Function.update_self, current]
        rfl
      · rw [Function.update_of_ne here]
    · intro number after found
      rcases slot_filled found with ⟨rfl, rfl⟩ | ⟨_, before⟩
      · exact ⟨ca, current, rfl, rfl,
          fun _ valid => result ca.req placed.req placed.reqXid valid⟩
      · exact ⟨after, before, rfl, rfl, (inv.callers number after before).result⟩
    · refine Acknowledges.updateXidRep (inv.acknowledges.mono fun number completed =>
        completed.settle fun waiting => (fewer _ waiting).2) ?_
      exact ⟨range.1, range.2, fun waiting => (fewer _ waiting).1 rfl⟩

theorem finish_histories {number : Nat} (done : cl.finish number = some next) :
    next.issued = cl.issued ∧ cl.returned ⊆ next.returned := by
  unfold finish at done
  split at done
  · contradiction
  · cases done
    exact ⟨rfl, List.subset_append_left _ _⟩

/-- What returns from `call1` leaves the maps under its own number. -/
theorem finish_eq (inv : Inv nonce produced cl) {number : Nat}
    (done : cl.finish number = some next) :
    ∃ ca, cl.callers number = some ca ∧
      next = { cl with
        callers := Function.update cl.callers number none
        calls := cl.calls.erase number
        xidRepWindow := updateXidRep cl.xidRepWindow number
        returned := cl.returned ++ [{
          req := ca.req
          ret := if ca.done then ca.intret else RpcConst.timeoutFailure
          payload := ca.un }] } := by
  unfold finish at done
  split at done
  · contradiction
  · next ca current =>
      cases done
      have xid := (inv.callers number ca current).xid
      exact ⟨ca, current, by rw [xid]⟩

/-- The call that returned waits no more. -/
theorem Inv.waiting_finish (inv : Inv nonce produced cl) {number other : Nat}
    (done : cl.finish number = some next) (waiting : next.Waiting other) :
    other ≠ number ∧ cl.Waiting other := by
  rcases finish_eq inv done with ⟨_, _, rfl⟩
  rcases waiting with ⟨after, found, pending⟩
  rcases slot_emptied found with ⟨elsewhere, before⟩
  exact ⟨elsewhere, after, before, pending⟩

theorem Inv.finish (inv : Inv nonce produced cl) {number : Nat}
    (done : cl.finish number = some next) : Inv nonce produced next := by
  rcases finish_eq inv done with ⟨ca, current, rfl⟩
  have placed := inv.callers number ca current
  refine {
    count := inv.count
    nonce := inv.nonce
    range := inv.range
    unique := inv.unique
    xidRep := ?_
    callers := ?_
    registered := ?_
    acknowledges := ?_
    returned := ?_ }
  · intro r member
    rcases inv.xidRep r member with ⟨smaller, below⟩
    exact ⟨smaller, Nat.le_trans below (headD_updateXidRep inv.acknowledges.ascending _)⟩
  · intro other after found
    rcases slot_emptied found with ⟨elsewhere, before⟩
    have old := inv.callers other after before
    refine { old with registered := ?_ }
    exact (getElem?_erase_calls cl.calls number other).trans
      ((if_neg (Ne.symm elsewhere)).trans old.registered)
  · intro x found registered
    have registered := (getElem?_erase_calls cl.calls number x).symm.trans registered
    split at registered
    · contradiction
    · next elsewhere =>
        rcases inv.registered x found registered with ⟨same, after, before⟩
        exact ⟨same, after, (Function.update_of_ne (Ne.symm elsewhere) _ _).trans before⟩
  · have range := inv.range ca.req placed.req
    rw [placed.reqXid] at range
    refine Acknowledges.updateXidRep (inv.acknowledges.mono ?_) ?_
    · intro other completed
      refine ⟨completed.1, completed.2.1, ?_⟩
      rintro ⟨after, found, pending⟩
      exact completed.not_waiting ⟨after, (slot_emptied found).2, pending⟩
    · refine ⟨range.1, range.2, ?_⟩
      rintro ⟨after, found, _⟩
      exact (slot_emptied found).1 rfl
  · intro ret member
    rcases List.mem_append.mp member with old | new
    · exact inv.returned ret old
    · cases List.mem_singleton.mp new
      refine ⟨placed.req, fun valid => ?_⟩
      cases pending : ca.done with
      | true =>
          simp only [pending, if_true] at valid ⊢
          exact placed.result pending valid
      | false =>
          rw [pending] at valid
          exact absurd valid (show ¬ (0 : Int) ≤ -1 by decide)

theorem bind_eq {ret : Return} (done : cl.bind ret = some next) :
    (ret ∈ cl.returned ∧ ret.req.proc = RpcConst.bind ∧ ret.ret = 0) ∧
      ∃ r, decodeInt ret.payload = some r ∧
        next = { cl with bindDone := true, srvNonce := r.toUInt32.toNat } := by
  unfold Client.bind at done
  split at done
  · next bound =>
      rcases Option.map_eq_some_iff.mp done with ⟨r, decoded, rfl⟩
      exact ⟨bound, r, decoded, rfl⟩
  · contradiction

theorem Inv.bind (inv : Inv nonce produced cl) {ret : Return}
    (done : cl.bind ret = some next) : Inv nonce produced next := by
  rcases bind_eq done with ⟨_, r, _, rfl⟩
  refine { inv with callers := ?_ }
  intro number ca current
  have placed := inv.callers number ca current
  exact ⟨placed.xid, placed.req, placed.reqXid, placed.registered, placed.result⟩

/-- After `cancel` a caller object is as before, or it is done with a failure. -/
theorem callers_cancel {number : Nat} {after : Caller}
    (found : cl.cancel.callers number = some after) :
    ∃ ca, cl.callers number = some ca ∧
      (after = ca ∨ after = { ca with done := true, intret := RpcConst.cancelFailure }) := by
  rcases Option.map_eq_some_iff.mp found with ⟨ca, current, rfl⟩
  refine ⟨ca, current, ?_⟩
  split
  · exact Or.inr rfl
  · exact Or.inl rfl

theorem waiting_of_cancel {number : Nat} (waiting : cl.cancel.Waiting number) :
    cl.Waiting number := by
  rcases waiting with ⟨after, found, pending⟩
  rcases callers_cancel found with ⟨ca, current, rfl | rfl⟩
  · exact ⟨after, current, pending⟩
  · contradiction

theorem Inv.cancel (inv : Inv nonce produced cl) : Inv nonce produced cl.cancel := by
  refine inv.settle ?_ ?_ (Nat.le_refl _) ?_
  · intro number
    exact Option.isSome_map
  · intro number after found
    rcases callers_cancel found with ⟨ca, current, rfl | rfl⟩
    · exact ⟨after, current, rfl, rfl, (inv.callers number after current).result⟩
    · exact ⟨ca, current, rfl, rfl,
        fun _ valid => absurd valid (show ¬ (0 : Int) ≤ -7 by decide)⟩
  · exact inv.acknowledges.mono fun number completed =>
      ⟨completed.1, completed.2.1, fun waiting => completed.2.2 (waiting_of_cancel waiting)⟩

/-! ## Steps that issue nothing -/

/-- Calls wait no longer, and the front only moves on. -/
structure Settles (before after : Client) : Prop where
  issued : after.issued = before.issued
  front : before.front ≤ after.front
  waiting : ∀ number, after.Waiting number → before.Waiting number

theorem Settles.refl (cl : Client) : cl.Settles cl :=
  ⟨rfl, Nat.le_refl _, fun _ => id⟩

theorem Settles.completed {before after : Client} (settles : before.Settles after) {number : Nat}
    (completed : before.Completed number) : after.Completed number := by
  rcases completed with ⟨positive, bound, settled⟩
  refine ⟨positive, ?_, fun waiting => settled (settles.waiting number waiting)⟩
  rw [settles.issued]
  exact bound

theorem Inv.gotPdu_settles (inv : Inv nonce produced cl) (reply : Reply) :
    cl.Settles (cl.gotPdu reply) where
  issued := issued_gotPdu reply cl
  front := by
    have moved := headD_updateXidRep inv.acknowledges.ascending reply.xid
    rcases gotPdu_cases inv reply with ⟨_, same⟩ | ⟨_, _, _, same⟩
    · rw [same]
      exact moved
    · rw [same]
      exact moved
  waiting := fun _ waiting => (inv.waiting_gotPdu waiting).2

theorem Inv.finish_settles (inv : Inv nonce produced cl) {number : Nat}
    (done : cl.finish number = some next) : cl.Settles next := by
  refine ⟨?_, ?_, fun _ waiting => (inv.waiting_finish done waiting).2⟩
  · rcases finish_eq inv done with ⟨_, _, rfl⟩
    rfl
  · rcases finish_eq inv done with ⟨_, _, rfl⟩
    exact headD_updateXidRep inv.acknowledges.ascending number

theorem bind_settles {ret : Return} (done : cl.bind ret = some next) : cl.Settles next := by
  rcases bind_eq done with ⟨_, _, _, rfl⟩
  exact ⟨rfl, Nat.le_refl _, fun _ => id⟩

theorem cancel_settles (cl : Client) : cl.Settles cl.cancel :=
  ⟨rfl, Nat.le_refl _, fun _ => waiting_of_cancel⟩

end Client

end YfsRpc.Rpc
