import YfsRpc.Rpc.Client
import YfsRpc.Rpc.WireFormat

/-! # The handlers

`rpcs::reg` wraps a method of the server object into a handler, which decodes
the arguments of a request and marshals the result. The sources have one such
class for each number of arguments from one to seven.
-/

namespace YfsRpc.Rpc

open Unmarshall

/-- A registered method. It may change the server object, whose states are `σ`,
and it fills in the result it is given. -/
structure Handler (σ : Type) where
  args : List Ty
  ret : Ty
  meth : List Datum → ret.Val → σ → Int × ret.Val × σ
  one_le : 1 ≤ args.length
  le_seven : args.length ≤ 7

/-- The effects of a call of `fn`. The method was called with the arguments
`invoked`, if it was. No `ret` is left when marshalling the result aborts. -/
structure FnRun (σ : Type) where
  b : Int
  args : Unmarshall
  ret : Option Marshall
  sob : σ
  invoked : Option (List Datum)

namespace Handler

variable {σ : Type} (h : Handler σ)

/-- `A1 a1; A2 a2; ...` -/
def targets : List Datum := h.args.map fun t => ⟨t, t.default⟩

def fn (args : Unmarshall) (ret : Marshall) (sob : σ) : FnRun σ :=
  let decoded := getAll h.targets args
  if !decoded.2.okdone then
    { b := RpcConst.unmarshalArgsFailure, args := decoded.2, ret := some ret, sob, invoked := none }
  else
    let (b, r, sob) := h.meth decoded.1 h.ret.default sob
    { b, args := decoded.2, ret := h.ret.put r ret, sob, invoked := some decoded.1 }

variable {args : Unmarshall} (ret : Marshall) (sob : σ)

theorem fn_failed (failed : (getAll h.targets args).2.okdone = false) :
    h.fn args ret sob =
      { b := RpcConst.unmarshalArgsFailure, args := (getAll h.targets args).2, ret := some ret,
        sob, invoked := none } := by
  simp only [fn, failed, Bool.not_false, if_true]

theorem fn_invoked (done : (getAll h.targets args).2.okdone = true) :
    (h.fn args ret sob).invoked = some (getAll h.targets args).1 := by
  simp only [fn, done, Bool.not_true, Bool.false_eq_true, if_false]

end Handler

/-! ## The header -/

namespace Unmarshall

theorem reqFields_parses : Parses reqFields fun bytes _ => bytes.length = 20 := by
  refine getInt_parses.bind fun xid => getInt_parses.bind fun proc => getInt_parses.bind
    fun cltNonce => getInt_parses.bind fun srvNonce => getInt_parses.bind fun xidRep => .pure ?_
  rintro _ rfl _ rfl _ rfl _ rfl _ rfl
  rfl

/-- Reading header fields between the two moves of the index. -/
theorem Parses.between_seeks {α : Type} {operation fields : StateM Unmarshall α}
    (same : operation = do seek rpcSzT; let h ← fields; seek rpcHeaderSz; return h)
    {format : Format UInt8 α} (parses : Parses fields format) {u : Unmarshall}
    (ok : (operation u).2.ok = true) :
    (operation u).2.buf = u.buf ∧ (operation u).2.ind = rpcHeaderSz ∧
      ∃ bytes x, format bytes x ∧
        u.buf.drop rpcSzT = bytes ++ u.buf.drop (rpcSzT + bytes.length) := by
  subst same
  rcases parses { u with ind := rpcSzT } ok with ⟨bytes, took, denotes⟩
  refine ⟨took.buf, rfl, bytes, _, denotes, ?_⟩
  rw [← took.ind]
  exact took.bytes

/-- A request that passes the test of `dispatch` has a whole header, and its
arguments are read from behind the header. -/
theorem enter_request {buf : List UInt8} (ok : (Entry.request.enter buf).ok = true) :
    rpcHeaderSz ≤ buf.length ∧ (Entry.request.enter buf).buf = buf ∧
      (Entry.request.enter buf).ind = rpcHeaderSz := by
  have same : Entry.request.enter buf = (unpackReqHeader (.new buf)).2 := by rw [Entry.enter]
  rw [same] at ok ⊢
  obtain ⟨whole, behind, bytes, _, length, drop⟩ :=
    reqFields_parses.between_seeks unpackReqHeader_eq ok
  refine ⟨?_, whole, behind⟩
  have moved := congrArg List.length drop
  simp only [Unmarshall.new, List.length_append, List.length_drop, length, rpcSzT] at moved
  simp only [rpcHeaderSz, rpcSzT]
  omega

end Unmarshall

/-! ## The arguments -/

theorem getAllExact_parses (types : List Ty) (plain : ∀ t ∈ types, t.Plain) :
    Parses (getAllExact (types.map fun t => ⟨t, t.default⟩)) fun bytes values =>
      values.map Sigma.fst = types ∧ bytes = encodeAll values := by
  induction types with
  | nil => exact .pure ⟨rfl, rfl⟩
  | cons t rest induction =>
      have tail := induction fun t member => plain t (List.mem_cons_of_mem _ member)
      refine t.getExact_parses.bind fun v => tail.bind fun values => .pure ?_
      rintro back ⟨types, rfl⟩ front wire
      rw [t.encode_of_wire front v (plain t List.mem_cons_self) wire, List.append_nil]
      exact ⟨congrArg (t :: ·) types, rfl⟩

theorem Handler.targets_parses {σ : Type} (h : Handler σ) (plain : ∀ t ∈ h.args, t.Plain) :
    Parses (getAllExact h.targets) fun bytes values =>
      values.map Sigma.fst = h.args ∧ bytes = encodeAll values :=
  getAllExact_parses h.args plain

/-- The method is called exactly when the payload is the concatenation of the
encodings of its arguments. -/
theorem Handler.fn_invoked_iff {σ : Type} (h : Handler σ) (plain : ∀ t ∈ h.args, t.Plain)
    {buf : List UInt8} (small : buf.length < 2 ^ 31) (ok : (Entry.request.enter buf).ok = true)
    (inside : ∀ access ∈ (decode .request h.targets buf).log, access.Inside buf)
    (ret : Marshall) (sob : σ) (values : List Datum) :
    (h.fn (Entry.request.enter buf) ret sob).invoked = some values ↔
      values.map Sigma.fst = h.args ∧ buf.drop rpcHeaderSz = encodeAll values := by
  rcases enter_request ok with ⟨header, whole, behind⟩
  constructor
  · intro invoked
    cases done : (getAll h.targets (Entry.request.enter buf)).2.okdone with
    | false =>
        rw [h.fn_failed ret sob done] at invoked
        cases invoked
    | true =>
        rw [h.fn_invoked ret sob done] at invoked
        rcases Option.some.inj invoked with rfl
        rcases (getAll_lockstep small h.targets).agree _ (enter_sound small .request) with
          ⟨same, -⟩ | ⟨⟨access, member, outside⟩, -⟩
        · rw [same] at done ⊢
          rcases Bool.and_eq_true_iff.mp done with ⟨flag, finished⟩
          rcases h.targets_parses plain _ flag with ⟨bytes, took, types, rfl⟩
          refine ⟨types, ?_⟩
          have ended := (beq_iff_eq.mp finished).trans
            (congrArg List.length (took.buf.trans whole))
          have payload := took.bytes
          rw [whole, behind, ended, List.drop_length, List.append_nil] at payload
          exact payload
        · exact absurd (inside access member) outside
  · rintro ⟨types, payload⟩
    have targets : h.targets = defaultTargets values := by
      unfold Handler.targets defaultTargets
      rw [← types, List.map_map]
      rfl
    obtain ⟨after, decoded, consumed⟩ := getAll_reads values (Entry.request.enter buf)
      (buf.take rpcHeaderSz) [] ok
      (by rw [whole, List.append_nil, ← payload, List.take_append_drop])
      (by rw [behind, List.length_take, Nat.min_eq_left header])
      (by rw [Unmarshall.sz, whole]; exact small)
    rw [← targets] at decoded
    have done : after.okdone = true := by
      have length := congrArg List.length payload
      have ended : after.ind = after.sz := by
        rw [consumed.ind, behind, Unmarshall.sz, consumed.buf, whole, ← length,
          List.length_drop, Nat.add_sub_cancel' header]
      simp only [okdone, consumed.ok, ended, BEq.rfl, Bool.and_self]
    rw [h.fn_invoked ret sob (by rw [decoded]; exact done), decoded]

/-- Argument decoding accepts exactly the well formed payloads: the method is
called with the arguments whose encodings make up the payload, any other payload
gets `unmarshal_args_failure` without a call and without a change of the reply,
and two payloads that lead to a call with the same arguments are equal. -/
theorem Handler.fn_exact {σ : Type} (h : Handler σ) (plain : ∀ t ∈ h.args, t.Plain)
    (buf buf' : List UInt8) (small : buf.length < 2 ^ 31) (small' : buf'.length < 2 ^ 31)
    (ok : (Entry.request.enter buf).ok = true) (ok' : (Entry.request.enter buf').ok = true)
    (inside : ∀ access ∈ (decode .request h.targets buf).log, access.Inside buf)
    (inside' : ∀ access ∈ (decode .request h.targets buf').log, access.Inside buf')
    (ret ret' : Marshall) (sob sob' : σ) :
    (∀ values, (h.fn (Entry.request.enter buf) ret sob).invoked = some values ↔
      values.map Sigma.fst = h.args ∧ buf.drop rpcHeaderSz = encodeAll values) ∧
    ((∀ values, values.map Sigma.fst = h.args → buf.drop rpcHeaderSz ≠ encodeAll values) →
      (h.fn (Entry.request.enter buf) ret sob).invoked = none ∧
        (h.fn (Entry.request.enter buf) ret sob).b = RpcConst.unmarshalArgsFailure ∧
        (h.fn (Entry.request.enter buf) ret sob).ret = some ret ∧
        (h.fn (Entry.request.enter buf) ret sob).sob = sob) ∧
    (∀ values, (h.fn (Entry.request.enter buf) ret sob).invoked = some values →
      (h.fn (Entry.request.enter buf') ret' sob').invoked = some values →
        buf.drop rpcHeaderSz = buf'.drop rpcHeaderSz) := by
  have accepts := h.fn_invoked_iff plain small ok inside ret sob
  have accepts' := h.fn_invoked_iff plain small' ok' inside' ret' sob'
  refine ⟨accepts, ?_, ?_⟩
  · intro other
    cases done : (getAll h.targets (Entry.request.enter buf)).2.okdone with
    | false =>
        rw [h.fn_failed ret sob done]
        exact ⟨rfl, rfl, rfl, rfl⟩
    | true =>
        have payload := (accepts _).mp (h.fn_invoked ret sob done)
        exact absurd payload.2 (other _ payload.1)
  · intro values invoked invoked'
    rw [((accepts values).mp invoked).2, ((accepts' values).mp invoked').2]

/-- `handle_fast` of the test server: `r = a + 1`. -/
def handleFast : Handler Unit where
  args := [.int]
  ret := .int
  meth := fun values r _ =>
    match values with
    | [⟨.int, a⟩] => (0, Int32.add a 1, ())
    | _ => (0, r, ())
  one_le := by decide
  le_seven := by decide

theorem handleFast_exact :
    (handleFast.fn (Entry.request.enter (List.replicate 24 0 ++ [0, 0, 1, 2]))
      (Marshall.new fun _ => 0) ()).invoked = some [⟨.int, (258 : Int32)⟩] :=
  ((handleFast.fn_exact (by decide) (List.replicate 24 0 ++ [0, 0, 1, 2]) (List.replicate 24 0)
    (by decide) (by decide) (by decide) (by decide) (by decide) (by decide)
    (Marshall.new fun _ => 0) (Marshall.new fun _ => 0) () ()).1 _).mpr ⟨rfl, by decide⟩

end YfsRpc.Rpc
