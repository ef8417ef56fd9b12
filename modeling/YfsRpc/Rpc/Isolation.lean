import YfsRpc.Rpc.Instances

/-! # Isolation of server instances

A client is bound to the instance whose reply to `bind` it got last, and packs
that nonce into its requests. An instance that compares it with its own executes
requests of its own clients only, unless the nonce is 0, which also says that a
client is not bound yet.
-/

namespace YfsRpc.Rpc

/-! ## The current instance -/

namespace Server

variable {ι σ Local : Type}

/-- What a thread has in its hands. -/
def PcTraced (issued : ι → List Request) (srvNonce : Nat) (req : Request) : Pc ι Local → Prop
  | .received | .handling .rpcbind => True
  | .saving | .checking => req.cltNonce ≠ 0
  | .handling (.user _) => req.proc ≠ RpcConst.bind
  | .replying a | .choosing a => a.cause = req ∧ Names srvNonce a
  | .sending c a => a.cause ∈ issued c.client ∧ Names srvNonce a

structure Traced (nonce : ι → Nat) (issued : ι → List Request) (s : Server ι σ Local) : Prop where
  threads : ∀ id t, s.threads id = some t →
    t.req ∈ issued t.conn.client ∧ PcTraced issued s.nonce t.req t.pc
  ascending : ∀ n, StrictlyAscending ReplyT.xid (s.replyWindow n)
  answers : ∀ n, ∀ e ∈ s.replyWindow n, ∀ a, e.buf = some a →
    a.cause.cltNonce = n ∧ (∃ c, a.cause ∈ issued c) ∧ Names s.nonce a
  conns : ∀ n c, s.conns n = some c → n ≠ 0 ∧ nonce c.client = n
  begun : ∀ r ∈ s.begun, ∃ c, r ∈ issued c

variable {nonce : ι → Nat} {issued : ι → List Request} {s next : Server ι σ Local} {id : Nat}
  {t : Thread ι Local}

theorem initial_traced (service : σ) (srvNonce : Nat) :
    Traced nonce issued ({ nonce := srvNonce, service } : Server ι σ Local) where
  threads := nofun
  ascending := fun _ => List.Pairwise.nil
  answers := nofun
  conns := nofun
  begun := nofun

theorem Traced.mono {now : ι → List Request} (traced : Traced nonce issued s)
    (grown : ∀ c, issued c ⊆ now c) : Traced nonce now s where
  threads := by
    intro id t current
    rcases traced.threads id t current with ⟨known, held⟩
    refine ⟨grown _ known, ?_⟩
    cases place : t.pc with
    | sending c a =>
        rw [place] at held
        exact ⟨grown _ held.1, held.2⟩
    | received => trivial
    | handling h =>
        rw [place] at held
        cases h with
        | rpcbind => trivial
        | user => exact held
    | saving | checking | replying | choosing =>
        rw [place] at held
        exact held
  ascending := traced.ascending
  answers := by
    intro n e member a buffered
    rcases traced.answers n e member a buffered with ⟨key, ⟨c, known⟩, names⟩
    exact ⟨key, ⟨c, grown c known⟩, names⟩
  conns := traced.conns
  begun := by
    intro r member
    rcases traced.begun r member with ⟨c, known⟩
    exact ⟨c, grown c known⟩

/-- A thread moves on, and the rest of the server changes as it may. -/
theorem Traced.goto (traced : Traced nonce issued s) (current : s.threads id = some t)
    (pc : Pc ι Local) (held : PcTraced issued s.nonce t.req pc) :
    Traced nonce issued (s.goto id t pc) where
  threads := by
    intro id' t' found
    rcases slot_filled found with ⟨_, rfl⟩ | ⟨_, before⟩
    · exact ⟨(traced.threads id t current).1, held⟩
    · exact traced.threads id' t' before
  ascending := traced.ascending
  answers := traced.answers
  conns := traced.conns
  begun := traced.begun

theorem Traced.exit (traced : Traced nonce issued s) : Traced nonce issued (s.exit id) where
  threads := by
    intro id' t' found
    exact traced.threads id' t' (slot_emptied found).2
  ascending := traced.ascending
  answers := traced.answers
  conns := traced.conns
  begun := traced.begun

theorem Traced.invoke (traced : Traced nonce issued s) (current : s.threads id = some t)
    (service : Service σ Local) : Traced nonce issued (s.invoke service id t) := by
  have known := (traced.threads id t current).1
  have begun : Traced nonce issued { s with begun := s.begun ++ [t.req] } := by
    refine { traced with begun := ?_ }
    intro r member
    rcases List.mem_append.mp member with old | new
    · exact traced.begun r old
    · rw [List.mem_singleton.mp new]
      exact ⟨_, known⟩
  apply begun.goto current
  split
  · trivial
  · next other => exact other

/-- The window after a duplicate check has old entries, and one without a reply. -/
theorem Traced.updateWindow (traced : Traced nonce issued s) {n xid xidRep : Nat}
    {stat : RpcState Answer} {window : List (ReplyT Answer)}
    (result : checkduplicateAndUpdate (s.replyWindow n) xid xidRep = (stat, window)) :
    Traced nonce issued (s.updateWindow n window) := by
  have checked := checkduplicateAndUpdate_classified xid xidRep (traced.ascending n)
  rw [result] at checked
  refine { traced with ascending := ascending_checked checked traced.ascending, answers := ?_ }
  intro n' e member a buffered
  rcases mem_checked checked member with old | ⟨_, rfl, _⟩
  · exact traced.answers n' e old a buffered
  · contradiction

theorem Traced.addReply (traced : Traced nonce issued s) {r : Request} {a : Answer}
    (cause : a.cause = r) {c : ι} (known : r ∈ issued c) (names : Names s.nonce a) :
    Traced nonce issued (s.updateWindow r.cltNonce
      (addReply r.xid a (s.replyWindow r.cltNonce))) := by
  refine { traced with ascending := ascending_recorded traced.ascending, answers := ?_ }
  intro n e member b buffered
  rcases mem_recorded traced.ascending member with ⟨old, _⟩ | ⟨rfl, rfl, _⟩
  · exact traced.answers n e old b buffered
  · cases buffered
    rw [cause]
    exact ⟨rfl, ⟨c, known⟩, cause ▸ names⟩

theorem Traced.gotPdu (traced : Traced nonce issued s) {conn : Conn ι} {req : Request}
    (known : req ∈ issued conn.client) (done : s.gotPdu id conn req = some next) :
    Traced nonce issued next := by
  rcases gotPdu_eq done with ⟨_, rfl⟩
  refine { traced with threads := ?_ }
  intro id' t' found
  rcases slot_filled found with ⟨_, rfl⟩ | ⟨_, before⟩
  · exact ⟨known, trivial⟩
  · exact traced.threads id' t' before

/-- Clients that do not retransmit have the nonce 0. -/
def DistinctNonces (nonce : ι → Nat) : Prop :=
  ∀ c c', nonce c = nonce c' → nonce c ≠ 0 → c = c'

theorem Traced.dispatched (traced : Traced nonce issued s) (distinct : DistinctNonces nonce)
    (known : ∀ c, ∀ r ∈ issued c, r.cltNonce = nonce c) (current : s.threads id = some t)
    {service : Service σ Local} {sent : Option (Message ι)}
    (step : Dispatched service s id t next sent) : Traced nonce issued next := by
  rcases traced.threads id t current with ⟨mine, held⟩
  have own := known _ _ mine
  cases step with
  | refused => exact traced.goto current _ ⟨mine, refuse_names _ _ (by decide)⟩
  | unregistered => exact traced.exit
  | admitted _ _ nonzero => exact traced.goto current .saving nonzero
  | untracked => exact traced.invoke current service
  | saved place conns latest =>
      rw [place] at held
      have saved : Traced nonce issued { s with conns } := by
        refine { traced with conns := ?_ }
        intro n c found
        rcases latest n c found with old | ⟨rfl, rfl⟩
        · exact traced.conns n c old
        · exact ⟨held, own.symm⟩
      exact saved.goto current .checking held
  | new place window result =>
      have updated := traced.updateWindow result
      have new : Traced nonce issued { s.updateWindow t.req.cltNonce window with
          news := s.news ++ [t.req.key] } :=
        ⟨updated.threads, updated.ascending, updated.answers, updated.conns, updated.begun⟩
      exact new.invoke current service
  | inprogress place window result => exact (traced.updateWindow result).exit
  | done place window a result =>
      rw [place] at held
      apply (traced.updateWindow result).goto current (.sending t.conn a)
      have checked := checkduplicateAndUpdate_classified t.req.xid t.req.xidRep
        (traced.ascending t.req.cltNonce)
      rw [result] at checked
      rcases checked.of_done with ⟨e, present, _, buffered⟩
      rcases traced.answers _ e (mem_trim.mp present).1 a buffered with ⟨key, ⟨c, cause⟩, names⟩
      have client : nonce c = nonce t.conn.client := by
        rw [← known c _ cause, key, own]
      have nonzero : nonce c ≠ 0 := by
        rw [client, ← own]
        exact held
      rw [distinct c _ client nonzero] at cause
      exact ⟨cause, names⟩
  | forgotten place window result =>
      exact (traced.updateWindow result).goto current _ ⟨mine, refuse_names _ _ (by decide)⟩
  | paused l place choice state later =>
      rw [place] at held
      have moved := traced.goto current (.handling (.user later)) held
      exact ⟨moved.threads, moved.ascending, moved.answers, moved.conns, moved.begun⟩
  | returned l place choice state ret payload =>
      rw [place] at held
      let a : Answer := { cause := t.req, reply := { xid := t.req.xid, ret, payload } }
      have names : Names s.nonce a := ⟨rfl, fun bind => absurd bind held⟩
      have moved := traced.goto current (.replying a) ⟨rfl, names⟩
      exact ⟨moved.threads, moved.ascending, moved.answers, moved.conns, moved.begun⟩
  | bound place =>
      have moved := traced.goto current (.replying _) ⟨rfl, rpcbind_names s.nonce t.req⟩
      exact ⟨moved.threads, moved.ascending, moved.answers, moved.conns, moved.begun⟩
  | recorded a place positive =>
      rw [place] at held
      have moved := (traced.addReply held.1 mine held.2).goto current (.choosing a) held
      exact ⟨moved.threads, moved.ascending, moved.answers, moved.conns, moved.begun⟩
  | unrecorded a place =>
      rw [place] at held
      exact traced.goto current (.choosing a) held
  | chosen a place c choice =>
      rw [place] at held
      have client : c.client = t.conn.client := by
        rcases choice with rfl | latest
        · rfl
        · rcases traced.conns _ c latest with ⟨nonzero, same⟩
          apply distinct
          · rw [same, own]
          · rw [same]
            exact nonzero
      apply traced.goto current (.sending c a)
      refine ⟨?_, held.2⟩
      rw [held.1, client]
      exact mine
  | sent => exact traced.exit

theorem Traced.sent (traced : Traced nonce issued s) (current : s.threads id = some t)
    {service : Service σ Local} {sent : Option (Message ι)}
    (step : Dispatched service s id t next sent) :
    ∀ m ∈ sent, m.answer.cause ∈ issued m.dest ∧ Names m.nonce m.answer ∧ m.nonce = s.nonce := by
  have held := (traced.threads id t current).2
  intro m member
  cases step with
  | sent c a place =>
      rw [place] at held
      cases member
      exact ⟨held.1, held.2, rfl⟩
  | _ => contradiction

theorem Dispatched.nonce_eq {service : Service σ Local} {sent : Option (Message ι)}
    (step : Dispatched service s id t next sent) : next.nonce = s.nonce := by
  cases step <;> rfl

/-- Behind the check of the server instance a request that is not `bind` has
this instance in its header. -/
structure Matches (s : Server ι σ Local) : Prop where
  threads : ∀ id t, s.threads id = some t → t.pc = .saving ∨ t.pc = .checking →
    t.req.proc ≠ RpcConst.bind → t.req.srvNonce = s.nonce
  begun : ∀ r ∈ s.begun, r.proc ≠ RpcConst.bind → r.srvNonce = s.nonce

theorem Matches.dispatched (matched : Matches s) (current : s.threads id = some t)
    (checked : t.pc = .received → t.req.proc ≠ RpcConst.bind → t.req.srvNonce = 0 → s.nonce = 0)
    {service : Service σ Local} {sent : Option (Message ι)}
    (step : Dispatched service s id t next sent) : Matches next := by
  have stays (next : Server ι σ Local) (pc : Option (Pc ι Local))
      (threads : next.threads = Function.update s.threads id (pc.map fun pc => { t with pc }))
      (nonce : next.nonce = s.nonce)
      (moved : ∀ now ∈ pc, now = .saving ∨ now = .checking → t.req.proc ≠ RpcConst.bind →
        t.req.srvNonce = s.nonce)
      (begun : ∀ r ∈ next.begun, r.proc ≠ RpcConst.bind → r.srvNonce = s.nonce) :
      Matches next := by
    constructor
    · intro id' t' found place other
      rw [nonce]
      rw [threads] at found
      rcases thread_moved found with ⟨_, now, isNow, rfl⟩ | ⟨_, before⟩
      · exact moved now isNow place other
      · exact matched.threads id' t' before place other
    · rw [nonce]
      exact begun
  have away (pc : Pc ι Local) (notSaving : pc ≠ .saving) (notChecking : pc ≠ .checking) :
      ∀ now ∈ some pc, now = .saving ∨ now = .checking → t.req.proc ≠ RpcConst.bind →
        t.req.srvNonce = s.nonce := by
    intro now isNow place
    cases isNow
    rcases place with same | same
    · contradiction
    · contradiction
  have invoked (same : t.req.proc ≠ RpcConst.bind → t.req.srvNonce = s.nonce) :
      ∀ r ∈ s.begun ++ [t.req], r.proc ≠ RpcConst.bind → r.srvNonce = s.nonce := by
    intro r member other
    rcases List.mem_append.mp member with old | new
    · exact matched.begun r old other
    · rw [List.mem_singleton.mp new] at other ⊢
      exact same other
  have passed (place : t.pc = .received)
      (current : t.req.srvNonce = 0 ∨ t.req.srvNonce = s.nonce) (other : t.req.proc ≠ RpcConst.bind) :
      t.req.srvNonce = s.nonce := by
    rcases current with zero | same
    · rw [zero, checked place other zero]
    · exact same
  cases step with
  | admitted place same =>
      exact stays _ (some .saving) rfl rfl (fun _ _ _ => passed place same) matched.begun
  | untracked place _ same =>
      exact stays _ (some _) rfl rfl (by exact away _ nofun nofun) (invoked (passed place same))
  | saved place =>
      exact stays _ (some .checking) rfl rfl
        (fun _ _ _ => matched.threads id t current (Or.inl place)) matched.begun
  | new place =>
      exact stays _ (some _) rfl rfl (by exact away _ nofun nofun)
        (invoked (matched.threads id t current (Or.inr place)))
  | unregistered | inprogress | sent => exact stays _ none rfl rfl nofun matched.begun
  | _ => exact stays _ (some _) rfl rfl (by exact away _ nofun nofun) matched.begun

theorem Matches.gotPdu (matched : Matches s) {conn : Conn ι} {req : Request}
    (done : s.gotPdu id conn req = some next) : Matches next := by
  rcases gotPdu_eq done with ⟨_, rfl⟩
  refine ⟨?_, matched.begun⟩
  intro id' t' found place
  rcases slot_filled found with ⟨_, rfl⟩ | ⟨_, before⟩
  · simp at place
  · exact matched.threads id' t' before place

end Server

/-! ## Runs over many instances -/

namespace System

variable {ι σ Local : Type} {nonce : ι → Nat}

/-- What holds whichever instance is current. -/
structure Traced (nonce : ι → Nat) (s : System ι σ Local) : Prop where
  clients : ∀ c, (s.clients c).Traced (nonce c) (s.Answered c) (s.BoundTo c)
  requests : ∀ conn req, (conn, req) ∈ s.requests → req ∈ s.issued conn.client
  replies : ∀ m ∈ s.replies, m.answer.cause ∈ s.issued m.dest ∧ Names m.nonce m.answer ∧
    m.nonce < 2 ^ 31
  server : s.server.Traced nonce s.issued
  range : s.server.nonce < 2 ^ 31

variable {s next : System ι σ Local}

theorem Answered.mono {c : ι} {xid : Nat} {payload : List UInt8}
    (answered : s.Answered c xid payload) (more : s.replies ⊆ next.replies) :
    next.Answered c xid payload := by
  rcases answered with ⟨m, sent, rest⟩
  exact ⟨m, more sent, rest⟩

theorem BoundTo.mono {c : ι} {srvNonce : Nat} (bound : s.BoundTo c srvNonce)
    (more : s.replies ⊆ next.replies)
    (returned : (s.clients c).returned ⊆ (next.clients c).returned) : next.BoundTo c srvNonce := by
  rcases bound with ⟨m, sent, dest, sender, bind, ret, member, rest⟩
  exact ⟨m, more sent, dest, sender, bind, ret, returned member, rest⟩

/-- What a call of `bind` returns is the nonce of the instance that replied. -/
theorem Traced.boundTo (traced : Traced nonce s) {c : ι} {ret : Return} {cl : Client}
    (done : (s.clients c).bind ret = some cl) :
    s.BoundTo c cl.srvNonce ∧ cl = { s.clients c with bindDone := true, srvNonce := cl.srvNonce } := by
  rcases Client.bind_eq done with ⟨⟨returned, bind, success⟩, r, decoded, rfl⟩
  refine ⟨?_, rfl⟩
  rcases (traced.clients c).returned ret returned bind success with ⟨m, sent, dest, cause, reply⟩
  rcases traced.replies m sent with ⟨_, names, small⟩
  have payload := names.bind cause (by rw [reply])
  rw [reply] at payload
  change ret.payload = _ at payload
  rw [payload, decodeInt_encodeInt] at decoded
  cases decoded
  refine ⟨m, sent, dest, ?_, cause, ret, returned, bind, success, reply⟩
  change m.nonce = (UInt32.ofNat m.nonce).toInt32.toUInt32.toNat
  rw [UInt32.toUInt32_toInt32]
  exact (UInt32.toNat_ofNat_of_lt' (Nat.lt_trans small (by decide))).symm

variable [DecidableEq ι]

/-- A client takes a step that keeps its invariant. -/
theorem Traced.setClient (traced : Traced nonce s) {c : ι} {cl : Client}
    (kept : cl.Traced (nonce c) (s.Answered c) (s.BoundTo c))
    (grown : (s.clients c).issued ⊆ cl.issued)
    (returned : (s.clients c).returned ⊆ cl.returned) : Traced nonce (s.setClient c cl) := by
  have returns : ∀ other,
      (s.clients other).returned ⊆ ((s.setClient c cl).clients other).returned :=
    forall_setClient (fun other cl => (s.clients other).returned ⊆ cl.returned) returned
      fun _ => List.Subset.refl _
  have more := issued_setClient grown
  have binds (other : ι) (srvNonce : Nat) (bound : s.BoundTo other srvNonce) :
      (s.setClient c cl).BoundTo other srvNonce :=
    bound.mono (List.Subset.refl _) (returns other)
  refine ⟨?_, ?_, ?_, traced.server.mono more, traced.range⟩
  · apply forall_setClient fun other cl => cl.Traced (nonce other)
      ((s.setClient c _).Answered other) ((s.setClient c _).BoundTo other)
    · exact kept.mono (fun _ _ => id) (binds c)
    · exact fun other => (traced.clients other).mono (fun _ _ => id) (binds other)
  · intro conn req sent
    exact more _ (traced.requests conn req sent)
  · intro m sent
    rcases traced.replies m sent with ⟨cause, names⟩
    exact ⟨more _ cause, names⟩

theorem Traced.step (traced : Traced nonce s) (distinct : Server.DistinctNonces nonce)
    {service : Service σ Local} {action : Action ι}
    (stepped : Stepped nonce service s action next) : Traced nonce next := by
  cases stepped with
  | call c proc payload cl done =>
      have kept := (traced.clients c).call1 done
      rcases Client.call1_eq done with ⟨_, _, rfl⟩
      exact traced.setClient kept (List.subset_append_left _ _) (List.Subset.refl _)
  | transmit c number serial createTime ca current =>
      refine ⟨traced.clients, ?_, traced.replies, traced.server, traced.range⟩
      intro conn req sent
      rcases List.mem_append.mp sent with old | new
      · exact traced.requests conn req old
      · cases List.mem_singleton.mp new
        exact ((traced.clients c).callers number ca current).1
  | gotReply c m sent dest =>
      subst dest
      rcases traced.replies m sent with ⟨cause, names, _⟩
      have kept := (traced.clients m.dest).gotPdu cause names.xid
        (fun bind success => ⟨m, sent, rfl, bind, by rw [← success]⟩)
      apply traced.setClient kept
      · rw [Client.issued_gotPdu]
        exact List.Subset.refl _
      · rw [Client.returned_gotPdu]
        exact List.Subset.refl _
  | finish c number cl done =>
      rcases Client.finish_histories done with ⟨issued, returned⟩
      apply traced.setClient ((traced.clients c).finish done) _ returned
      rw [issued]
      exact List.Subset.refl _
  | bind c ret cl done =>
      rcases traced.boundTo done with ⟨bound, same⟩
      rw [same]
      exact traced.setClient ((traced.clients c).bind bound) (List.Subset.refl _)
        (List.Subset.refl _)
  | cancel c =>
      exact traced.setClient (traced.clients c).cancel (List.Subset.refl _) (List.Subset.refl _)
  | gotRequest id conn req server sent done =>
      have kept := traced.server.gotPdu (traced.requests conn req sent) done
      rcases Server.gotPdu_eq done with ⟨_, rfl⟩
      exact ⟨traced.clients, traced.requests, traced.replies, kept, traced.range⟩
  | dispatch id choice isdead server sent t current done =>
      have more : s.replies ⊆ s.replies ++ sent.toList := List.subset_append_left _ _
      have kept := traced.server.dispatched distinct (fun c => (traced.clients c).nonce) current done
      refine ⟨?_, traced.requests, ?_, kept, done.nonce_eq ▸ traced.range⟩
      · exact fun c => (traced.clients c).mono (fun _ _ answered => answered.mono more)
          (fun _ bound => bound.mono more (List.Subset.refl _))
      · intro m member
        rcases List.mem_append.mp member with old | new
        · exact traced.replies m old
        · rcases traced.server.sent current done m (by simpa using new) with ⟨cause, names, sender⟩
          exact ⟨cause, names, sender ▸ traced.range⟩

end System

namespace Instances

variable {ι σ Local : Type}

/-- A request of a procedure other than `bind` that has 0 for the server instance
comes to the check of the instance only if the nonce of the instance is 0. -/
def Checked (s : Instances ι σ Local) : Action ι σ → Prop
  | .run (.dispatch id _ _) =>
      ∀ t, s.system.server.threads id = some t → t.pc = .received →
        t.req.proc ≠ RpcConst.bind → t.req.srvNonce = 0 → s.system.server.nonce = 0
  | _ => True

structure Inv (nonce : ι → Nat) (s : Instances ι σ Local) : Prop where
  traced : s.system.Traced nonce
  matched : s.system.server.Matches

variable [DecidableEq ι] {nonce : ι → Nat} {service : Service σ Local} {srvNonce : Nat}
  {s next : Instances ι σ Local} {action : Action ι σ}

theorem initial_traced (small : srvNonce < 2 ^ 31) :
    (machine nonce service srvNonce).initial.system.Traced nonce where
  clients := fun _ => Client.initial_traced
  requests := nofun
  replies := nofun
  server := Server.initial_traced _ _
  range := small

theorem traced_step (traced : s.system.Traced nonce) (distinct : Server.DistinctNonces nonce)
    (taken : step nonce service s action = some next) : next.system.Traced nonce := by
  cases action with
  | run action =>
      rcases Option.map_eq_some_iff.mp taken with ⟨system, stepped, rfl⟩
      exact traced.step distinct (System.step_cases stepped)
  | restart drawn state =>
      simp only [step] at taken
      split at taken
      · next fresh =>
          cases taken
          exact ⟨traced.clients, traced.requests, traced.replies,
            Server.initial_traced state drawn, fresh.1⟩
      · contradiction

theorem matches_step (matched : s.system.server.Matches) (checked : Checked s action)
    (taken : step nonce service s action = some next) : next.system.server.Matches := by
  cases action with
  | run action =>
      rcases Option.map_eq_some_iff.mp taken with ⟨system, stepped, rfl⟩
      cases System.step_cases stepped with
      | dispatch id choice isdead server sent t current done =>
          exact matched.dispatched current (checked t current) done
      | gotRequest id conn req server sent done =>
          exact matched.gotPdu done
      | call | transmit | gotReply | finish | bind | cancel => exact matched
  | restart drawn state =>
      simp only [step] at taken
      split at taken
      · cases taken
        exact ⟨nofun, nofun⟩
      · contradiction

def NonzeroRestart (_ : Instances ι σ Local) : Action ι σ → Prop
  | .restart drawn _ => drawn ≠ 0
  | _ => True

instance (s : Instances ι σ Local) : ∀ action, Decidable (NonzeroRestart s action)
  | .restart drawn _ => inferInstanceAs (Decidable (drawn ≠ 0))
  | .run _ => instDecidableTrue

/-- The nonces in use: of the current instance and of those that sent a reply. -/
def NoncesNonzero (s : Instances ι σ Local) : Prop :=
  s.system.server.nonce ≠ 0 ∧ ∀ m ∈ s.system.replies, m.nonce ≠ 0

theorem nonzero_step (traced : s.system.Traced nonce) (nonzero : NoncesNonzero s)
    (drawn : NonzeroRestart s action) (taken : step nonce service s action = some next) :
    NoncesNonzero next := by
  cases action with
  | run action =>
      rcases Option.map_eq_some_iff.mp taken with ⟨system, stepped, rfl⟩
      cases System.step_cases stepped with
      | dispatch id choice isdead server sent t current done =>
          refine ⟨done.nonce_eq ▸ nonzero.1, ?_⟩
          intro m member
          rcases List.mem_append.mp member with old | new
          · exact nonzero.2 m old
          · rw [(traced.server.sent current done m (by simpa using new)).2.2]
            exact nonzero.1
      | gotRequest id conn req server sent done =>
          rcases Server.gotPdu_eq done with ⟨_, rfl⟩
          exact nonzero
      | call | transmit | gotReply | finish | bind | cancel => exact nonzero
  | restart srvNonce state =>
      simp only [step] at taken
      split at taken
      · cases taken
        exact ⟨drawn, nonzero.2⟩
      · contradiction

/-- If no instance draws 0, then no request is packed for an instance with nonce 0. -/
theorem checked_of_nonzero (distinct : Server.DistinctNonces nonce) (small : srvNonce < 2 ^ 31)
    (nonzero : srvNonce ≠ 0)
    (reachable : (machine nonce service srvNonce).ReachableUnder NonzeroRestart s) :
    (machine nonce service srvNonce).ReachableUnder Checked s := by
  have all : s.system.Traced nonce ∧ NoncesNonzero s ∧
      (machine nonce service srvNonce).ReachableUnder Checked s := by
    apply reachable.invariant fun s => s.system.Traced nonce ∧ NoncesNonzero s ∧
      (machine nonce service srvNonce).ReachableUnder Checked s
    · exact ⟨initial_traced small, ⟨nonzero, nofun⟩, .initial⟩
    · rintro state action next _ ⟨traced, nonces, checked⟩ drawn taken
      refine ⟨traced_step traced distinct taken, nonzero_step traced nonces drawn taken, ?_⟩
      apply checked.step _ taken
      cases action with
      | restart => trivial
      | run action =>
          cases action with
          | dispatch id choice isdead =>
              intro t current _ other zero
              have issued := (traced.server.threads id t current).1
              rcases (traced.clients _).packed t.req issued other with ⟨m, sent, _, sender, _⟩
              exact absurd (sender.trans zero) (nonces.2 m sent)
          | _ => trivial
  exact all.2.2

/-! ## An instance that draws 0 -/

open YfsRpc.Rpc.System (echo echoConn bindRequest)

def echoInstances (srvNonce : Nat) :
    Machine (Instances Unit Unit (List UInt8)) (Action Unit Unit) :=
  machine (fun _ => 5) echo srvNonce

/-- The request arrives, and its thread runs to the end. -/
def serve (req : Request) : List (Action Unit Unit) :=
  .run (.gotRequest 0 echoConn req) :: List.replicate 7 (.run (.dispatch 0 0 false))

/-- The client binds to the first instance and packs a request. -/
def bindThenCall (srvNonce : Nat) (payload : List UInt8) : List (Action Unit Unit) :=
  [.run (.call () RpcConst.bind [0, 0, 0, 0]), .run (.transmit () 1 0 0)] ++
    serve bindRequest ++
    [.run (.gotReply () {
      dest := ()
      answer := { cause := bindRequest, reply := { xid := 1, ret := 0, payload } }
      nonce := srvNonce }),
    .run (.finish () 1), .run (.bind () { req := bindRequest, ret := 0, payload }),
    .run (.call () 7 [1]), .run (.transmit () 2 0 0)]

def echoRequest (srvNonce : Nat) : Request where
  xid := 2
  proc := 7
  cltNonce := 5
  srvNonce := srvNonce
  xidRep := 1
  payload := [1]

/-- A request of the first instance, and the one of `bind`, arrive at the second again. -/
def afterRestart : List (Action Unit Unit) :=
  [.restart 8 (), .run (.gotRequest 1 echoConn (echoRequest 9)), .run (.dispatch 1 0 false),
    .run (.dispatch 1 0 false)] ++ serve bindRequest

end Instances

end YfsRpc.Rpc
