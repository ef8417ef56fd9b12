import YfsRpc.Rpc.Standing

/-! # Executions that answer standing calls

What the server has classified as new it remembers, and while a thread executes a
request, no reply for its xid has been sent to any client of that nonce. Clients may
share a nonce here, and xids come back. So two threads never execute under one key, and
the call whose request is executed stands.
-/

namespace YfsRpc.Rpc

namespace Server

variable {ι σ Local : Type}

/-- What the server relies on; `replied` says for which xids of a nonce there is a reply. -/
structure Relies (nonce : ι → Nat) (replied : Nat → Nat → Prop) (srvNonce : Nat)
    (issued : ι → List Request) : Prop where
  cltNonce : ∀ c, ∀ r ∈ issued c, r.cltNonce = nonce c ∧ r.cltNonce ≠ 0
  srvNonce : ∀ c, ∀ r ∈ issued c, r.srvNonce = 0 ∨ r.srvNonce = srvNonce
  acknowledged : ∀ c, ∀ r ∈ issued c, ∀ x, x ≠ 0 → x ≤ r.xidRep → replied r.cltNonce x
  first : ∀ c, ∀ r ∈ issued c, r.proc = RpcConst.bind → r.xid = 1
  later : ∀ c, ∀ r ∈ issued c, r.proc ≠ RpcConst.bind → replied r.cltNonce 1

/-! ## The windows -/

/-- A reply for the xid. -/
structure RepliesTo (srvNonce x : Nat) (a : Answer) : Prop where
  xid : a.reply.xid = x
  introduces : Introduces srvNonce a.reply

/-- The entry of a request that is executed. -/
def Pending (window : List (ReplyT Answer)) (x : Nat) : Prop :=
  ∃ e ∈ window, e.xid = x ∧ e.cbPresent = false

structure Remembers (srvNonce : Nat) (replied : Nat → Nat → Prop)
    (replyWindow : Nat → List (ReplyT Answer)) : Prop where
  ascending : ∀ n, StrictlyAscending ReplyT.xid (replyWindow n)
  answers : ∀ n, ∀ e ∈ replyWindow n, ∀ a, e.buf = some a → RepliesTo srvNonce e.xid a
  remembered : ∀ n x, replied n x → Remembered (replyWindow n) x

variable {replied : Nat → Nat → Prop} {srvNonce : Nat} {replyWindow : Nat → List (ReplyT Answer)}

/-- What is pending is remembered. -/
theorem Pending.remembered {window : List (ReplyT Answer)} {x : Nat} (pending : Pending window x) :
    Remembered window x := by
  rcases pending with ⟨e, member, same, _⟩
  exact Or.inl ⟨e, member, same⟩

theorem Pending.trim {window : List (ReplyT Answer)} {x xidRep : Nat} (pending : Pending window x)
    (stays : xidRep ≤ x) : Pending (trim xidRep window) x := by
  rcases pending with ⟨e, member, rfl, absent⟩
  exact ⟨e, mem_trim.mpr ⟨member, stays⟩, rfl, absent⟩

/-- A duplicate of a pending request is in progress. -/
theorem Pending.inprogress {window after : List (ReplyT Answer)} {x : Nat}
    {state : RpcState Answer} (pending : Pending window x)
    (ascending : StrictlyAscending ReplyT.xid window)
    (classified : Classified window x state after) : state = .inprogress := by
  rcases pending with ⟨e, member, same, absent⟩
  rw [classified.of_mem ascending member same]
  simp [ReplyT.answer, absent]

theorem Pending.addReply {window : List (ReplyT Answer)} {x y : Nat} (pending : Pending window x)
    (other : x ≠ y) (a : Answer) : Pending (addReply y a window) x := by
  rcases pending with ⟨e, member, rfl, absent⟩
  exact ⟨e, addReply_keeps member other, rfl, absent⟩

section

variable {r : Request} {state : RpcState Answer} {window : List (ReplyT Answer)} {n x : Nat}

/-- The trim for a request forgets nothing. -/
theorem Remembers.remembered_trim (remembers : Remembers srvNonce replied replyWindow)
    (acknowledged : ∀ y, y ≠ 0 → y ≤ r.xidRep → replied r.cltNonce y)
    (remembered : Remembered (replyWindow r.cltNonce) x) :
    Remembered (trim r.xidRep (replyWindow r.cltNonce)) x := by
  apply remembered.trim
  intro nonzero
  exact remembers.remembered _ _ (acknowledged _ nonzero (Nat.le_refl _))

theorem Remembers.remembered_check (remembers : Remembers srvNonce replied replyWindow)
    (acknowledged : ∀ y, y ≠ 0 → y ≤ r.xidRep → replied r.cltNonce y)
    (checked : Classified (trim r.xidRep (replyWindow r.cltNonce)) r.xid state window)
    (remembered : Remembered (replyWindow n) x) :
    Remembered (Function.update replyWindow r.cltNonce window n) x := by
  by_cases here : n = r.cltNonce
  · subst here
    rw [Function.update_self]
    exact (remembers.remembered_trim acknowledged remembered).classified checked
  · rw [Function.update_of_ne here]
    exact remembered

theorem pending_check (acknowledged : ∀ y, y ≠ 0 → y ≤ r.xidRep → replied r.cltNonce y)
    (checked : Classified (trim r.xidRep (replyWindow r.cltNonce)) r.xid state window)
    (pending : Pending (replyWindow n) x) (nonzero : x ≠ 0) (unanswered : ¬ replied n x) :
    Pending (Function.update replyWindow r.cltNonce window n) x := by
  by_cases here : n = r.cltNonce
  · subst here
    rw [Function.update_self]
    have stays : r.xidRep ≤ x := by
      by_contra below
      exact unanswered (acknowledged x nonzero (Nat.le_of_not_le below))
    rcases pending.trim stays with ⟨e, member, same, absent⟩
    exact ⟨e, checked.keeps member, same, absent⟩
  · rw [Function.update_of_ne here]
    exact pending

theorem Remembers.check (remembers : Remembers srvNonce replied replyWindow)
    (acknowledged : ∀ y, y ≠ 0 → y ≤ r.xidRep → replied r.cltNonce y)
    (checked : Classified (trim r.xidRep (replyWindow r.cltNonce)) r.xid state window) :
    Remembers srvNonce replied (Function.update replyWindow r.cltNonce window) where
  ascending := ascending_checked checked remembers.ascending
  answers := by
    intro n e member a buffered
    rcases mem_checked checked member with old | ⟨_, rfl, _⟩
    · exact remembers.answers n e old a buffered
    · contradiction
  remembered _ _ sent := remembers.remembered_check acknowledged checked
    (remembers.remembered _ _ sent)

theorem remembered_record (a : Answer) (remembered : Remembered (replyWindow n) x) :
    Remembered (Function.update replyWindow r.cltNonce
      (addReply r.xid a (replyWindow r.cltNonce)) n) x := by
  by_cases here : n = r.cltNonce
  · subst here
    rw [Function.update_self]
    exact remembered.addReply a
  · rw [Function.update_of_ne here]
    exact remembered

theorem pending_record (a : Answer) (pending : Pending (replyWindow n) x)
    (other : (n, x) ≠ r.key) :
    Pending (Function.update replyWindow r.cltNonce
      (addReply r.xid a (replyWindow r.cltNonce)) n) x := by
  by_cases here : n = r.cltNonce
  · subst here
    rw [Function.update_self]
    apply pending.addReply
    rintro rfl
    exact other rfl
  · rw [Function.update_of_ne here]
    exact pending

theorem Remembers.record (remembers : Remembers srvNonce replied replyWindow) {a : Answer}
    (replies : RepliesTo srvNonce r.xid a) :
    Remembers srvNonce replied (Function.update replyWindow r.cltNonce
      (addReply r.xid a (replyWindow r.cltNonce))) where
  ascending := ascending_recorded remembers.ascending
  answers := by
    intro n e member b buffered
    rcases mem_recorded remembers.ascending member with ⟨old, _⟩ | ⟨_, rfl, _⟩
    · exact remembers.answers n e old b buffered
    · cases buffered
      exact replies
  remembered _ _ sent := remembered_record a (remembers.remembered _ _ sent)

end

/-! ## The threads -/

/-- Behind the duplicate check. -/
def Passed : Pc ι Local → Prop
  | .received | .saving | .checking => False
  | .handling _ | .replying _ | .choosing _ | .sending _ _ => True

/-- From the classification as new to the recorded reply. -/
def Executes : Pc ι Local → Prop
  | .handling _ | .replying _ => True
  | .received | .saving | .checking | .choosing _ | .sending _ _ => False

theorem Executes.passed {pc : Pc ι Local} (executes : Executes pc) : Passed pc := by
  cases pc with
  | received | saving | checking | choosing | sending => contradiction
  | handling | replying => trivial

/-- What a thread has in its hands. -/
def PcSettled (nonce : ι → Nat) (srvNonce : Nat) (req : Request) : Pc ι Local → Prop
  | .received | .saving | .checking | .handling .rpcbind => True
  | .handling (.user _) => req.proc ≠ RpcConst.bind
  | .replying a | .choosing a => RepliesTo srvNonce req.xid a
  | .sending c a => RepliesTo srvNonce req.xid a ∧ nonce c.client = req.cltNonce

/-- The request is executed, and nobody has a reply for its xid. -/
structure Unanswered (replied : Nat → Nat → Prop) (replyWindow : Nat → List (ReplyT Answer))
    (r : Request) : Prop where
  nonzero : r.xid ≠ 0
  unanswered : ¬ replied r.cltNonce r.xid
  pending : Pending (replyWindow r.cltNonce) r.xid

structure Settled (nonce : ι → Nat) (replied : Nat → Nat → Prop) (issued : ι → List Request)
    (s : Server ι σ Local) : Prop where
  windows : Remembers s.nonce replied s.replyWindow
  conns : ∀ n c, s.conns n = some c → nonce c.client = n
  known : ∀ id t, s.threads id = some t → t.req ∈ issued t.conn.client
  held : ∀ id t, s.threads id = some t → PcSettled nonce s.nonce t.req t.pc
  passed : ∀ id t, s.threads id = some t → Passed t.pc →
    Remembered (s.replyWindow t.req.cltNonce) t.req.xid
  executing : ∀ id t, s.threads id = some t → Executes t.pc →
    Unanswered replied s.replyWindow t.req
  alone : ∀ id t id' t', s.threads id = some t → s.threads id' = some t' →
    Executes t.pc → Passed t'.pc → t.req.key = t'.req.key → id = id'

variable {nonce : ι → Nat} {issued : ι → List Request} {s next : Server ι σ Local} {id : Nat}
  {t : Thread ι Local}

theorem initial_settled (service : σ) (srvNonce : Nat) (unanswered : ∀ n x, ¬ replied n x) :
    Settled nonce replied issued ({ nonce := srvNonce, service } : Server ι σ Local) where
  windows := ⟨fun _ => List.Pairwise.nil, nofun, fun n x sent => absurd sent (unanswered n x)⟩
  conns := nofun
  known := nofun
  held := nofun
  passed := nofun
  executing := nofun
  alone := nofun

theorem Settled.mono {now : ι → List Request} (settled : Settled nonce replied issued s)
    (grown : ∀ c, issued c ⊆ now c) : Settled nonce replied now s :=
  { settled with known := fun id t current => grown _ (settled.known id t current) }

/-- There is a reply more, for a xid that is remembered and not executed. -/
theorem Settled.reply (settled : Settled nonce replied issued s) {now : Nat → Nat → Prop}
    (key : Nat × Nat) (more : ∀ n x, now n x → replied n x ∨ (n, x) = key)
    (remembered : Remembered (s.replyWindow key.1) key.2)
    (away : ∀ id t, s.threads id = some t → Executes t.pc → t.req.key ≠ key) :
    Settled nonce now issued s where
  windows := {
    ascending := settled.windows.ascending
    answers := settled.windows.answers
    remembered := by
      intro n x sent
      rcases more n x sent with old | rfl
      · exact settled.windows.remembered n x old
      · exact remembered }
  conns := settled.conns
  known := settled.known
  held := settled.held
  passed := settled.passed
  executing := by
    intro id t current executes
    have executing := settled.executing id t current executes
    refine { executing with unanswered := fun sent => ?_ }
    rcases more _ _ sent with old | same
    · exact executing.unanswered old
    · exact away id t current executes same
  alone := settled.alone

/-- A request arrives. -/
theorem Settled.gotPdu (settled : Settled nonce replied issued s) {conn : Conn ι} {req : Request}
    (known : req ∈ issued conn.client) (done : s.gotPdu id conn req = some next) :
    Settled nonce replied issued next := by
  rcases gotPdu_eq done with ⟨_, rfl⟩
  refine ⟨settled.windows, settled.conns, ?_, ?_, ?_, ?_, ?_⟩
  · intro id' t' current
    rcases slot_filled current with ⟨_, rfl⟩ | ⟨_, old⟩
    · exact known
    · exact settled.known id' t' old
  · intro id' t' current
    rcases slot_filled current with ⟨_, rfl⟩ | ⟨_, old⟩
    · trivial
    · exact settled.held id' t' old
  · intro id' t' current passed
    rcases slot_filled current with ⟨_, rfl⟩ | ⟨_, old⟩
    · exact passed.elim
    · exact settled.passed id' t' old passed
  · intro id' t' current executes
    rcases slot_filled current with ⟨_, rfl⟩ | ⟨_, old⟩
    · exact executes.elim
    · exact settled.executing id' t' old executes
  · intro id₁ t₁ id₂ t₂ first second executes passed same
    rcases slot_filled first with ⟨_, rfl⟩ | ⟨_, old⟩
    · exact executes.elim
    · rcases slot_filled second with ⟨_, rfl⟩ | ⟨_, old'⟩
      · exact passed.elim
      · exact settled.alone id₁ t₁ id₂ t₂ old old' executes passed same

/-! ## A step of a thread -/

/-- What the place a thread moves to asks for. -/
structure Arrives (nonce : ι → Nat) (replied : Nat → Nat → Prop) (s next : Server ι σ Local)
    (id : Nat) (t : Thread ι Local) (pc : Pc ι Local) : Prop where
  held : PcSettled nonce s.nonce t.req pc
  passed : Passed pc → Remembered (next.replyWindow t.req.cltNonce) t.req.xid
  executing : Executes pc → Unanswered replied next.replyWindow t.req
  /-- a thread that begins to execute is the first behind the check -/
  first : Executes pc → Executes t.pc ∨ ∀ id' t', s.threads id' = some t' → Passed t'.pc →
    t.req.key ≠ t'.req.key
  /-- a thread that comes behind the check meets none that executes -/
  behind : Passed pc → Passed t.pc ∨ ∀ id' t', s.threads id' = some t' → Executes t'.pc →
    t'.req.key ≠ t.req.key

/-- A thread moves on, or it ends. -/
theorem Settled.move (settled : Settled nonce replied issued s) (current : s.threads id = some t)
    (pc : Option (Pc ι Local))
    (threads : next.threads = Function.update s.threads id (pc.map fun pc => { t with pc }))
    (same : next.nonce = s.nonce)
    (windows : Remembers s.nonce replied next.replyWindow)
    (remembered : ∀ n x, Remembered (s.replyWindow n) x → Remembered (next.replyWindow n) x)
    (pending : ∀ id' t', id' ≠ id → s.threads id' = some t' → Executes t'.pc →
      Pending (next.replyWindow t'.req.cltNonce) t'.req.xid)
    (conns : ∀ n c, next.conns n = some c → nonce c.client = n)
    (arrives : ∀ now ∈ pc, Arrives nonce replied s next id t now) :
    Settled nonce replied issued next := by
  have found : ∀ id' t', next.threads id' = some t' →
      (id' = id ∧ ∃ now ∈ pc, t' = { t with pc := now }) ∨
        (id' ≠ id ∧ s.threads id' = some t') := by
    intro id' t' found
    rw [threads] at found
    exact thread_moved found
  refine ⟨same ▸ windows, conns, ?_, ?_, ?_, ?_, ?_⟩
  · intro id' t' after
    rcases found id' t' after with ⟨_, now, _, rfl⟩ | ⟨_, old⟩
    · exact settled.known id t current
    · exact settled.known id' t' old
  · intro id' t' after
    rw [same]
    rcases found id' t' after with ⟨_, now, isNow, rfl⟩ | ⟨_, old⟩
    · exact (arrives now isNow).held
    · exact settled.held id' t' old
  · intro id' t' after passed
    rcases found id' t' after with ⟨_, now, isNow, rfl⟩ | ⟨_, old⟩
    · exact (arrives now isNow).passed passed
    · exact remembered _ _ (settled.passed id' t' old passed)
  · intro id' t' after executes
    rcases found id' t' after with ⟨_, now, isNow, rfl⟩ | ⟨other, old⟩
    · exact (arrives now isNow).executing executes
    · exact { settled.executing id' t' old executes with
        pending := pending id' t' other old executes }
  · intro id₁ t₁ id₂ t₂ after₁ after₂ executes passed key
    rcases found id₁ t₁ after₁ with ⟨rfl, now₁, isNow₁, rfl⟩ | ⟨_, old₁⟩
    · rcases found id₂ t₂ after₂ with ⟨rfl, _⟩ | ⟨_, old₂⟩
      · rfl
      · rcases (arrives now₁ isNow₁).first executes with before | fresh
        · exact settled.alone _ t id₂ t₂ current old₂ before passed key
        · exact absurd key (fresh id₂ t₂ old₂ passed)
    · rcases found id₂ t₂ after₂ with ⟨rfl, now₂, isNow₂, rfl⟩ | ⟨_, old₂⟩
      · rcases (arrives now₂ isNow₂).behind passed with before | free
        · exact settled.alone id₁ t₁ _ t old₁ current executes before key
        · exact absurd key (free id₁ t₁ old₁ executes)
      · exact settled.alone id₁ t₁ id₂ t₂ old₁ old₂ executes passed key

/-- The windows stay. -/
theorem Settled.goto (settled : Settled nonce replied issued s) (current : s.threads id = some t)
    (pc : Option (Pc ι Local))
    (threads : next.threads = Function.update s.threads id (pc.map fun pc => { t with pc }))
    (same : next.nonce = s.nonce) (windows : next.replyWindow = s.replyWindow)
    (conns : ∀ n c, next.conns n = some c → nonce c.client = n)
    (held : ∀ now ∈ pc, PcSettled nonce s.nonce t.req now)
    (passed : ∀ now ∈ pc, Passed now → Passed t.pc)
    (executes : ∀ now ∈ pc, Executes now → Executes t.pc) :
    Settled nonce replied issued next := by
  apply settled.move current pc threads same
  · rw [windows]
    exact settled.windows
  · rw [windows]
    exact fun _ _ kept => kept
  · rw [windows]
    exact fun id' t' _ found executes => (settled.executing id' t' found executes).pending
  · exact conns
  · intro now isNow
    refine ⟨held now isNow, ?_, ?_, ?_, ?_⟩
    · rw [windows]
      exact fun after => settled.passed id t current (passed now isNow after)
    · rw [windows]
      exact fun after => settled.executing id t current (executes now isNow after)
    · exact fun after => Or.inl (executes now isNow after)
    · exact fun after => Or.inl (passed now isNow after)

/-- The request was checked, and the thread goes behind the check. -/
theorem Settled.checked (settled : Settled nonce replied issued s)
    (current : s.threads id = some t)
    (acknowledged : ∀ x, x ≠ 0 → x ≤ t.req.xidRep → replied t.req.cltNonce x)
    {state : RpcState Answer} {window : List (ReplyT Answer)}
    (checked : Classified (trim t.req.xidRep (s.replyWindow t.req.cltNonce)) t.req.xid state window)
    (pc : Option (Pc ι Local))
    (threads : next.threads = Function.update s.threads id (pc.map fun pc => { t with pc }))
    (same : next.nonce = s.nonce) (conns : next.conns = s.conns)
    (windows : next.replyWindow = Function.update s.replyWindow t.req.cltNonce window)
    (held : ∀ now ∈ pc, PcSettled nonce s.nonce t.req now)
    (executing : ∀ now ∈ pc, Executes now → state = .new ∧
      t.req.xid ≠ 0 ∧ ¬ replied t.req.cltNonce t.req.xid)
    (answered : ∀ now ∈ pc, state ≠ .inprogress) :
    Settled nonce replied issued next := by
  have after : next.replyWindow t.req.cltNonce = window := by
    rw [windows, Function.update_self]
  have trimmed := trim_ascending t.req.xidRep (settled.windows.ascending t.req.cltNonce)
  apply settled.move current pc threads same
  · rw [windows]
    exact settled.windows.check acknowledged checked
  · rw [windows]
    exact fun n x => settled.windows.remembered_check acknowledged checked
  · intro id' t' _ found executes
    have unanswered := settled.executing id' t' found executes
    rw [windows]
    exact pending_check acknowledged checked unanswered.pending unanswered.nonzero
      unanswered.unanswered
  · rw [conns]
    exact settled.conns
  · intro now isNow
    -- a request that is executed elsewhere would be in progress
    have free : ∀ id' t', s.threads id' = some t' → Executes t'.pc → t'.req.key ≠ t.req.key := by
      intro id' t' found executes key
      rw [Request.key, Request.key, Prod.mk.injEq] at key
      have unanswered := settled.executing id' t' found executes
      have stays : t.req.xidRep ≤ t'.req.xid := by
        by_contra below
        apply unanswered.unanswered
        rw [key.1]
        exact acknowledged _ unanswered.nonzero (Nat.le_of_not_le below)
      have pending := unanswered.pending.trim stays
      rw [key.1, key.2] at pending
      exact answered now isNow (pending.inprogress trimmed checked)
    refine ⟨held now isNow, ?_, ?_, ?_, fun _ => Or.inr free⟩
    · rw [after]
      exact fun _ => checked.remembered
    · intro executes
      rcases executing now isNow executes with ⟨rfl, positive, unanswered⟩
      refine ⟨positive, unanswered, ?_⟩
      rw [after]
      exact ⟨_, checked.new_mem, rfl, rfl⟩
    · intro executes
      rcases executing now isNow executes with ⟨rfl, _, _⟩
      right
      intro id' t' found passed key
      rw [Request.key, Request.key, Prod.mk.injEq] at key
      have remembered := settled.passed id' t' found passed
      rw [← key.1, ← key.2] at remembered
      exact (settled.windows.remembered_trim acknowledged remembered).not_new checked

theorem invoke_settled (nonce : ι → Nat) (srvNonce : Nat) (service : Service σ Local) (r : Request) :
    PcSettled nonce srvNonce r (.handling (if r.proc = RpcConst.bind then .rpcbind
      else .user (service.invoke r.proc r.payload)) : Pc ι Local) := by
  split
  · trivial
  · next other => exact other

/-- A request that is new was never answered. -/
theorem Settled.unanswered_of_new (settled : Settled nonce replied issued s)
    (relies : Relies nonce replied s.nonce issued) {conn : ι} {r : Request}
    (known : r ∈ issued conn) {window : List (ReplyT Answer)}
    (checked : Classified (trim r.xidRep (s.replyWindow r.cltNonce)) r.xid .new window) :
    r.xid ≠ 0 ∧ ¬ replied r.cltNonce r.xid := by
  have acknowledged := relies.acknowledged _ _ known
  constructor
  · intro zero
    rw [zero] at checked
    by_cases bind : r.proc = RpcConst.bind
    · have one := relies.first _ _ known bind
      omega
    · have remembered := settled.windows.remembered _ _ (relies.later _ _ known bind)
      exact (settled.windows.remembered_trim acknowledged remembered).zero_not_new checked
  · intro sent
    have remembered := settled.windows.remembered _ _ sent
    exact (settled.windows.remembered_trim acknowledged remembered).not_new checked

/-- A duplicate gets a reply to its xid. -/
theorem Settled.repliesTo_of_done (settled : Settled nonce replied issued s) {r : Request}
    {a : Answer} {window : List (ReplyT Answer)}
    (checked : Classified (trim r.xidRep (s.replyWindow r.cltNonce)) r.xid (.done a) window) :
    RepliesTo s.nonce r.xid a := by
  rcases checked.of_done with ⟨e, present, same, buffered⟩
  rw [← same]
  exact settled.windows.answers _ e (mem_trim.mp present).1 a buffered

theorem Settled.dispatched (settled : Settled nonce replied issued s)
    (relies : Relies nonce replied s.nonce issued) (current : s.threads id = some t)
    {service : Service σ Local} {sent : Option (Message ι)}
    (step : Dispatched service s id t next sent) : Settled nonce replied issued next := by
  have mine := settled.known id t current
  have held := settled.held id t current
  have nonzero := (relies.cltNonce _ _ mine).2
  have acknowledged := relies.acknowledged _ _ mine
  have checked := checkduplicateAndUpdate_classified t.req.xid t.req.xidRep
    (settled.windows.ascending t.req.cltNonce)
  cases step with
  | refused place old =>
      rcases relies.srvNonce _ _ mine with zero | same
      · exact absurd zero old.1
      · exact absurd same old.2
  | untracked place zero => exact absurd zero nonzero
  | unregistered =>
      exact settled.goto current none rfl rfl rfl settled.conns nofun nofun nofun
  | admitted =>
      exact settled.goto current (some .saving) rfl rfl rfl settled.conns
        (by rintro _ ⟨⟩; trivial) (by rintro _ ⟨⟩ ⟨⟩) (by rintro _ ⟨⟩ ⟨⟩)
  | saved place conns latest =>
      refine settled.goto current (some .checking) rfl rfl rfl ?_
        (by rintro _ ⟨⟩; trivial) (by rintro _ ⟨⟩ ⟨⟩) (by rintro _ ⟨⟩ ⟨⟩)
      intro n c found
      rcases latest n c found with old | ⟨rfl, rfl⟩
      · exact settled.conns n c old
      · exact (relies.cltNonce _ _ mine).1.symm
  | new place window result =>
      rw [result] at checked
      refine settled.checked current acknowledged checked (some _) rfl rfl rfl rfl ?_ ?_
        (fun _ _ => nofun)
      · rintro _ ⟨⟩
        exact invoke_settled nonce s.nonce service t.req
      · exact fun _ _ _ => ⟨rfl, settled.unanswered_of_new relies mine checked⟩
  | inprogress place window result =>
      rw [result] at checked
      exact settled.checked current acknowledged checked none rfl rfl rfl rfl
        nofun nofun nofun
  | done place window a result =>
      rw [result] at checked
      refine settled.checked current acknowledged checked (some (.sending t.conn a))
        rfl rfl rfl rfl ?_ (by rintro _ ⟨⟩ ⟨⟩) (fun _ _ => nofun)
      rintro _ ⟨⟩
      exact ⟨settled.repliesTo_of_done checked, (relies.cltNonce _ _ mine).1.symm⟩
  | forgotten place window result =>
      rw [result] at checked
      refine settled.checked current acknowledged checked (some _)
        rfl rfl rfl rfl ?_ (by rintro _ ⟨⟩ ⟨⟩) (fun _ _ => nofun)
      rintro _ ⟨⟩
      refine ⟨⟨rfl, fun _ success => ?_⟩, (relies.cltNonce _ _ mine).1.symm⟩
      exact absurd success (show ¬ RpcConst.atmostonceFailure = 0 by decide)
  | paused l place choice state later =>
      rw [place] at held
      refine settled.goto current (some (.handling (.user later))) rfl rfl rfl settled.conns ?_ ?_ ?_
      · rintro _ ⟨⟩
        exact held
      · rw [place]
        exact fun _ _ _ => trivial
      · rw [place]
        exact fun _ _ _ => trivial
  | returned l place choice state ret payload =>
      rw [place] at held
      have unanswered := settled.executing id t current (by rw [place]; trivial)
      refine settled.goto current (some (.replying _)) rfl rfl rfl settled.conns ?_ ?_ ?_
      · rintro _ ⟨⟩
        refine ⟨rfl, fun first => absurd ?_ unanswered.unanswered⟩
        have later := relies.later _ _ mine held
        rw [← show t.req.xid = 1 from first] at later
        exact later
      · rw [place]
        exact fun _ _ _ => trivial
      · rw [place]
        exact fun _ _ _ => trivial
  | bound place =>
      refine settled.goto current (some (.replying _)) rfl rfl rfl settled.conns ?_ ?_ ?_
      · rintro _ ⟨⟩
        refine ⟨rfl, fun _ success => ?_⟩
        have named := (rpcbind_names s.nonce { t.req with proc := RpcConst.bind }).bind rfl success
        exact named
      · rw [place]
        exact fun _ _ _ => trivial
      · rw [place]
        exact fun _ _ _ => trivial
  | recorded a place positive =>
      rw [place] at held
      refine settled.move current (some (.choosing a)) rfl rfl ?_ ?_ ?_ ?_ ?_
      · exact settled.windows.record held
      · exact fun n x => remembered_record a
      · intro id' t' other found executes
        have unanswered := settled.executing id' t' found executes
        refine pending_record a unanswered.pending fun key => ?_
        exact other (settled.alone id' t' id t found current executes (by rw [place]; trivial) key)
      · exact settled.conns
      · rintro _ ⟨⟩
        refine ⟨held, fun _ => ?_, nofun, nofun, fun _ => Or.inl (by rw [place]; trivial)⟩
        exact remembered_record a (settled.passed id t current (by rw [place]; trivial))
  | unrecorded a place =>
      rw [place] at held
      refine settled.goto current (some (.choosing a)) rfl rfl rfl settled.conns ?_ ?_
        (by rintro _ ⟨⟩ ⟨⟩)
      · rintro _ ⟨⟩
        exact held
      · rw [place]
        exact fun _ _ _ => trivial
  | chosen a place c choice =>
      rw [place] at held
      refine settled.goto current (some (.sending c a)) rfl rfl rfl settled.conns ?_ ?_
        (by rintro _ ⟨⟩ ⟨⟩)
      · rintro _ ⟨⟩
        refine ⟨held, ?_⟩
        rcases choice with rfl | latest
        · exact (relies.cltNonce _ _ mine).1.symm
        · exact settled.conns _ c latest
      · rw [place]
        exact fun _ _ _ => trivial
  | sent c a place =>
      exact settled.goto current none rfl rfl rfl settled.conns nofun nofun nofun

/-- What a thread sends replies to its request, which nobody executes. -/
theorem Settled.sent (settled : Settled nonce replied issued s) (current : s.threads id = some t)
    {service : Service σ Local} {m : Message ι}
    (step : Dispatched service s id t next (some m)) :
    (nonce m.dest, m.answer.reply.xid) = t.req.key ∧ Introduces s.nonce m.answer.reply ∧
      Remembered (next.replyWindow t.req.key.1) t.req.key.2 ∧
      ∀ id' t', next.threads id' = some t' → Executes t'.pc → t'.req.key ≠ t.req.key := by
  have held := settled.held id t current
  cases step with
  | sent c a place =>
      rw [place] at held
      have passed : Passed t.pc := by
        rw [place]
        trivial
      refine ⟨?_, held.1.introduces, settled.passed id t current passed, ?_⟩
      · rw [held.1.xid, held.2]
        rfl
      · intro id' t' found executes key
        rcases slot_emptied found with ⟨other, old⟩
        exact other (settled.alone id' t' id t old current executes passed key)

end Server

/-! ## The system -/

namespace System

variable {ι σ Local : Type}

/-- A client of this nonce was sent a reply for the xid. -/
def RepliedTo (nonce : ι → Nat) (s : System ι σ Local) (n x : Nat) : Prop :=
  ∃ m ∈ s.replies, (nonce m.dest, m.answer.reply.xid) = (n, x)

/-- A client calls `bind` first, no call of it returns before its reply is there,
and it does not cancel. -/
def Prompt (s : System ι σ Local) : Action ι → Prop
  | .call c proc _ => proc = RpcConst.bind → (s.clients c).issued = []
  | .finish c number => ¬ (s.clients c).Waiting number
  | .cancel _ => False
  | _ => True

structure Standing (nonce : ι → Nat) (s : System ι σ Local) : Prop where
  numbered : ∀ c, (s.clients c).Numbered (nonce c) (s.RepliedTo nonce (nonce c))
  introduced : ∀ c, (s.clients c).Introduced s.server.nonce (s.RepliedTo nonce (nonce c))
  requests : ∀ conn req, (conn, req) ∈ s.requests → req ∈ s.issued conn.client
  introduces : ∀ m ∈ s.replies, Introduces s.server.nonce m.answer.reply
  server : s.server.Settled nonce (s.RepliedTo nonce) s.issued
  range : s.server.nonce < 2 ^ 32

variable {nonce : ι → Nat} {s next : System ι σ Local}

theorem Standing.relies (standing : Standing nonce s) (nonzero : ∀ c, nonce c ≠ 0) :
    Server.Relies nonce (s.RepliedTo nonce) s.server.nonce s.issued where
  cltNonce c r member := by
    rw [(standing.numbered c).nonce r member]
    exact ⟨rfl, nonzero c⟩
  srvNonce c r member := by
    by_cases bind : r.proc = RpcConst.bind
    · exact Or.inl ((standing.introduced c).binds r member bind).2
    · exact Or.inr ((standing.introduced c).packed r member bind).2
  acknowledged c r member := by
    rw [(standing.numbered c).nonce r member]
    exact (standing.numbered c).acknowledged r member
  first c r member bind := ((standing.introduced c).binds r member bind).1
  later c r member other := by
    rw [(standing.numbered c).nonce r member]
    exact ((standing.introduced c).packed r member other).1

/-- The call whose request is executed stands. -/
theorem Standing.call_of_executes (standing : Standing nonce s) {id : Nat} {t : Thread ι Local}
    (current : s.server.threads id = some t) (executes : Server.Executes t.pc) :
    ∃ number ca, (s.clients t.conn.client).callers number = some ca ∧ ca.req = t.req := by
  have unanswered := standing.server.executing id t current executes
  have mine : t.req ∈ (s.clients t.conn.client).issued := standing.server.known id t current
  have numbered := standing.numbered t.conn.client
  rcases List.mem_iff_getElem?.mp mine with ⟨k, found⟩
  rcases numbered.standing k t.req found with answered | ⟨ca, called, req⟩
  · rw [← numbered.nonce t.req mine] at answered
    exact absurd answered unanswered.unanswered
  · exact ⟨k + 1, ca, called, req⟩

variable [DecidableEq ι] {service : Service σ Local}

theorem initial_standing {srvNonce : Nat} (small : srvNonce < 2 ^ 32) :
    Standing nonce (machine nonce service srvNonce).initial where
  numbered _ := Client.initial_numbered
  introduced _ := Client.initial_introduced
  requests _ _ member := nomatch member
  introduces _ member := nomatch member
  server := Server.initial_settled _ _ (fun _ _ ⟨_, member, _⟩ => nomatch member)
  range := small

/-- A client takes a step that keeps its invariants. -/
theorem Standing.setClient (standing : Standing nonce s) {c : ι} {cl : Client}
    (numbered : cl.Numbered (nonce c) (s.RepliedTo nonce (nonce c)))
    (introduced : cl.Introduced s.server.nonce (s.RepliedTo nonce (nonce c)))
    (grown : (s.clients c).issued ⊆ cl.issued) : Standing nonce (s.setClient c cl) := by
  have more := issued_setClient grown
  refine ⟨?_, ?_, ?_, standing.introduces, standing.server.mono more, standing.range⟩
  · exact forall_setClient (fun other cl => cl.Numbered (nonce other)
      (s.RepliedTo nonce (nonce other))) numbered standing.numbered
  · exact forall_setClient (fun other cl => cl.Introduced s.server.nonce
      (s.RepliedTo nonce (nonce other))) introduced standing.introduced
  · intro conn req sent
    exact more _ (standing.requests conn req sent)

theorem Standing.step (standing : Standing nonce s) (nonzero : ∀ c, nonce c ≠ 0)
    {action : Action ι} (prompt : Prompt s action)
    (stepped : Stepped nonce service s action next) : Standing nonce next := by
  cases stepped with
  | call c proc payload cl done =>
      apply standing.setClient ((standing.numbered c).call1 done)
        ((standing.introduced c).call1 (standing.numbered c) prompt done)
      rcases Client.call1_eq done with ⟨_, _, rfl⟩
      exact List.subset_append_left _ _
  | transmit c number serial createTime ca current =>
      refine { standing with requests := ?_ }
      intro conn req sent
      rcases List.mem_append.mp sent with old | new
      · exact standing.requests conn req old
      · cases List.mem_singleton.mp new
        exact ((standing.numbered c).callers number ca current).1
  | gotReply c m sent dest =>
      subst dest
      apply standing.setClient ((standing.numbered m.dest).gotPdu ⟨m, sent, rfl⟩)
        ((standing.introduced m.dest).gotPdu (standing.numbered m.dest) (standing.introduces m sent))
      rw [Client.issued_gotPdu]
      exact List.Subset.refl _
  | finish c number cl done =>
      apply standing.setClient ((standing.numbered c).finish prompt done)
        ((standing.introduced c).finish (standing.numbered c) prompt done)
      rw [(Client.finish_histories done).1]
      exact List.Subset.refl _
  | bind c ret cl done =>
      apply standing.setClient ((standing.numbered c).bind done)
        ((standing.introduced c).bind standing.range done)
      rcases Client.bind_eq done with ⟨_, _, _, rfl⟩
      exact List.Subset.refl _
  | cancel => exact prompt.elim
  | gotRequest id conn req server sent done =>
      have kept := standing.server.gotPdu (standing.requests conn req sent) done
      rcases Server.gotPdu_eq done with ⟨_, rfl⟩
      exact ⟨standing.numbered, standing.introduced, standing.requests, standing.introduces, kept,
        standing.range⟩
  | dispatch id choice isdead server sent t current done =>
      have kept := standing.server.dispatched (standing.relies nonzero) current done
      have same := done.nonce_eq
      cases sent with
      | none =>
          change Standing nonce { s with server, replies := s.replies ++ [] }
          rw [List.append_nil]
          refine ⟨standing.numbered, ?_, standing.requests, ?_, kept, same ▸ standing.range⟩
          · rw [same]
            exact standing.introduced
          · rw [same]
            exact standing.introduces
      | some m =>
          change Standing nonce { s with server, replies := s.replies ++ [m] }
          rcases standing.server.sent current done with ⟨key, introduces, remembered, away⟩
          have more : ∀ n x, s.RepliedTo nonce n x →
              { s with server, replies := s.replies ++ [m] }.RepliedTo nonce n x := by
            rintro n x ⟨m', sent, reply⟩
            exact ⟨m', List.mem_append_left _ sent, reply⟩
          refine ⟨?_, ?_, standing.requests, ?_, ?_, same ▸ standing.range⟩
          · exact fun c => (standing.numbered c).mono (more _)
          · rw [same]
            exact fun c => (standing.introduced c).mono (more _)
          · rw [same]
            intro m' member
            rcases List.mem_append.mp member with old | new
            · exact standing.introduces m' old
            · cases List.mem_singleton.mp new
              exact introduces
          · refine kept.reply t.req.key ?_ remembered away
            rintro n x ⟨m', member, reply⟩
            rcases List.mem_append.mp member with old | new
            · exact Or.inl ⟨m', old, reply⟩
            · cases List.mem_singleton.mp new
              exact Or.inr (reply.symm.trans key)

end System

end YfsRpc.Rpc
