import YfsRpc.Rpc.Server
import Mathlib.Tactic.Linarith

/-! # Invariants of the server

The server hears of the requests that clients issued, and of no others. For
each client it remembers in the reply window which xids it has classified as
new: an xid is either in the window, or the window is not empty and starts
behind it. So no xid is new twice.
-/

namespace YfsRpc.Rpc

variable {ι σ Local : Type}

/-- What the server relies on about the requests of the clients. -/
structure Issued (nonce : ι → Nat) (issued : ι → List Request) : Prop where
  cltNonce : ∀ c, ∀ r ∈ issued c, r.cltNonce = nonce c
  xidRep : ∀ c, ∀ r ∈ issued c, r.xidRep < r.xid
  unique : ∀ c, ∀ r ∈ issued c, ∀ r' ∈ issued c, r.xid = r'.xid → r = r'

/-- The reply is what an execution of the request produced. -/
structure Executed (finished : List Execution) (a : Answer) : Prop where
  xid : a.reply.xid = a.cause.xid
  result : { req := a.cause, ret := a.reply.ret, payload := a.reply.payload } ∈ finished

theorem Executed.mono {finished now : List Execution} {a : Answer}
    (executed : Executed finished a) (more : finished ⊆ now) : Executed now a :=
  ⟨executed.xid, more executed.result⟩

/-- The reply is for the request, and if it is not a failure then an execution
of the request produced it. -/
structure Genuine (finished : List Execution) (a : Answer) : Prop where
  xid : a.reply.xid = a.cause.xid
  result : 0 ≤ a.reply.ret →
    { req := a.cause, ret := a.reply.ret, payload := a.reply.payload } ∈ finished

theorem Genuine.mono {finished now : List Execution} {a : Answer}
    (genuine : Genuine finished a) (more : finished ⊆ now) : Genuine now a :=
  ⟨genuine.xid, fun valid => more (genuine.result valid)⟩

theorem Executed.genuine {finished : List Execution} {a : Answer}
    (executed : Executed finished a) : Genuine finished a :=
  ⟨executed.xid, fun _ => executed.result⟩

theorem refuse_genuine (finished : List Execution) (req : Request) {ret : Int}
    (failure : ret < 0) : Genuine finished (Server.refuse req ret) :=
  ⟨rfl, fun valid => absurd failure (Int.not_lt.mpr valid)⟩

namespace Server

/-! ## The reply windows -/

/-- The windows, given which xids were new and which handlers returned. -/
structure Windows (issued : ι → List Request) (news : List (Nat × Nat))
    (finished : List Execution) (replyWindow : Nat → List (ReplyT Answer)) : Prop where
  ascending : ∀ n, StrictlyAscending ReplyT.xid (replyWindow n)
  entries : ∀ n, ∀ e ∈ replyWindow n, (n, e.xid) ∈ news
  answers : ∀ n, ∀ e ∈ replyWindow n, ∀ a, e.buf = some a →
    a.cause.key = (n, e.xid) ∧ (∃ c, a.cause ∈ issued c) ∧ Executed finished a
  remembered : ∀ n x, (n, x) ∈ news → (∃ e ∈ replyWindow n, e.xid = x) ∨
    (replyWindow n ≠ [] ∧ ∀ e ∈ replyWindow n, x < e.xid)

variable {issued : ι → List Request} {news : List (Nat × Nat)} {finished : List Execution}
  {replyWindow : Nat → List (ReplyT Answer)}

theorem Windows.mono {now : ι → List Request} {later : List Execution}
    (windows : Windows issued news finished replyWindow)
    (grown : ∀ c, issued c ⊆ now c) (more : finished ⊆ later) :
    Windows now news later replyWindow where
  ascending := windows.ascending
  entries := windows.entries
  answers := by
    intro n e member a buffered
    rcases windows.answers n e member a buffered with ⟨key, ⟨c, known⟩, executed⟩
    exact ⟨key, ⟨c, grown c known⟩, executed.mono more⟩
  remembered := windows.remembered

/-- A request that is new has a larger xid than all those the window starts behind. -/
theorem new_beyond {before after : List (ReplyT Answer)} {xid xidRep x : Nat}
    (older : xidRep < xid) (classified : Classified (trim xidRep before) xid .new after)
    (ne_nil : before ≠ []) (larger : ∀ e ∈ before, x < e.xid) : x < xid := by
  cases trimmed : trim xidRep before with
  | nil =>
      -- every entry was acknowledged, and so was `x` before them
      rcases List.exists_mem_of_ne_nil _ ne_nil with ⟨first, present⟩
      have beyond := larger first present
      have absent : first ∉ trim xidRep before := by
        rw [trimmed]
        exact List.not_mem_nil
      have old := mt mem_trim.mpr absent
      simp only [present, true_and] at old
      omega
  | cons first rest =>
      have present : first ∈ trim xidRep before := by
        rw [trimmed]
        exact List.mem_cons_self
      have beyond := larger first (mem_trim.mp present).1
      have small := classified.of_new.2.2 first (by rw [trimmed]; rfl)
      omega

/-- The windows after the duplicate check of a request. -/
theorem Windows.classified (windows : Windows issued news finished replyWindow) {r : Request}
    (older : r.xidRep < r.xid) {stat : RpcState Answer} {window : List (ReplyT Answer)}
    (classified : Classified (trim r.xidRep (replyWindow r.cltNonce)) r.xid stat window)
    {now : List (Nat × Nat)} (kept : news ⊆ now)
    (grown : ∀ key ∈ now, key ∈ news ∨ (key = r.key ∧ stat = .new))
    (new : stat = .new → r.key ∈ now) :
    Windows issued now finished (Function.update replyWindow r.cltNonce window) where
  ascending := ascending_checked classified windows.ascending
  entries := by
    intro n e member
    rcases mem_checked classified member with old | ⟨rfl, rfl, isNew⟩
    · exact kept (windows.entries n e old)
    · exact new isNew
  answers := by
    intro n e member a buffered
    rcases mem_checked classified member with old | ⟨_, rfl, _⟩
    · exact windows.answers n e old a buffered
    · contradiction
  remembered := by
    intro n x member
    by_cases here : n = r.cltNonce
    · subst here
      rw [Function.update_self]
      rcases grown _ member with old | ⟨same, isNew⟩
      · rcases windows.remembered _ x old with ⟨e, present, same⟩ | ⟨ne_nil, larger⟩
        · by_cases acknowledged : r.xidRep ≤ x
          · left
            exact ⟨e, classified.keeps (mem_trim.mpr ⟨present, by omega⟩), same⟩
          · -- the entry was trimmed: what is left is behind it
            right
            refine ⟨classified.ne_nil, fun z found => ?_⟩
            rcases classified.mem found with stays | ⟨rfl, _⟩
            · have behind := (mem_trim.mp stays).2
              omega
            · change x < r.xid
              omega
        · right
          refine ⟨classified.ne_nil, fun z found => ?_⟩
          rcases classified.mem found with stays | ⟨rfl, isNew⟩
          · exact larger z (mem_trim.mp stays).1
          · change x < r.xid
            subst isNew
            exact new_beyond older classified ne_nil larger
      · left
        subst isNew
        rw [Request.key, Prod.mk.injEq] at same
        exact ⟨_, classified.new_mem, same.2.symm⟩
    · rw [Function.update_of_ne here]
      rcases grown _ member with old | ⟨same, _⟩
      · exact windows.remembered n x old
      · rw [Request.key, Prod.mk.injEq] at same
        exact absurd same.1 here

/-- An xid that was new is not classified as new again. -/
theorem Windows.fresh_of_new (windows : Windows issued news finished replyWindow) {r : Request}
    (older : r.xidRep < r.xid) {window : List (ReplyT Answer)}
    (classified : Classified (trim r.xidRep (replyWindow r.cltNonce)) r.xid .new window) :
    r.key ∉ news := by
  intro member
  rcases windows.remembered _ _ member with ⟨e, present, same⟩ | ⟨ne_nil, larger⟩
  · exact classified.of_new.2.1 e (mem_trim.mpr ⟨present, by omega⟩) same
  · exact absurd (new_beyond older classified ne_nil larger) (Nat.lt_irrefl _)

/-- Recording the reply of a request. -/
theorem Windows.record (windows : Windows issued news finished replyWindow) {r : Request}
    {a : Answer} (cause : a.cause = r) {c : ι} (known : r ∈ issued c)
    (executed : Executed finished a) :
    Windows issued news finished (Function.update replyWindow r.cltNonce
      (addReply r.xid a (replyWindow r.cltNonce))) where
  ascending := ascending_recorded windows.ascending
  entries := by
    intro n e member
    rcases mem_recorded windows.ascending member with ⟨old, _⟩ | ⟨rfl, rfl, old, found, same⟩
    · exact windows.entries n e old
    · rw [← same]
      exact windows.entries _ old found
  answers := by
    intro n e member b buffered
    rcases mem_recorded windows.ascending member with ⟨old, _⟩ | ⟨rfl, rfl, _⟩
    · exact windows.answers n e old b buffered
    · cases buffered
      refine ⟨by rw [cause]; rfl, ⟨c, ?_⟩, executed⟩
      rw [cause]
      exact known
  remembered := by
    intro n x member
    by_cases here : n = r.cltNonce
    · subst here
      rw [Function.update_self]
      exact Remembered.addReply (windows.remembered _ x member) a
    · rw [Function.update_of_ne here]
      exact windows.remembered n x member

/-! ## The threads -/

/-- The thread is in the handler. -/
def Handles (t : Thread ι Local) : Prop := ∃ h, t.pc = .handling h

/-- What a thread has in its hands. -/
def PcInv (issued : ι → List Request) (begun : List Request) (finished : List Execution)
    (req : Request) : Pc ι Local → Prop
  | .received | .saving | .checking => True
  | .handling _ => req ∈ begun ∧ req ∉ finished.map Execution.req
  | .replying a | .choosing a => a.cause = req ∧ req ∈ begun ∧ Executed finished a
  | .sending c a => a.cause ∈ issued c.client ∧ Genuine finished a

structure Threads (issued : ι → List Request) (begun : List Request)
    (finished : List Execution) (threads : Nat → Option (Thread ι Local)) : Prop where
  known : ∀ id t, threads id = some t → t.req ∈ issued t.conn.client
  pcs : ∀ id t, threads id = some t → PcInv issued begun finished t.req t.pc
  alone : ∀ id t id' t', threads id = some t → threads id' = some t' →
    Handles t → Handles t' → t.req = t'.req → id = id'

variable {begun : List Request} {threads : Nat → Option (Thread ι Local)}

/-- Only a thread in a handler minds that another handler returns. -/
theorem PcInv.mono {now : ι → List Request} {later : List Request} {after : List Execution}
    {req : Request} {pc : Pc ι Local} (inv : PcInv issued begun finished req pc)
    (grown : ∀ c, issued c ⊆ now c) (moreBegun : begun ⊆ later) (more : finished ⊆ after)
    (running : (∃ h, pc = .handling h) → req ∉ after.map Execution.req) :
    PcInv now later after req pc := by
  cases pc with
  | received | saving | checking => trivial
  | handling h => exact ⟨moreBegun inv.1, running ⟨h, rfl⟩⟩
  | replying a | choosing a => exact ⟨inv.1, moreBegun inv.2.1, inv.2.2.mono more⟩
  | sending c a => exact ⟨grown c.client inv.1, inv.2.mono more⟩

theorem Threads.mono {now : ι → List Request}
    (inv : Threads issued begun finished threads) (grown : ∀ c, issued c ⊆ now c) :
    Threads now begun finished threads where
  known := fun id t current => grown _ (inv.known id t current)
  pcs := by
    intro id t current
    apply (inv.pcs id t current).mono grown (List.Subset.refl _) (List.Subset.refl _)
    rintro ⟨h, handling⟩
    have held := inv.pcs id t current
    rw [handling] at held
    exact held.2
  alone := inv.alone

/-- A thread takes a step, and is possibly gone after it. -/
theorem Threads.step (inv : Threads issued begun finished threads) {id : Nat}
    {t : Thread ι Local} (current : threads id = some t) (next : Option (Pc ι Local))
    {later : List Request} {after : List Execution} (moreBegun : begun ⊆ later) (more : finished ⊆ after)
    (others : ∀ id' t', id' ≠ id → threads id' = some t' → Handles t' →
      t'.req ∉ after.map Execution.req)
    (pc : ∀ pc ∈ next, PcInv issued later after t.req pc)
    (enters : ∀ h, next = some (.handling h) → ∀ id' t', id' ≠ id → threads id' = some t' →
      Handles t' → t'.req ≠ t.req) :
    Threads issued later after
      (Function.update threads id (next.map fun pc => { t with pc })) := by
  refine ⟨?_, ?_, ?_⟩
  · intro id' t' found
    rcases thread_moved found with ⟨_, _, _, rfl⟩ | ⟨_, before⟩
    · exact inv.known id t current
    · exact inv.known id' t' before
  · intro id' t' found
    rcases thread_moved found with ⟨_, now, moved, rfl⟩ | ⟨away, before⟩
    · exact pc now moved
    · exact (inv.pcs id' t' before).mono (fun _ _ known => known) moreBegun more
        (others id' t' away before)
  · intro first t₁ second t₂ found₁ found₂ handles₁ handles₂ same
    rcases thread_moved found₁ with ⟨rfl, pc₁, moved₁, rfl⟩ | ⟨away₁, before₁⟩
    · rcases thread_moved found₂ with ⟨rfl, _⟩ | ⟨away₂, before₂⟩
      · rfl
      · rcases handles₁ with ⟨h, rfl⟩
        exact absurd same.symm (enters h moved₁ second t₂ away₂ before₂ handles₂)
    · rcases thread_moved found₂ with ⟨rfl, pc₂, moved₂, rfl⟩ | ⟨away₂, before₂⟩
      · rcases handles₂ with ⟨h, rfl⟩
        exact absurd same (enters h moved₂ first t₁ away₁ before₁ handles₁)
      · exact inv.alone first t₁ second t₂ before₁ before₂ handles₁ handles₂ same

/-! ## The histories -/

structure History (issued : ι → List Request) (news : List (Nat × Nat))
    (begun : List Request) (finished : List Execution) : Prop where
  news_nodup : news.Nodup
  keys : begun.map Request.key = news
  known : ∀ r ∈ begun, ∃ c, r ∈ issued c
  returned : ∀ ex ∈ finished, ex.req ∈ begun
  once : (finished.map Execution.req).Nodup

structure Inv (nonce : ι → Nat) (issued : ι → List Request) (s : Server ι σ Local) : Prop where
  windows : Windows issued s.news s.finished s.replyWindow
  threads : Threads issued s.begun s.finished s.threads
  history : History issued s.news s.begun s.finished
  conns : ∀ n c, s.conns n = some c → nonce c.client = n

theorem initial_inv (nonce : ι → Nat) (issued : ι → List Request) (service : σ)
    (srvNonce : Nat) :
    Inv nonce issued ({ nonce := srvNonce, service } : Server ι σ Local) where
  windows := ⟨fun _ => List.Pairwise.nil, nofun, nofun, nofun⟩
  threads := ⟨nofun, nofun, nofun⟩
  history := ⟨List.nodup_nil, rfl, nofun, nofun, List.nodup_nil⟩
  conns := nofun

theorem Inv.mono {nonce : ι → Nat} {now : ι → List Request} {s : Server ι σ Local}
    (inv : Inv nonce issued s) (grown : ∀ c, issued c ⊆ now c) : Inv nonce now s where
  windows := inv.windows.mono grown (List.Subset.refl _)
  threads := inv.threads.mono grown
  history := {
    inv.history with
    known := by
      intro r member
      rcases inv.history.known r member with ⟨c, known⟩
      exact ⟨c, grown c known⟩ }
  conns := inv.conns

theorem Threads.handling (inv : Threads issued begun finished threads) {id : Nat}
    {t : Thread ι Local} (current : threads id = some t) (handles : Handles t) :
    t.req ∈ begun ∧ t.req ∉ finished.map Execution.req := by
  rcases handles with ⟨h, handling⟩
  have held := inv.pcs id t current
  rw [handling] at held
  exact held

/-! ## The steps of a thread -/

section Dispatch

variable {nonce : ι → Nat} {s next : Server ι σ Local} {id : Nat} {t : Thread ι Local}

/-- A thread moves to a place where it is not in a handler. -/
theorem Inv.goto (inv : Inv nonce issued s) (current : s.threads id = some t)
    (pc : Pc ι Local) (away : ∀ h, pc ≠ .handling h)
    (held : PcInv issued s.begun s.finished t.req pc) : Inv nonce issued (s.goto id t pc) where
  windows := inv.windows
  threads := by
    apply inv.threads.step current (some pc) (List.Subset.refl _) (List.Subset.refl _)
    · intro id' t' _ before handles
      exact (inv.threads.handling before handles).2
    · intro pc' same
      cases same
      exact held
    · intro h same
      exact absurd (Option.some_inj.mp same) (away h)
  history := inv.history
  conns := inv.conns

theorem Inv.exit (inv : Inv nonce issued s) (current : s.threads id = some t) :
    Inv nonce issued (s.exit id) where
  windows := inv.windows
  threads := by
    apply inv.threads.step current none (List.Subset.refl _) (List.Subset.refl _)
    · intro id' t' _ before handles
      exact (inv.threads.handling before handles).2
    · nofun
    · nofun
  history := inv.history
  conns := inv.conns

theorem issued_eq_of_key (known : Issued nonce issued) (distinct : Function.Injective nonce)
    {c c' : ι} {r r' : Request} (left : r ∈ issued c) (right : r' ∈ issued c')
    (same : r.key = r'.key) : c = c' ∧ r = r' := by
  rw [Request.key, Request.key, Prod.mk.injEq] at same
  have client : c = c' := by
    apply distinct
    rw [← known.cltNonce c r left, ← known.cltNonce c' r' right]
    exact same.1
  subst client
  exact ⟨rfl, known.unique c r left r' right same.2⟩

theorem Inv.gotPdu (inv : Inv nonce issued s) {conn : Conn ι} {req : Request}
    (known : req ∈ issued conn.client) (done : s.gotPdu id conn req = some next) :
    Inv nonce issued next := by
  rcases gotPdu_eq done with ⟨_, rfl⟩
  have idle : ¬ Handles ({ conn, req, pc := .received } : Thread ι Local) := by
    rintro ⟨h, same⟩
    contradiction
  refine ⟨inv.windows, ⟨?_, ?_, ?_⟩, inv.history, inv.conns⟩
  · intro id' t' found
    rcases slot_filled found with ⟨_, rfl⟩ | ⟨_, old⟩
    · exact known
    · exact inv.threads.known id' t' old
  · intro id' t' found
    rcases slot_filled found with ⟨_, rfl⟩ | ⟨_, old⟩
    · trivial
    · exact inv.threads.pcs id' t' old
  · intro first t₁ second t₂ found₁ found₂ handles₁ handles₂ same
    rcases slot_filled found₁ with ⟨_, rfl⟩ | ⟨_, old₁⟩
    · contradiction
    · rcases slot_filled found₂ with ⟨_, rfl⟩ | ⟨_, old₂⟩
      · contradiction
      · exact inv.threads.alone first t₁ second t₂ old₁ old₂ handles₁ handles₂ same

/-- The duplicate check of a known request changes the window only. -/
theorem Inv.updateWindow (inv : Inv nonce issued s) {r : Request} (older : r.xidRep < r.xid)
    {stat : RpcState Answer} {window : List (ReplyT Answer)}
    (classified : Classified (trim r.xidRep (s.replyWindow r.cltNonce)) r.xid stat window)
    (old : stat ≠ .new) : Inv nonce issued (s.updateWindow r.cltNonce window) where
  windows := inv.windows.classified older classified (List.Subset.refl _) (fun _ => Or.inl)
    fun new => absurd new old
  threads := inv.threads
  history := inv.history
  conns := inv.conns

/-- A new request is one whose handler was not called before. -/
theorem Inv.new (inv : Inv nonce issued s) (current : s.threads id = some t)
    (service : Service σ Local) (older : t.req.xidRep < t.req.xid)
    {window : List (ReplyT Answer)}
    (classified : Classified (trim t.req.xidRep (s.replyWindow t.req.cltNonce)) t.req.xid .new
      window) :
    Inv nonce issued ({ s.updateWindow t.req.cltNonce window with
      news := s.news ++ [t.req.key] }.invoke service id t) := by
  have mine := inv.threads.known id t current
  have fresh := inv.windows.fresh_of_new older classified
  have unknown : t.req ∉ s.begun := by
    intro member
    rw [← inv.history.keys] at fresh
    exact fresh (List.mem_map_of_mem member)
  refine ⟨?_, ?_, ?_, inv.conns⟩
  · apply inv.windows.classified older classified (List.subset_append_left _ _)
    · intro key member
      rcases List.mem_append.mp member with old | new
      · exact Or.inl old
      · exact Or.inr ⟨List.mem_singleton.mp new, rfl⟩
    · exact fun _ => List.mem_append_right _ (List.mem_singleton_self _)
  · apply inv.threads.step current (some _) (List.subset_append_left _ _) (List.Subset.refl _)
    · intro id' t' _ before handles
      exact (inv.threads.handling before handles).2
    · intro pc same
      cases same
      refine ⟨List.mem_append_right _ (List.mem_singleton_self _), ?_⟩
      intro member
      rcases List.mem_map.mp member with ⟨ex, executed, same⟩
      rw [← same] at unknown
      exact unknown (inv.history.returned ex executed)
    · intro h _ id' t' _ before handles same
      rw [← same] at unknown
      exact unknown (inv.threads.handling before handles).1
  · refine ⟨?_, ?_, ?_, ?_, inv.history.once⟩
    · apply List.nodup_append.mpr
      refine ⟨inv.history.news_nodup, List.pairwise_singleton _ _, ?_⟩
      rintro key member _ new rfl
      rw [List.mem_singleton.mp new] at member
      exact fresh member
    · change (s.begun ++ [t.req]).map Request.key = s.news ++ [t.req.key]
      rw [List.map_append, inv.history.keys]
      rfl
    · intro r member
      rcases List.mem_append.mp member with old | new
      · exact inv.history.known r old
      · rw [List.mem_singleton.mp new]
        exact ⟨_, mine⟩
    · intro ex executed
      exact List.mem_append_left _ (inv.history.returned ex executed)

/-- The other threads in a handler are there for other requests. -/
theorem Threads.others (inv : Threads issued begun finished threads)
    (current : threads id = some t) (handles : Handles t) {id' : Nat} {t' : Thread ι Local}
    (other : id' ≠ id) (before : threads id' = some t') (handles' : Handles t') :
    t'.req ≠ t.req := fun same =>
  other (inv.alone id' t' id t before current handles' handles same)

theorem Inv.paused (inv : Inv nonce issued s) (current : s.threads id = some t)
    (handles : Handles t) (state : σ) (later : Running Local) :
    Inv nonce issued ({ s with service := state }.goto id t (.handling later)) where
  windows := inv.windows
  threads := by
    apply inv.threads.step current (some _) (List.Subset.refl _) (List.Subset.refl _)
    · intro id' t' _ before handles'
      exact (inv.threads.handling before handles').2
    · intro pc same
      cases same
      exact inv.threads.handling current handles
    · intro _ _ id' t' other before handles'
      exact inv.threads.others current handles other before handles'
  history := inv.history
  conns := inv.conns

theorem Inv.finishHandler (inv : Inv nonce issued s) (current : s.threads id = some t)
    (handles : Handles t) (state : σ) (ret : Int) (payload : List UInt8) :
    Inv nonce issued ({ s with service := state }.finishHandler id t ret payload) := by
  have mine := inv.threads.handling current handles
  have more : s.finished ⊆ s.finished ++ [{ req := t.req, ret, payload }] :=
    List.subset_append_left _ _
  refine ⟨inv.windows.mono (fun _ => List.Subset.refl _) more, ?_, ?_, inv.conns⟩
  · apply inv.threads.step current (some _) (List.Subset.refl _) more
    · intro id' t' other before handles' member
      rw [List.map_append, List.mem_append] at member
      rcases member with old | new
      · exact (inv.threads.handling before handles').2 old
      · exact inv.threads.others current handles other before handles' (List.mem_singleton.mp new)
    · intro pc same
      cases same
      exact ⟨rfl, mine.1, rfl, List.mem_append_right _ (List.mem_singleton_self _)⟩
    · nofun
  · refine ⟨inv.history.news_nodup, inv.history.keys, inv.history.known, ?_, ?_⟩
    · intro ex executed
      rcases List.mem_append.mp executed with old | new
      · exact inv.history.returned ex old
      · rw [List.mem_singleton.mp new]
        exact mine.1
    · change ((s.finished ++ [_]).map Execution.req).Nodup
      rw [List.map_append]
      apply List.nodup_append.mpr
      refine ⟨inv.history.once, List.pairwise_singleton _ _, ?_⟩
      rintro r old _ new rfl
      rw [List.mem_singleton.mp new] at old
      exact mine.2 old

/-- One step of a thread keeps the invariant. -/
theorem Inv.dispatched (inv : Inv nonce issued s) (known : Issued nonce issued)
    (distinct : Function.Injective nonce) (nonzero : ∀ c, nonce c ≠ 0)
    (current : s.threads id = some t) {service : Service σ Local} {sent : Option (Message ι)}
    (step : Dispatched service s id t next sent) : Inv nonce issued next := by
  have mine := inv.threads.known id t current
  have own : t.req.cltNonce = nonce t.conn.client := known.cltNonce _ _ mine
  have older := known.xidRep _ _ mine
  have held := inv.threads.pcs id t current
  have checked := checkduplicateAndUpdate_classified t.req.xid t.req.xidRep
    (inv.windows.ascending t.req.cltNonce)
  cases step with
  | refused place old =>
      apply inv.goto current (.sending _ _) nofun
      exact ⟨mine, refuse_genuine _ _ (by decide)⟩
  | unregistered place => exact inv.exit current
  | admitted place => exact inv.goto current .saving nofun trivial
  | untracked place zero => exact absurd (own.symm.trans zero) (nonzero _)
  | saved place conns latest =>
      have moved := inv.goto current .checking nofun trivial
      refine ⟨moved.windows, moved.threads, moved.history, ?_⟩
      intro n c found
      rcases latest n c found with old | ⟨rfl, rfl⟩
      · exact inv.conns n c old
      · exact own.symm
  | new place window result =>
      rw [result] at checked
      exact inv.new current service older checked
  | inprogress place window result =>
      rw [result] at checked
      exact (inv.updateWindow older checked nofun).exit current
  | done place window a result =>
      rw [result] at checked
      apply (inv.updateWindow older checked nofun).goto current (.sending _ _) nofun
      rcases checked.of_done with ⟨e, present, same, buffered⟩
      rcases inv.windows.answers _ e (mem_trim.mp present).1 a buffered with
        ⟨key, ⟨c, issuedBy⟩, executed⟩
      have equal := issued_eq_of_key known distinct issuedBy mine (by rw [key, same]; rfl)
      refine ⟨?_, executed.genuine⟩
      rw [equal.2]
      exact mine
  | forgotten place window result =>
      rw [result] at checked
      apply (inv.updateWindow older checked nofun).goto current (.sending _ _) nofun
      exact ⟨mine, refuse_genuine _ _ (by decide)⟩
  | paused l place choice state later => exact inv.paused current ⟨_, place⟩ state (.user later)
  | returned l place choice state ret payload =>
      exact inv.finishHandler current ⟨_, place⟩ state ret payload
  | bound place => exact inv.finishHandler current ⟨_, place⟩ s.service _ _
  | recorded a place positive =>
      rw [place] at held
      have moved := inv.goto current (.choosing a) nofun held
      exact ⟨inv.windows.record held.1 mine held.2.2, moved.threads, inv.history, inv.conns⟩
  | unrecorded a place =>
      rw [place] at held
      exact inv.goto current (.choosing a) nofun held
  | chosen a place c choice =>
      rw [place] at held
      have client : c.client = t.conn.client := by
        rcases choice with rfl | latest
        · rfl
        · apply distinct
          rw [inv.conns _ c latest, own]
      apply inv.goto current (.sending c a) nofun
      refine ⟨?_, held.2.2.genuine⟩
      rw [held.1, client]
      exact mine
  | sent c a place => exact inv.exit current

/-- What a thread sends is a reply to a request of the client it goes to. -/
theorem Inv.sent (inv : Inv nonce issued s) (current : s.threads id = some t)
    {service : Service σ Local} {sent : Option (Message ι)}
    (step : Dispatched service s id t next sent) :
    ∀ m ∈ sent, m.answer.cause ∈ issued m.dest ∧ Genuine s.finished m.answer := by
  have held := inv.threads.pcs id t current
  intro m member
  cases step with
  | sent c a place =>
      rw [place] at held
      cases member
      exact held
  | _ => contradiction

/-- The histories only grow. -/
theorem Dispatched.finished_subset {service : Service σ Local} {sent : Option (Message ι)}
    (step : Dispatched service s id t next sent) : s.finished ⊆ next.finished := by
  cases step with
  | returned | bound => exact List.subset_append_left _ _
  | _ => exact List.Subset.refl _

end Dispatch

end Server

end YfsRpc.Rpc
