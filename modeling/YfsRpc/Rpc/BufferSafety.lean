import YfsRpc.Rpc.BufferLedger

/-! # Buffers that are being sent

A thread goes on using a buffer after it has left it in the reply window, and so does a
thread that got it for a duplicate. Nothing keeps a later request of the client from
trimming the entry before they have sent it.
-/

namespace YfsRpc.Rpc

namespace ReplyBuffers

/-- No buffer that a thread is sending is freed. -/
def Intact (s : ReplyBuffers) : Prop :=
  ∀ id t b, s.threads.held id = some t → t.pc = .sending (some b) → s.freed b = 0

/-- The thread is sending the stored reply to an xid of the client below the bound. -/
def SendsBelow (s : ReplyBuffers) (cltNonce bound : Nat) (u : BufferThread) : Prop :=
  u.req.cltNonce = cltNonce ∧ u.req.xid < bound ∧
    ∃ e ∈ s.window cltNonce, e.xid = u.req.xid ∧ e.buf.isSome ∧ u.pc = .sending e.buf

instance (s : ReplyBuffers) (cltNonce bound : Nat) (u : BufferThread) :
    Decidable (SendsBelow s cltNonce bound u) := by
  unfold SendsBelow
  infer_instance

/-- When a request is checked, no thread is still sending a stored reply that it
acknowledges. -/
def Delivered (s : ReplyBuffers) : Action → Prop
  | .dispatch id => ∀ t ∈ s.threads.held id, t.pc = .checking →
      ∀ other ∈ s.threads.keys, ∀ u ∈ s.threads.held other,
        ¬ SendsBelow s t.req.cltNonce t.req.xidRep u
  | _ => True

instance (s : ReplyBuffers) (action : Action) : Decidable (Delivered s action) :=
  match action with
  | .dispatch id => inferInstanceAs (Decidable (∀ t ∈ s.threads.held id, t.pc = .checking →
      ∀ other ∈ s.threads.keys, ∀ u ∈ s.threads.held other,
        ¬ SendsBelow s t.req.cltNonce t.req.xidRep u))
  | .gotPdu .. | .destroy => .isTrue trivial

variable {registered : Nat → Bool} {s next : ReplyBuffers} {id b : Nat} {t : BufferThread}
  {action : Action}

/-! ## Who knows a buffer -/

theorem bufferCount_le_stored (n : Nat) : bufferCount b (s.window n) ≤ s.stored b := by
  unfold window
  cases held : s.replyWindow.held n with
  | none => exact Nat.zero_le _
  | some w => exact Holders.le_total held

theorem bufferCount_add_le_stored {n m : Nat} (differs : n ≠ m) :
    bufferCount b (s.window n) + bufferCount b (s.window m) ≤ s.stored b := by
  have left := bufferCount_le_stored (s := s) (b := b) n
  have right := bufferCount_le_stored (s := s) (b := b) m
  cases held : s.replyWindow.held n with
  | none =>
      have empty : s.window n = [] := by simp [window, held]
      rw [empty]
      simpa using right
  | some w =>
      cases held' : s.replyWindow.held m with
      | none =>
          have empty : s.window m = [] := by simp [window, held']
          rw [empty]
          simpa using left
      | some v =>
          have both := Holders.add_le_total (f := bufferCount b) held held' differs
          simpa [window, held, held', stored] using both

/-- A buffer that is accounted for anywhere has been taken, and is accounted for once. -/
theorem Ledger.once (inv : Ledger s) (known : s.load b ≠ 0) :
    b < s.taken ∧ s.stored b + s.owned b + s.freed b = 1 := by
  have within := inv.within b
  unfold load budget at within
  unfold load at known
  have taken : b < s.taken := by
    by_contra later
    rw [if_neg later] at within
    omega
  rw [if_pos taken] at within
  exact ⟨taken, by omega⟩

/-- A buffer in the window is in one entry, and is neither freed nor owned by a thread. -/
theorem Ledger.of_stored (inv : Ledger s) {n : Nat} {e : ReplyT Nat} (member : e ∈ s.window n)
    (held : e.buf = some b) :
    b < s.taken ∧ s.owned b = 0 ∧ s.freed b = 0 ∧
      ∀ m, ∀ d ∈ s.window m, d.buf = some b → m = n ∧ d = e := by
  have here := bufferCount_pos member held
  have part := bufferCount_le_stored (s := s) (b := b) n
  rcases inv.once (b := b) (by unfold load; omega) with ⟨taken, once⟩
  refine ⟨taken, by omega, by omega, ?_⟩
  intro m d other held'
  by_cases same : m = n
  · subst same
    exact ⟨rfl, eq_of_bufferCount (by omega) other member held' held⟩
  · have there := bufferCount_pos other held'
    have both := bufferCount_add_le_stored (s := s) (b := b) same
    omega

/-- A buffer that a thread owns is known to no one else. -/
theorem Ledger.of_owned (inv : Ledger s) (held : s.threads.held id = some t)
    (mine : owns b t = true) :
    b < s.taken ∧ s.owned b = 1 ∧ s.freed b = 0 ∧ ∀ m, ∀ d ∈ s.window m, d.buf ≠ some b := by
  have here : s.owned b ≠ 0 := Holders.tally_pos held mine
  rcases inv.once (b := b) (by unfold load; omega) with ⟨taken, once⟩
  refine ⟨taken, by omega, by omega, ?_⟩
  intro m d member held'
  have there := bufferCount_pos member held'
  have part := bufferCount_le_stored (s := s) (b := b) m
  omega

/-- A buffer that is left to the window, and that a thread still uses. -/
structure Shared (s : ReplyBuffers) (t : BufferThread) (b : Nat) : Prop where
  taken : b < s.taken
  unowned : s.owned b = 0
  unfreed : s.freed b = 0
  home : ∀ n, ∀ e ∈ s.window n, e.buf = some b → n = t.req.cltNonce ∧ e.xid = t.req.xid

def Located (s : ReplyBuffers) : Prop :=
  ∀ id t b, s.threads.held id = some t → t.req.cltNonce ≠ 0 → t.pc = .sending (some b) →
    Shared s t b

theorem intact_of_located (ledger : Ledger s) (located : Located s) : s.Intact := by
  intro id t b held place
  by_cases zero : t.req.cltNonce = 0
  · exact (ledger.of_owned held (by simp [owns, place, zero])).2.2.1
  · exact (located id t b held zero place).unfreed

/-! ## Steps -/

/-- A thread gets a buffer of its own when it takes it, or keeps the one it owns. -/
theorem Goes.owns {v : Option BufferThread} (goes : Goes s t v)
    (tracked : t.pc = .checking → t.req.cltNonce ≠ 0) (mine : v.any (owns b) = true) :
    ReplyBuffers.owns b t = true ∨ b = s.taken := by
  cases goes with
  | left | refused | untracked | tracked | created => contradiction
  | checked place =>
      rw [owns_classified (tracked place)] at mine
      contradiction
  | returned =>
      have same : s.taken = b := by simpa [ReplyBuffers.owns] using mine
      exact Or.inr same.symm
  | replied d place =>
      left
      have same : t.req.cltNonce = 0 ∧ d = b := by simpa [ReplyBuffers.owns] using mine
      simp [ReplyBuffers.owns, place, same.2]

theorem taken_mono (taken : s.step registered action = some next) : s.taken ≤ next.taken := by
  cases action with
  | gotPdu id req =>
      simp only [step] at taken
      split at taken
      · cases taken
        exact Nat.le_refl _
      · contradiction
  | dispatch id =>
      rcases Option.map_eq_some_iff.mp taken with ⟨t, held, rfl⟩
      unfold dispatch
      cases place : t.pc with
      | received =>
          rcases check_eq registered s id place with ⟨v, same, _⟩
          dsimp only
          rw [same]
      | creating => exact Nat.le_refl _
      | checking =>
          dsimp only
          rw [classify_eq]
          exact Nat.le_refl _
      | handling => exact Nat.le_succ _
      | replying b =>
          dsimp only
          unfold record
          split <;> exact Nat.le_refl _
      | sending b =>
          dsimp only
          split <;> exact Nat.le_refl _
  | destroy =>
      simp only [step] at taken
      split at taken
      · cases taken
        exact Nat.le_refl _
      · contradiction

/-- A buffer is freed by a check that trims it, by the thread that owns it, or at the end. -/
theorem freed_cases (taken : s.step registered action = some next) (b : Nat) :
    next.freed b = s.freed b ∨
      (∃ id t, action = .dispatch id ∧ s.threads.held id = some t ∧ t.pc = .checking ∧
        b ∈ scanFreed t.req.xid t.req.xidRep [] (s.window t.req.cltNonce)) ∨
      (∃ id t, action = .dispatch id ∧ s.threads.held id = some t ∧
        t.pc = .sending (some b) ∧ t.req.cltNonce = 0) ∨
      s.threads.keys = ∅ := by
  cases action with
  | gotPdu id req =>
      simp only [step] at taken
      split at taken
      · cases taken
        exact Or.inl rfl
      · contradiction
  | dispatch id =>
      rcases Option.map_eq_some_iff.mp taken with ⟨t, held, rfl⟩
      unfold dispatch
      cases place : t.pc with
      | received =>
          rcases check_eq registered s id place with ⟨v, same, _⟩
          dsimp only
          rw [same]
          exact Or.inl rfl
      | creating => exact Or.inl rfl
      | checking =>
          by_cases trimmed : b ∈ scanFreed t.req.xid t.req.xidRep [] (s.window t.req.cltNonce)
          · exact Or.inr (Or.inl ⟨id, t, rfl, held, place, trimmed⟩)
          · left
            dsimp only
            rw [classify_eq]
            change s.freed b + _ = _
            rw [List.count_eq_zero.mpr trimmed]
            rfl
      | handling => exact Or.inl rfl
      | replying d =>
          dsimp only
          unfold record
          split <;> exact Or.inl rfl
      | sending buffer =>
          dsimp only
          split
          · next zero =>
              by_cases here : buffer = some b
              · subst here
                exact Or.inr (Or.inr (Or.inl ⟨id, t, rfl, held, place, zero⟩))
              · left
                change s.freed b + buffer.toList.count b = _
                rw [List.count_eq_zero.mpr (by simpa using here)]
                rfl
          · exact Or.inl rfl
  | destroy =>
      simp only [step] at taken
      split at taken
      · next idle => exact Or.inr (Or.inr (Or.inr idle.1))
      · contradiction

/-- No thread gets a buffer that was left to the window as its own. -/
theorem Ledger.unowned_step (ledger : Ledger s) (older : b < s.taken) (unowned : s.owned b = 0)
    (taken : s.step registered action = some next) : next.owned b = 0 := by
  unfold owned
  cases threadStep taken with
  | arrived other req _ idle here =>
      have exchanged := s.threads.tally_set other (some { req, pc := .received }) (owns b)
      simp only [idle, owns, Option.any_some, Option.any_none, Bool.toNat_false] at exchanged
      rw [here]
      exact exchanged.trans unowned
  | moved other t v acting held here goes =>
      have before : owns b t = false := by
        by_contra mine
        exact Holders.tally_pos held (Bool.not_eq_false _ |>.mp mine) unowned
      have after : v.any (owns b) = false := by
        by_contra mine
        rcases goes.owns (fun place => ledger.tracked other t held (Or.inr place))
            (Bool.not_eq_false _ |>.mp mine) with mine | fresh
        · rw [before] at mine
          contradiction
        · exact absurd older (by omega)
      rw [here, owned_move held before after]
      exact unowned
  | destroyed empty =>
      by_contra positive
      rcases Holders.tally_ne_zero.mp positive with ⟨other, t, held, _⟩
      rw [Holders.keys_eq_empty.mp empty other] at held
      contradiction

/-- A buffer that is still used stays where it is. -/
theorem Shared.step {u : BufferThread} (ledger : Ledger s) (shared : Shared s u b)
    (held : s.threads.held id = some u) (taken : s.step registered action = some next)
    (kept : ∀ acting t, action = .dispatch acting → s.threads.held acting = some t →
      t.pc = .checking →
      b ∉ scanFreed t.req.xid t.req.xidRep [] (s.window t.req.cltNonce)) :
    Shared next u b := by
  have others : ∀ other t, s.threads.held other = some t → owns b t = false := by
    intro other t held'
    by_contra mine
    have owned := Holders.tally_pos held' (Bool.not_eq_false _ |>.mp mine)
    exact owned shared.unowned
  have nonempty : s.threads.keys ≠ ∅ := by
    intro empty
    rw [Holders.keys_eq_empty.mp empty id] at held
    contradiction
  refine ⟨Nat.lt_of_lt_of_le shared.taken (taken_mono taken),
    ledger.unowned_step shared.taken shared.unowned taken, ?_, ?_⟩
  · rcases freed_cases taken b with same | ⟨other, t, acting, held', place, trimmed⟩ |
      ⟨other, t, acting, held', place, zero⟩ | empty
    · exact same.trans shared.unfreed
    · exact absurd trimmed (kept other t acting held' place)
    · have unowned := others other t held'
      simp [owns, place, zero] at unowned
    · exact absurd empty nonempty
  · intro n e member buf
    rcases ledger.mem_step taken member with old | ⟨xid, rfl⟩ | ⟨other, t, d, held', place, rfl⟩
    · exact shared.home n e old buf
    · contradiction
    · cases buf
      have unowned := others other t held'
      simp [owns, place] at unowned

/-- The check trims no entry whose reply is being sent. -/
theorem Delivered.kept {u : BufferThread} (ledger : Ledger s) (shared : Shared s u b)
    (delivered : Delivered s action) (held : s.threads.held id = some u)
    (place : u.pc = .sending (some b)) (acting : Nat) (t : BufferThread)
    (here : action = .dispatch acting) (held' : s.threads.held acting = some t)
    (checking : t.pc = .checking) :
    b ∉ scanFreed t.req.xid t.req.xidRep [] (s.window t.req.cltNonce) := by
  intro trimmed
  subst here
  rcases (mem_scanFreed (ledger.ascending _)).mp trimmed with ⟨e, member, small, buf⟩
  rcases shared.home _ e member buf with ⟨client, same⟩
  have key : id ∈ s.threads.keys := (s.threads.mem_keys id).mpr (by simp [held])
  exact delivered t held' checking id key u held
    ⟨client.symm, same ▸ small, e, member, same, by simp [buf], by rw [buf, place]⟩

/-- A duplicate gets the buffer that the entry for its xid holds. -/
theorem shared_checked {u : BufferThread} (ledger : Ledger s) (ledger' : Ledger next)
    (acting : action = .dispatch id) (held : s.threads.held id = some t)
    (place : t.pc = .checking) (taken : s.step registered action = some next)
    (goes : some u = classified t
      (checkduplicateAndUpdate (s.window t.req.cltNonce) t.req.xid t.req.xidRep).1)
    (sending : u.pc = .sending (some b)) : Shared next u b := by
  subst acting
  have windows := window_checking registered s id place
  have found := checkduplicateAndUpdate_classified t.req.xid t.req.xidRep
    (ledger.ascending t.req.cltNonce)
  rw [← next_eq_dispatch held taken] at windows
  rcases result : checkduplicateAndUpdate (s.window t.req.cltNonce) t.req.xid t.req.xidRep
    with ⟨state, w⟩
  rw [result] at windows found goes
  cases state with
  | new | forgotten =>
      cases goes
      cases sending
  | inprogress => contradiction
  | done buffer =>
      cases goes
      cases sending
      rcases found.of_done with ⟨e, old, same, buf⟩
      have member : e ∈ next.window t.req.cltNonce := by
        rw [windows, Function.update_self]
        exact found.keeps old
      rcases ledger'.of_stored member buf with ⟨before, unowned, unfreed, unique⟩
      refine ⟨before, unowned, unfreed, ?_⟩
      intro m d other buf'
      rcases unique m d other buf' with ⟨rfl, rfl⟩
      exact ⟨rfl, same⟩

/-- `add_reply` leaves the buffer to the entry of the request. -/
theorem shared_replied (ledger : Ledger s) (acting : action = .dispatch id)
    (held : s.threads.held id = some t) (place : t.pc = .replying b)
    (nonzero : t.req.cltNonce ≠ 0) (taken : s.step registered action = some next) :
    Shared next { t with pc := .sending (some b) } b := by
  subst acting
  have mine : owns b t = true := by simp [owns, place]
  rcases ledger.of_owned held mine with ⟨before, once, unfreed, absent⟩
  have windows := window_replying registered s id place nonzero
  rw [next_eq_dispatch held taken]
  refine ⟨?_, ?_, ?_, ?_⟩
  · simp only [dispatch, place, record_eq nonzero]
    exact before
  · have gone := owned_set held (some { t with pc := .sending (some b) }) b
    simp only [mine, Option.any_some, Bool.toNat_true, once] at gone
    simp only [owns, beq_eq_false_iff_ne.mpr nonzero, Bool.false_and, Bool.toNat_false] at gone
    simp only [dispatch, place, record_eq nonzero]
    change (s.threads.set id _).tally (owns b) = 0
    omega
  · simp only [dispatch, place, record_eq nonzero]
    exact unfreed
  · intro n e member buf
    rw [windows] at member
    rcases mem_recorded ledger.ascending member with ⟨old, _⟩ | ⟨rfl, rfl, _⟩
    · exact absurd buf (absent n e old)
    · exact ⟨rfl, rfl⟩

theorem located_step (ledger : Ledger s) (located : Located s) (delivered : Delivered s action)
    (taken : s.step registered action = some next) : Located next := by
  have ledger' := ledger.step taken
  intro id u b held nonzero place
  cases came taken held with
  | stayed before _ =>
      have shared := located id u b before nonzero place
      exact shared.step ledger before taken (delivered.kept ledger shared before place)
  | arrived here =>
      rw [here] at place
      contradiction
  | moved t acting before goes =>
      generalize gone : some u = v at goes
      cases goes with
      | left => contradiction
      | refused | untracked | tracked | created | returned =>
          cases gone
          cases place
      | checked checking =>
          exact shared_checked ledger ledger' acting before checking taken gone place
      | replied d replying =>
          cases gone
          cases place
          exact shared_replied ledger acting before replying nonzero taken

/-! ## Runs -/

theorem initial_located (nonce : Nat) : Located ({ nonce } : ReplyBuffers) :=
  fun _ _ _ held => nomatch held

theorem reachable_located {nonce : Nat}
    (reachable : (machine registered nonce).ReachableUnder Delivered s) :
    Ledger s ∧ Located s :=
  reachable.invariant (fun s => Ledger s ∧ Located s)
    ⟨initial_ledger nonce, initial_located nonce⟩
    fun _ _ _ _ inv delivered taken =>
      ⟨inv.1.step taken, located_step inv.1 inv.2 delivered taken⟩

/-- A check that acknowledges a reply which is being sent frees its buffer. -/
theorem not_intact (ledger : Ledger s) (early : ¬ Delivered s action)
    (taken : s.step registered action = some next) : ¬ next.Intact := by
  cases action with
  | gotPdu | destroy => exact absurd trivial early
  | dispatch id =>
      simp only [Delivered, not_forall, not_not] at early
      rcases early with ⟨t, held, checking, other, _, u, held', client, small, e, member, same,
        some, sending⟩
      rw [Option.mem_def] at held held'
      rcases Option.isSome_iff_exists.mp some with ⟨b, buf⟩
      have differs : other ≠ id := by
        rintro rfl
        cases Option.some.inj (held.symm.trans held')
        rw [checking] at sending
        contradiction
      have trimmed : b ∈ scanFreed t.req.xid t.req.xidRep [] (s.window t.req.cltNonce) :=
        (mem_scanFreed (ledger.ascending _)).mpr ⟨e, member, same ▸ small, buf⟩
      have freed := List.count_pos_iff.mpr trimmed
      intro intact
      rw [next_eq_dispatch held taken] at intact
      simp only [dispatch, checking, classify_eq] at intact
      have unfreed := intact other u b
        (by simpa only [Holders.held_set_of_ne differs] using held') (buf ▸ sending)
      change s.freed b + _ = 0 at unfreed
      omega

/-- No buffer that is being sent is freed in a run whose checks acknowledge only what was
delivered, and a step keeps it so only if it is one of these. -/
theorem intact {nonce : Nat} (reachable : (machine registered nonce).ReachableUnder Delivered s) :
    s.Intact ∧ ∀ action next, s.step registered action = some next →
      (next.Intact ↔ Delivered s action) := by
  rcases reachable_located reachable with ⟨ledger, located⟩
  refine ⟨intact_of_located ledger located, fun action next taken => ⟨?_, ?_⟩⟩
  · intro intact
    by_contra early
    exact not_intact ledger early taken intact
  · intro delivered
    exact intact_of_located (ledger.step taken) (located_step ledger located delivered taken)

def callOf (xid xidRep : Nat) : Request :=
  { xid, proc := 2, cltNonce := 7, srvNonce := 5, xidRep, payload := [] }

/-- A call is answered twice, the second time for a duplicate, while the next one, which
acknowledges neither, is checked and answered; the one after it trims both. -/
def answeredTwice : List Action :=
  [.gotPdu 0 (callOf 2 1), .dispatch 0, .dispatch 0, .dispatch 0, .dispatch 0, .gotPdu 1 (callOf 2 1),
    .dispatch 0, .dispatch 1, .dispatch 1, .dispatch 1, .dispatch 0, .gotPdu 0 (callOf 3 2),
    .dispatch 0, .dispatch 0, .dispatch 0, .dispatch 1, .dispatch 0, .dispatch 0,
    .gotPdu 2 (callOf 4 3), .dispatch 2, .dispatch 2, .dispatch 2]

theorem intact_answeredTwice :
    ∃ s, (machine (· == 2) 5).ReachableUnder Delivered s ∧ s.freed 0 = 1 ∧
      (∃ t ∈ s.threads.held 0, t.pc = .sending (some 1)) ∧ s.Intact := by
  have run : (((machine (· == 2) 5).restrict Delivered).run
      (machine (· == 2) 5).initial answeredTwice).map
        (fun s => (s.freed 0, (s.threads.held 0).map BufferThread.pc)) =
      some (1, some (.sending (some 1))) := by decide +kernel
  rcases Option.map_eq_some_iff.mp run with ⟨s, taken, result⟩
  simp only [Prod.mk.injEq, Option.map_eq_some_iff] at result
  have reachable := Machine.reachableUnder_of_run taken
  exact ⟨s, reachable, result.1, result.2, (intact reachable).1⟩

/-- A duplicate of the call 2 is about to be answered; the client has the first answer,
has made the call 3 as well, and acknowledges both with the call 4. -/
def lateDuplicate : List Action :=
  [.gotPdu 0 (callOf 2 1), .dispatch 0, .dispatch 0, .dispatch 0, .dispatch 0, .dispatch 0,
    .gotPdu 1 (callOf 2 1), .dispatch 1, .dispatch 1, .dispatch 1, .dispatch 0,
    .gotPdu 0 (callOf 3 2), .dispatch 0, .dispatch 0, .dispatch 0, .dispatch 0, .dispatch 0,
    .dispatch 0, .gotPdu 0 (callOf 4 3), .dispatch 0, .dispatch 0, .dispatch 0]

theorem lateDuplicate_not_intact :
    ¬ ∀ s, (machine (· == 2) 5).Reachable s → s.Intact := by
  intro always
  have run : ((machine (· == 2) 5).run (machine (· == 2) 5).initial lateDuplicate).map
      (fun s => (s.freed 0, (s.threads.held 1).map BufferThread.pc)) =
    some (1, some (.sending (some 0))) := by decide +kernel
  rcases Option.map_eq_some_iff.mp run with ⟨s, taken, result⟩
  simp only [Prod.mk.injEq, Option.map_eq_some_iff] at result
  rcases result with ⟨freed, t, held, sending⟩
  have unfreed := always s (Machine.reachable_of_run taken) 1 t 0 held sending
  omega

end ReplyBuffers

end YfsRpc.Rpc
