import YfsRpc.Rpc.ReplyBuffers

/-! # Where every reply buffer is

A buffer that was taken is owned by one thread, stored in one entry, freed once, or lost.
A step can lose a buffer only where `add_reply` finds no entry for it, or one that has a
buffer already.
-/

namespace YfsRpc.Rpc

namespace ReplyBuffers

/-- The thread is the only one to know the buffer. -/
def owns (b : Nat) (t : BufferThread) : Bool :=
  match t.pc with
  | .replying d => d == b
  | .sending (some d) => t.req.cltNonce == 0 && d == b
  | _ => false

def owned (s : ReplyBuffers) (b : Nat) : Nat := s.threads.tally (owns b)

/-- The owners of a buffer, with its deletions. -/
def load (s : ReplyBuffers) (b : Nat) : Nat := s.stored b + s.owned b + s.freed b

/-- One for every buffer that was taken. -/
def budget (s : ReplyBuffers) (b : Nat) : Nat := if b < s.taken then 1 else 0

structure Ledger (s : ReplyBuffers) : Prop where
  ascending : ∀ n, StrictlyAscending ReplyT.xid (s.window n)
  present : ∀ n, ∀ e ∈ s.window n, e.cbPresent = e.buf.isSome
  tracked : ∀ id t, s.threads.held id = some t → t.pc = .creating ∨ t.pc = .checking →
    t.req.cltNonce ≠ 0
  within : ∀ b, s.load b ≤ s.budget b

/-- `add_reply` finds the entry of the request, without a buffer. -/
def Keeps (s : ReplyBuffers) : Action → Prop
  | .dispatch id => ∀ t b, s.threads.held id = some t → t.pc = .replying b →
      t.req.cltNonce ≠ 0 → ∃ e ∈ s.window t.req.cltNonce, e.xid = t.req.xid ∧ e.buf = none
  | _ => True

variable {registered : Nat → Bool} {s next : ReplyBuffers} {id b : Nat} {t : BufferThread}
  {action : Action}

/-! ## What a step adds and removes -/

theorem window_updateWindow (n : Nat) (w : List (ReplyT Nat)) :
    (s.updateWindow n w).window = Function.update s.window n w := by
  funext m
  by_cases here : m = n
  · subst here
    simp [window, updateWindow]
  · simp [window, updateWindow, here]

theorem stored_updateWindow (n : Nat) (w : List (ReplyT Nat)) :
    (s.updateWindow n w).stored b + bufferCount b (s.window n) =
      s.stored b + bufferCount b w := by
  have exchanged := s.replyWindow.total_set n (some w) (bufferCount b)
  have before : (s.replyWindow.held n).elim 0 (bufferCount b) = bufferCount b (s.window n) := by
    unfold window
    cases s.replyWindow.held n <;> rfl
  rw [before] at exchanged
  exact exchanged

theorem owned_set (held : s.threads.held id = some t) (v : Option BufferThread) (b : Nat) :
    (s.threads.set id v).tally (owns b) + (owns b t).toNat =
      s.owned b + (v.any (owns b)).toNat := by
  have exchanged := s.threads.tally_set id v (owns b)
  rwa [held] at exchanged

/-- Nothing changes for a thread that has no buffer of its own and gets none. -/
theorem owned_move (held : s.threads.held id = some t) {v : Option BufferThread}
    (before : owns b t = false) (after : v.any (owns b) = false) :
    (s.threads.set id v).tally (owns b) = s.owned b := by
  have exchanged := owned_set held v b
  simpa [before, after] using exchanged

/-- Where a thread goes after `checkduplicate_and_update`. -/
def classified (t : BufferThread) : RpcState Nat → Option BufferThread
  | .new => some { t with pc := .handling }
  | .inprogress => none
  | .done b => some { t with pc := .sending b }
  | .forgotten => some { t with pc := .sending none }

/-- Where a step takes a thread, which is gone when it leaves `dispatch`. -/
inductive Goes (s : ReplyBuffers) (t : BufferThread) : Option BufferThread → Prop
  | left : Goes s t none
  | refused (place : t.pc = .received) : Goes s t (some { t with pc := .sending none })
  | untracked (place : t.pc = .received) (zero : t.req.cltNonce = 0) :
      Goes s t (some { t with pc := .handling })
  | tracked (place : t.pc = .received) (nonzero : t.req.cltNonce ≠ 0) :
      Goes s t (some { t with pc := .creating })
  | created (place : t.pc = .creating) : Goes s t (some { t with pc := .checking })
  | checked (place : t.pc = .checking) :
      Goes s t (classified t
        (checkduplicateAndUpdate (s.window t.req.cltNonce) t.req.xid t.req.xidRep).1)
  | returned (place : t.pc = .handling) : Goes s t (some { t with pc := .replying s.taken })
  | replied (b : Nat) (place : t.pc = .replying b) :
      Goes s t (some { t with pc := .sending (some b) })

theorem check_eq (registered : Nat → Bool) (s : ReplyBuffers) (id : Nat)
    (place : t.pc = .received) :
    ∃ v, s.check registered id t = { s with threads := s.threads.set id v } ∧ Goes s t v := by
  unfold check
  split
  · exact ⟨_, rfl, .refused place⟩
  · split
    · exact ⟨none, rfl, .left⟩
    · split
      · next nonzero => exact ⟨_, rfl, .tracked place nonzero⟩
      · next zero => exact ⟨_, rfl, .untracked place (not_not.mp zero)⟩

theorem classify_eq (s : ReplyBuffers) (id : Nat) (t : BufferThread) :
    s.classify id t =
      { (s.free (scanFreed t.req.xid t.req.xidRep [] (s.window t.req.cltNonce))).updateWindow
          t.req.cltNonce
          (checkduplicateAndUpdate (s.window t.req.cltNonce) t.req.xid t.req.xidRep).2 with
        threads := s.threads.set id (classified t
          (checkduplicateAndUpdate (s.window t.req.cltNonce) t.req.xid t.req.xidRep).1) } := by
  unfold classify
  dsimp only
  cases (checkduplicateAndUpdate (s.window t.req.cltNonce) t.req.xid t.req.xidRep).1 <;> rfl

theorem record_eq (nonzero : t.req.cltNonce ≠ 0) :
    s.record id t b =
      { s.updateWindow t.req.cltNonce
          (addReply t.req.xid b (s.window t.req.cltNonce)) with
        recorded := s.recorded ++ [b]
        threads := s.threads.set id (some { t with pc := .sending (some b) }) } := by
  unfold record
  rw [if_pos (Nat.pos_of_ne_zero nonzero)]
  rfl

theorem owns_classified (nonzero : t.req.cltNonce ≠ 0) (state : RpcState Nat) :
    (classified t state).any (owns b) = false := by
  cases state with
  | new | inprogress | forgotten => rfl
  | done d => cases d <;> simp [classified, owns, nonzero]

/-- The entry with the xid is the one that is found. -/
theorem find_of_mem {w : List (ReplyT Nat)} (ascending : StrictlyAscending ReplyT.xid w)
    {e : ReplyT Nat} (member : e ∈ w) : w.find? (fun d => d.xid = e.xid) = some e := by
  cases found : w.find? (fun d => d.xid = e.xid) with
  | none =>
      have absent := List.find?_eq_none.mp found e member
      simp at absent
  | some d =>
      have same : d.xid = e.xid := by simpa using List.find?_some found
      rw [ascending.eq_of_key (List.mem_of_find?_eq_some found) member same]

theorem flow_record (ascending : ∀ n, StrictlyAscending ReplyT.xid (s.window n))
    (held : s.threads.held id = some t) {d : Nat} (place : t.pc = .replying d)
    (nonzero : t.req.cltNonce ≠ 0) (b : Nat) :
    ∃ lost, (s.record id t d).load b + lost = s.load b ∧
      ((∃ e ∈ s.window t.req.cltNonce, e.xid = t.req.xid ∧ e.buf = none) → lost = 0) := by
  have gone := owned_set held (some { t with pc := .sending (some d) }) b
  have stored := bufferCount_addReply b d t.req.xid (s.window t.req.cltNonce)
  have exchanged := stored_updateWindow (s := s) (b := b) t.req.cltNonce
    (addReply t.req.xid d (s.window t.req.cltNonce))
  simp only [owns, place, Option.any_some, beq_eq_false_iff_ne.mpr nonzero, Bool.false_and,
    Bool.toNat_false] at gone
  have mine : (d == b).toNat = if d = b then 1 else 0 := by
    by_cases here : d = b <;> simp [here]
  rw [record_eq nonzero]
  refine ⟨((s.window t.req.cltNonce).find? fun e => e.xid = t.req.xid).elim
      (if d = b then 1 else 0) fun e => if e.buf = some b then 1 else 0, ?_, ?_⟩
  · change (s.updateWindow t.req.cltNonce _).stored b + (s.threads.set id _).tally (owns b) +
      s.freed b + _ = _
    unfold load
    cases found : (s.window t.req.cltNonce).find? fun e => e.xid = t.req.xid with
    | none =>
        simp only [found, Option.elim_none] at stored ⊢
        omega
    | some e =>
        simp only [found, Option.elim_some] at stored ⊢
        omega
  · rintro ⟨e, member, same, empty⟩
    rw [← same, find_of_mem (ascending _) member]
    simp [empty]

theorem flow_check (nonzero : t.req.cltNonce ≠ 0) (inv : Ledger s)
    (held : s.threads.held id = some t) (place : t.pc = .checking) (b : Nat) :
    (s.dispatch registered id t).load b + s.budget b =
      s.load b + (s.dispatch registered id t).budget b := by
  have kept := owned_move (b := b) held (by simp [owns, place])
    (owns_classified nonzero
      (checkduplicateAndUpdate (s.window t.req.cltNonce) t.req.xid t.req.xidRep).1)
  have stored := stored_updateWindow (s := s) (b := b) t.req.cltNonce
    (checkduplicateAndUpdate (s.window t.req.cltNonce) t.req.xid t.req.xidRep).2
  have freed := bufferCount_check b t.req.xid t.req.xidRep (inv.ascending t.req.cltNonce)
  simp only [dispatch, place]
  rw [classify_eq]
  change (s.updateWindow _ _).stored b + (s.threads.set id _).tally (owns b) +
    (s.freed b + (scanFreed t.req.xid t.req.xidRep [] (s.window t.req.cltNonce)).count b) +
    s.budget b = s.stored b + s.owned b + s.freed b + s.budget b
  omega

/-- A handler takes the next buffer. -/
theorem flow_handling (held : s.threads.held id = some t) (place : t.pc = .handling) (b : Nat) :
    (s.dispatch registered id t).load b + s.budget b =
      s.load b + (s.dispatch registered id t).budget b := by
  have gained := owned_set held (some { t with pc := .replying s.taken }) b
  simp only [owns, place, Option.any_some, Bool.toNat_false] at gained
  simp only [dispatch, place]
  change s.stored b + (s.threads.set id _).tally (owns b) + s.freed b +
    (if b < s.taken then 1 else 0) =
      s.stored b + s.owned b + s.freed b + if b < s.taken + 1 then 1 else 0
  by_cases here : s.taken = b
  · rw [beq_iff_eq.mpr here, Bool.toNat_true] at gained
    rw [if_neg (by omega), if_pos (by omega)]
    omega
  · rw [beq_eq_false_iff_ne.mpr here, Bool.toNat_false] at gained
    have same : (if b < s.taken + 1 then 1 else 0) = if b < s.taken then 1 else 0 := by
      split <;> split <;> omega
    omega

/-- The reply was sent; the buffer of a request without a window is freed. -/
theorem flow_sending {buffer : Option Nat} (held : s.threads.held id = some t)
    (place : t.pc = .sending buffer) (b : Nat) :
    (s.dispatch registered id t).load b + s.budget b =
      s.load b + (s.dispatch registered id t).budget b := by
  have gone := owned_set held none b
  simp only [owns, place, Option.any_none, Bool.toNat_false] at gone
  simp only [dispatch, place]
  split
  · next zero =>
      change s.stored b + (s.threads.set id none).tally (owns b) +
        (s.freed b + buffer.toList.count b) + s.budget b =
          s.stored b + s.owned b + s.freed b + s.budget b
      cases buffer with
      | none =>
          simp only [Option.toList_none, List.count_nil, Bool.toNat_false] at gone ⊢
          omega
      | some d =>
          by_cases here : d = b
          · simp [here, zero] at gone ⊢
            omega
          · simp only [beq_eq_false_iff_ne.mpr here, Bool.and_false, Bool.toNat_false] at gone
            have absent : List.count b (some d).toList = 0 := by simp [here]
            omega
  · next nonzero =>
      change s.stored b + (s.threads.set id none).tally (owns b) + s.freed b + s.budget b =
        s.stored b + s.owned b + s.freed b + s.budget b
      cases buffer with
      | none =>
          simp only [Bool.toNat_false] at gone
          omega
      | some d =>
          simp only [beq_eq_false_iff_ne.mpr nonzero, Bool.false_and, Bool.toNat_false] at gone
          omega

theorem flow_dispatch (inv : Ledger s) (held : s.threads.held id = some t) (b : Nat) :
    ∃ lost, (s.dispatch registered id t).load b + lost + s.budget b =
        s.load b + (s.dispatch registered id t).budget b ∧
      (Keeps s (.dispatch id) → lost = 0) := by
  cases place : t.pc with
  | received =>
      rcases check_eq registered s id place with ⟨v, same, goes⟩
      have unowned : v.any (owns b) = false := by
        cases goes with
        | left | refused | untracked | tracked => rfl
        | created elsewhere | checked elsewhere | returned elsewhere | replied _ elsewhere =>
            rw [place] at elsewhere
            contradiction
      have kept := owned_move held (by simp [owns, place]) unowned
      refine ⟨0, ?_, fun _ => rfl⟩
      simp only [dispatch, place]
      rw [same]
      change s.stored b + (s.threads.set id v).tally (owns b) + s.freed b + 0 + s.budget b = _
      rw [kept]
      rfl
  | creating =>
      have kept := owned_move (b := b) held (v := some { t with pc := .checking })
        (by simp [owns, place]) rfl
      have stored := stored_updateWindow (s := s) (b := b) t.req.cltNonce
        (s.window t.req.cltNonce)
      refine ⟨0, ?_, fun _ => rfl⟩
      simp only [dispatch, place]
      change (s.updateWindow _ _).stored b + (s.threads.set id _).tally (owns b) + s.freed b + 0 +
        s.budget b = s.stored b + s.owned b + s.freed b + s.budget b
      omega
  | checking =>
      have nonzero := inv.tracked id t held (Or.inr place)
      exact ⟨0, flow_check nonzero inv held place b, fun _ => rfl⟩
  | handling => exact ⟨0, flow_handling held place b, fun _ => rfl⟩
  | replying d =>
      by_cases zero : t.req.cltNonce = 0
      · have kept := owned_set held (some { t with pc := .sending (some d) }) b
        simp only [owns, place, zero, Option.any_some, beq_self_eq_true, Bool.true_and] at kept
        refine ⟨0, ?_, fun _ => rfl⟩
        simp only [dispatch, place]
        rw [record, if_neg (by omega)]
        change s.stored b + (s.threads.set id _).tally (owns b) + s.freed b + 0 + s.budget b =
          s.stored b + s.owned b + s.freed b + s.budget b
        omega
      · rcases flow_record inv.ascending held place zero b with ⟨lost, flow, keeps⟩
        have budget : (s.record id t d).budget b = s.budget b := by
          rw [record_eq zero]
          rfl
        refine ⟨lost, ?_, fun kept => keeps (kept t d held place zero)⟩
        simp only [dispatch, place]
        omega
  | sending buffer => exact ⟨0, flow_sending held place b, fun _ => rfl⟩

/-- A step keeps or frees every buffer, unless `add_reply` has no place for it. -/
theorem Ledger.flow (inv : Ledger s) (taken : s.step registered action = some next) (b : Nat) :
    ∃ lost, next.load b + lost + s.budget b = s.load b + next.budget b ∧
      (Keeps s action → lost = 0) := by
  cases action with
  | gotPdu id req =>
      simp only [step] at taken
      split at taken
      · next free =>
          cases taken
          have idle := Option.isNone_iff_eq_none.mp free.1
          have exchanged := s.threads.tally_set id (some { req, pc := .received }) (owns b)
          simp only [idle, owns, Option.any_some, Option.any_none, Bool.toNat_false] at exchanged
          refine ⟨0, ?_, fun _ => rfl⟩
          unfold load
          change s.stored b + (s.threads.set id _).tally (owns b) + s.freed b + 0 + s.budget b =
            s.stored b + s.owned b + s.freed b + s.budget b
          unfold owned
          omega
      · contradiction
  | dispatch id =>
      rcases Option.map_eq_some_iff.mp taken with ⟨t, held, rfl⟩
      exact flow_dispatch inv held b
  | destroy =>
      simp only [step] at taken
      split at taken
      · cases taken
        refine ⟨0, ?_, fun _ => rfl⟩
        unfold load
        change 0 + s.owned b + (s.freed b + s.stored b) + 0 + s.budget b =
          s.stored b + s.owned b + s.freed b + s.budget b
        omega
      · contradiction

/-! ## The ledger holds -/

theorem initial_ledger (nonce : Nat) : Ledger ({ nonce } : ReplyBuffers) where
  ascending _ := List.Pairwise.nil
  present _ _ member := nomatch member
  tracked _ _ held := nomatch held
  within _ := Nat.le_refl 0

/-- The threads after a step: one more, or one that went on, or none at all. -/
inductive ThreadStep (s : ReplyBuffers) (action : Action) (threads : Holders Nat BufferThread) :
    Prop
  | arrived (id : Nat) (req : Request) (acting : action = .gotPdu id req)
      (idle : s.threads.held id = none)
      (here : threads = s.threads.set id (some { req, pc := .received }))
  | moved (id : Nat) (t : BufferThread) (v : Option BufferThread) (acting : action = .dispatch id)
      (held : s.threads.held id = some t) (here : threads = s.threads.set id v)
      (goes : Goes s t v)
  | destroyed (empty : threads.keys = ∅)

theorem dispatch_goes (registered : Nat → Bool) (s : ReplyBuffers) (id : Nat) (t : BufferThread) :
    ∃ v, (s.dispatch registered id t).threads = s.threads.set id v ∧ Goes s t v := by
  unfold dispatch
  cases place : t.pc with
  | received =>
      rcases check_eq registered s id place with ⟨v, same, goes⟩
      dsimp only
      rw [same]
      exact ⟨v, rfl, goes⟩
  | creating => exact ⟨_, rfl, .created place⟩
  | checking =>
      dsimp only
      rw [classify_eq]
      exact ⟨_, rfl, .checked place⟩
  | handling => exact ⟨_, rfl, .returned place⟩
  | replying b =>
      dsimp only
      unfold record
      split <;> exact ⟨_, rfl, .replied b place⟩
  | sending b =>
      dsimp only
      split <;> exact ⟨none, rfl, .left⟩

theorem threadStep (taken : s.step registered action = some next) :
    ThreadStep s action next.threads := by
  cases action with
  | gotPdu id req =>
      simp only [step] at taken
      split at taken
      · next free =>
          cases taken
          exact .arrived id req rfl (Option.isNone_iff_eq_none.mp free.1) rfl
      · contradiction
  | dispatch id =>
      rcases Option.map_eq_some_iff.mp taken with ⟨t, held, rfl⟩
      rcases dispatch_goes registered s id t with ⟨v, threads, goes⟩
      exact .moved id t v rfl held threads goes
  | destroy =>
      simp only [step] at taken
      split at taken
      · next idle =>
          cases taken
          exact .destroyed idle.1
      · contradiction

/-- Where a thread that is there after a step was before. -/
inductive Came (s : ReplyBuffers) (action : Action) (id : Nat) (u : BufferThread) : Prop
  | stayed (held : s.threads.held id = some u) (waits : action ≠ .dispatch id)
  | arrived (place : u.pc = .received)
  | moved (t : BufferThread) (acting : action = .dispatch id)
      (held : s.threads.held id = some t) (goes : Goes s t (some u))

theorem came {u : BufferThread} (taken : s.step registered action = some next)
    (held : next.threads.held id = some u) : Came s action id u := by
  cases threadStep taken with
  | arrived other req acting _ here =>
      rw [here] at held
      rcases Holders.held_set_some held with ⟨_, rfl⟩ | ⟨_, before⟩
      · exact .arrived rfl
      · refine .stayed before ?_
        rw [acting]
        nofun
  | moved other t v acting before here goes =>
      rw [here] at held
      rcases Holders.held_set held with ⟨rfl, rfl⟩ | ⟨differs, stays⟩
      · exact .moved t acting before goes
      · refine .stayed stays ?_
        rw [acting]
        intro same
        exact differs (Action.dispatch.inj same).symm
  | destroyed empty =>
      rw [Holders.keys_eq_empty.mp empty id] at held
      contradiction

/-- The windows after a step: as before, one cleared, one checked, one with a reply. -/
inductive WindowStep (s : ReplyBuffers) (action : Action) (window : Nat → List (ReplyT Nat)) : Prop
  | same (windows : window = s.window)
  | checked (id : Nat) (t : BufferThread) (acting : action = .dispatch id)
      (held : s.threads.held id = some t) (place : t.pc = .checking)
      (windows : window = Function.update s.window t.req.cltNonce
        (checkduplicateAndUpdate (s.window t.req.cltNonce) t.req.xid t.req.xidRep).2)
  | recorded (id : Nat) (t : BufferThread) (b : Nat) (acting : action = .dispatch id)
      (held : s.threads.held id = some t) (place : t.pc = .replying b)
      (nonzero : t.req.cltNonce ≠ 0)
      (windows : window = Function.update s.window t.req.cltNonce
        (addReply t.req.xid b (s.window t.req.cltNonce)))
  | destroyed (empty : s.threads.keys = ∅) (windows : window = fun _ => [])

theorem next_eq_dispatch (held : s.threads.held id = some t)
    (taken : s.step registered (.dispatch id) = some next) :
    next = s.dispatch registered id t := by
  simp only [step, held, Option.map_some, Option.some.injEq] at taken
  exact taken.symm

theorem window_checking (registered : Nat → Bool) (s : ReplyBuffers) (id : Nat)
    (place : t.pc = .checking) :
    (s.dispatch registered id t).window = Function.update s.window t.req.cltNonce
      (checkduplicateAndUpdate (s.window t.req.cltNonce) t.req.xid t.req.xidRep).2 := by
  simp only [dispatch, place, classify_eq]
  exact window_updateWindow (s := s.free _) _ _

theorem window_replying (registered : Nat → Bool) (s : ReplyBuffers) (id : Nat)
    (place : t.pc = .replying b) (nonzero : t.req.cltNonce ≠ 0) :
    (s.dispatch registered id t).window = Function.update s.window t.req.cltNonce
      (addReply t.req.xid b (s.window t.req.cltNonce)) := by
  simp only [dispatch, place, record_eq nonzero]
  exact window_updateWindow _ _

theorem windowStep (taken : s.step registered action = some next) :
    WindowStep s action next.window := by
  cases action with
  | gotPdu id req =>
      simp only [step] at taken
      split at taken
      · cases taken
        exact .same rfl
      · contradiction
  | dispatch id =>
      rcases Option.map_eq_some_iff.mp taken with ⟨t, held, rfl⟩
      cases place : t.pc with
      | received =>
          rcases check_eq registered s id place with ⟨v, same, _⟩
          simp only [dispatch, place, same]
          exact .same rfl
      | creating =>
          refine .same ?_
          simp only [dispatch, place]
          change (s.updateWindow _ _).window = _
          rw [window_updateWindow, Function.update_eq_self]
      | checking => exact .checked id t rfl held place (window_checking registered s id place)
      | handling =>
          simp only [dispatch, place]
          exact .same rfl
      | replying b =>
          by_cases zero : t.req.cltNonce = 0
          · simp only [dispatch, place, record, if_neg (Nat.not_lt.mpr (Nat.le_of_eq zero))]
            exact .same rfl
          · exact .recorded id t b rfl held place zero (window_replying registered s id place zero)
      | sending b =>
          simp only [dispatch, place]
          split <;> exact .same rfl
  | destroy =>
      simp only [step] at taken
      split at taken
      · next idle =>
          cases taken
          exact .destroyed idle.1 rfl
      · contradiction

theorem Ledger.ascending_step (inv : Ledger s) (taken : s.step registered action = some next)
    (n : Nat) : StrictlyAscending ReplyT.xid (next.window n) := by
  cases windowStep taken with
  | same windows =>
      rw [windows]
      exact inv.ascending n
  | checked id t _ held place windows =>
      rw [windows]
      exact ascending_checked (checkduplicateAndUpdate_classified _ _ (inv.ascending _))
        inv.ascending n
  | recorded id t b _ held place nonzero windows =>
      rw [windows]
      exact ascending_recorded inv.ascending n
  | destroyed empty windows =>
      rw [windows]
      exact List.Pairwise.nil

/-- An entry was there before, waits for its reply, or has just got it. -/
theorem Ledger.mem_step (inv : Ledger s) (taken : s.step registered action = some next)
    {n : Nat} {e : ReplyT Nat} (member : e ∈ next.window n) :
    e ∈ s.window n ∨ (∃ xid, e = { xid }) ∨
      ∃ id t b, s.threads.held id = some t ∧ t.pc = .replying b ∧
        e = { xid := t.req.xid, cbPresent := true, buf := some b } := by
  cases windowStep taken with
  | same windows =>
      rw [windows] at member
      exact Or.inl member
  | checked id t _ held place windows =>
      rw [windows] at member
      have classified := checkduplicateAndUpdate_classified t.req.xid t.req.xidRep
        (inv.ascending t.req.cltNonce)
      rcases mem_checked classified member with old | ⟨_, entered, _⟩
      · exact Or.inl old
      · exact Or.inr (Or.inl ⟨_, entered⟩)
  | recorded id t b _ held place nonzero windows =>
      rw [windows] at member
      rcases mem_recorded inv.ascending member with ⟨old, _⟩ | ⟨_, filled, _⟩
      · exact Or.inl old
      · exact Or.inr (Or.inr ⟨id, t, b, held, place, filled⟩)
  | destroyed empty windows =>
      rw [windows] at member
      contradiction

theorem Ledger.tracked_step (inv : Ledger s) (taken : s.step registered action = some next)
    {u : BufferThread} (held : next.threads.held id = some u)
    (place : u.pc = .creating ∨ u.pc = .checking) : u.req.cltNonce ≠ 0 := by
  cases came taken held with
  | stayed before _ => exact inv.tracked id u before place
  | arrived here =>
      rw [here] at place
      rcases place with place | place <;> contradiction
  | moved t _ before goes =>
      generalize gone : some u = v at goes
      cases goes with
      | left => contradiction
      | tracked _ nonzero =>
          cases gone
          exact nonzero
      | created earlier =>
          cases gone
          exact inv.tracked id t before (Or.inl earlier)
      | refused | untracked | returned | replied =>
          cases gone
          rcases place with place | place <;> contradiction
      | checked earlier =>
          have nonzero := inv.tracked id t before (Or.inr earlier)
          unfold classified at gone
          split at gone <;> cases gone <;> exact nonzero

theorem Ledger.step (inv : Ledger s) (taken : s.step registered action = some next) :
    Ledger next where
  ascending := inv.ascending_step taken
  present n e member := by
    rcases inv.mem_step taken member with old | ⟨xid, rfl⟩ | ⟨_, _, b, _, _, rfl⟩
    · exact inv.present n e old
    · rfl
    · rfl
  tracked id u held place := inv.tracked_step taken held place
  within b := by
    rcases inv.flow taken b with ⟨lost, flow, _⟩
    have before := inv.within b
    omega

end ReplyBuffers

end YfsRpc.Rpc
