import YfsRpc.Rpc.RawView

/-! # Reply buffers that stay what they were

A block belongs to the thread that packed a reply into it until `add_reply` leaves it to the
reply window, or for good when the client has none. As long as no check frees a buffer that
is being sent, each pointer leads to an allocated block with the reply it was made for.
-/

namespace YfsRpc.Rpc

namespace RawServer

variable {ι σ Local : Type}

/-- Nobody else has a pointer to the block. -/
def Owns (t : RawThread ι Local) (b : Nat) : Prop :=
  t.pc.buffer = some b ∧ (t.req.cltNonce = 0 ∨ t.pc = .replying b)

/-- Who points to which block. -/
structure Kept (s : RawServer ι σ Local) : Prop where
  ascending : ∀ n, StrictlyAscending ReplyT.xid (s.replyWindow n)
  live : ∀ b, s.Refers b → s.heap b ≠ none
  /-- a block is in one entry of one window -/
  single : ∀ n, ∀ e ∈ s.replyWindow n, ∀ m, ∀ d ∈ s.replyWindow m, ∀ b,
    e.buf = some b → d.buf = some b → n = m ∧ e.xid = d.xid
  /-- the entry of a block that a thread points to is the one of its request -/
  home : ∀ id t b, s.threads.held id = some t → t.pc.buffer = some b →
    ∀ n, ∀ e ∈ s.replyWindow n, e.buf = some b →
      n = t.req.cltNonce ∧ e.xid = t.req.xid ∧ ¬ Owns t b
  own : ∀ id t b, s.threads.held id = some t → Owns t b →
    ∀ other u, s.threads.held other = some u → u.pc.buffer = some b → other = id
  tracked : ∀ id t, s.threads.held id = some t → t.pc = .saving ∨ t.pc = .checking →
    t.req.cltNonce ≠ 0

variable {s next : RawServer ι σ Local} {id : Nat} {t : RawThread ι Local}

/-! ## What a step does to the blocks -/

/-- Where the thread goes without a new pointer. -/
structure Moves (t u : RawThread ι Local) : Prop where
  req : u.req = t.req
  buffer : ∀ b, u.pc.buffer = some b → t.pc.buffer = some b ∧ u.pc ≠ .replying b
  tracked : u.pc = .saving ∨ u.pc = .checking → t.req.cltNonce ≠ 0 ∨ t.pc = .saving

/-- Where the check sends the thread, with the buffer of an entry if it found one. -/
structure Checks (t u : RawThread ι Local) (stat : RpcState Nat) : Prop where
  req : u.req = t.req
  buffer : ∀ b, u.pc.buffer = some b → stat = .done (some b) ∧ u.pc ≠ .replying b
  passed : u.pc ≠ .saving ∧ u.pc ≠ .checking

inductive HeapStep (s : RawServer ι σ Local) (id : Nat) (t : RawThread ι Local)
    (next : RawServer ι σ Local) : Prop
  | moved (v : Option (RawThread ι Local)) (threads : next.threads = s.threads.set id v)
      (windows : next.replyWindow = s.replyWindow) (heap : next.heap = s.heap)
      (moves : ∀ u ∈ v, Moves t u)
  | checked (place : t.pc = .checking) (v : Option (RawThread ι Local))
      (threads : next.threads = s.threads.set id v)
      (windows : next.replyWindow = Function.update s.replyWindow t.req.cltNonce
        (checkduplicateAndUpdate (s.replyWindow t.req.cltNonce) t.req.xid t.req.xidRep).2)
      (heap : next.heap = (s.free (scanFreed t.req.xid t.req.xidRep []
        (s.replyWindow t.req.cltNonce))).heap)
      (checks : ∀ u ∈ v, Checks t u
        (checkduplicateAndUpdate (s.replyWindow t.req.cltNonce) t.req.xid t.req.xidRep).1)
  | packed (block : Nat) (a : Answer) (free : s.heap block = none)
      (threads : next.threads = s.threads.set id (some { t with pc := .replying block }))
      (windows : next.replyWindow = s.replyWindow)
      (heap : next.heap = Function.update s.heap block (some a))
  | recorded (b1 : Nat) (place : t.pc = .replying b1) (nonzero : t.req.cltNonce ≠ 0)
      (threads : next.threads = s.threads.set id (some { t with pc := .choosing b1 }))
      (windows : next.replyWindow = Function.update s.replyWindow t.req.cltNonce
        (addReply t.req.xid b1 (s.replyWindow t.req.cltNonce)))
      (heap : next.heap = s.heap)
  | released (c : Conn ι) (b1 : Nat) (place : t.pc = .sending c b1) (zero : t.req.cltNonce = 0)
      (threads : next.threads = s.threads.set id none)
      (windows : next.replyWindow = s.replyWindow) (heap : next.heap = (s.free [b1]).heap)

theorem check_heapStep (service : Service σ Local) (s : RawServer ι σ Local) (id : Nat)
    (t : RawThread ι Local) : HeapStep s id t (s.check service id t) := by
  unfold check
  split
  · exact .moved _ rfl rfl rfl (by rintro u ⟨⟩; exact ⟨rfl, nofun, nofun⟩)
  · split
    · exact .moved none rfl rfl rfl nofun
    · split
      · next nonzero =>
          exact .moved _ rfl rfl rfl
            (by rintro u ⟨⟩; exact ⟨rfl, nofun, fun _ => Or.inl nonzero⟩)
      · exact .moved _ rfl rfl rfl (by rintro u ⟨⟩; exact ⟨rfl, nofun, nofun⟩)

theorem classify_heapStep {service : Service σ Local} (place : t.pc = .checking)
    (done : s.classify service id t = some next) : HeapStep s id t next := by
  unfold classify at done
  cases result : checkduplicateAndUpdate (s.replyWindow t.req.cltNonce) t.req.xid t.req.xidRep with
  | mk stat updated =>
      have windows : updated = (checkduplicateAndUpdate (s.replyWindow t.req.cltNonce) t.req.xid
        t.req.xidRep).2 := by rw [result]
      have answered : stat = (checkduplicateAndUpdate (s.replyWindow t.req.cltNonce) t.req.xid
        t.req.xidRep).1 := by rw [result]
      simp only [result] at done
      cases stat with
      | new =>
          cases done
          exact .checked place _ rfl (by rw [← windows]; rfl) rfl
            (by rintro u ⟨⟩; exact ⟨rfl, nofun, nofun, nofun⟩)
      | inprogress =>
          cases done
          exact .checked place none rfl (by rw [← windows]; rfl) rfl nofun
      | done buffer =>
          cases buffer with
          | none => contradiction
          | some b1 =>
              cases done
              refine .checked place _ rfl (by rw [← windows]; rfl) rfl ?_
              rintro u ⟨⟩
              refine ⟨rfl, ?_, nofun, nofun⟩
              rintro b ⟨⟩
              exact ⟨answered.symm, nofun⟩
      | forgotten =>
          cases done
          exact .checked place _ rfl (by rw [← windows]; rfl) rfl
            (by rintro u ⟨⟩; exact ⟨rfl, nofun, nofun, nofun⟩)

theorem handle_heapStep {service : Service σ Local} {h : Running Local} {choice block : Nat}
    (done : s.handle service id t h choice block = some next) : HeapStep s id t next := by
  unfold handle at done
  dsimp only at done
  split at done
  · contradiction
  · cases done
    exact .moved _ rfl rfl rfl (by rintro u ⟨⟩; exact ⟨rfl, nofun, nofun⟩)
  · split at done
    · unfold finishHandler at done
      dsimp only at done
      split at done
      · next free =>
          cases done
          exact .packed block _ free rfl rfl rfl
      · contradiction
    · contradiction

theorem dispatch_heapStep [DecidableEq ι] {service : Service σ Local} {choice block : Nat}
    {isdead : Bool} {sent : Option (Message ι)}
    (done : s.dispatch service id choice isdead block = some (next, sent)) :
    ∃ t, s.threads.held id = some t ∧ HeapStep s id t next := by
  unfold dispatch at done
  cases held : s.threads.held id with
  | none =>
      rw [held] at done
      contradiction
  | some t =>
      rw [held] at done
      refine ⟨t, rfl, ?_⟩
      cases place : t.pc with
      | received =>
          simp only [place] at done
          cases done
          exact check_heapStep service s id t
      | saving =>
          simp only [place] at done
          cases done
          exact .moved _ rfl rfl rfl
            (by rintro u ⟨⟩; exact ⟨rfl, nofun, fun _ => Or.inr place⟩)
      | checking =>
          simp only [place] at done
          rcases Option.map_eq_some_iff.mp done with ⟨_, stepped, same⟩
          cases same
          exact classify_heapStep place stepped
      | handling h =>
          simp only [place] at done
          rcases Option.map_eq_some_iff.mp done with ⟨_, stepped, same⟩
          cases same
          exact handle_heapStep stepped
      | replying b1 =>
          simp only [place] at done
          cases done
          unfold record
          split
          · next positive =>
              exact .recorded b1 place (Nat.pos_iff_ne_zero.mp positive) rfl rfl rfl
          · refine .moved _ rfl rfl rfl ?_
            rintro u ⟨⟩
            exact ⟨rfl, fun b points => ⟨by rw [place]; exact points, nofun⟩, nofun⟩
      | choosing b1 =>
          simp only [place] at done
          rcases Option.map_eq_some_iff.mp done with ⟨_, stepped, same⟩
          cases same
          have moves (c : Conn ι) : Moves t { t with pc := .sending c b1 } :=
            ⟨rfl, fun b points => ⟨by rw [place]; exact points, nofun⟩, nofun⟩
          unfold chooseConn at stepped
          split at stepped
          · rcases Option.map_eq_some_iff.mp stepped with ⟨c, latest, rfl⟩
            exact .moved _ rfl rfl rfl (by rintro u ⟨⟩; exact moves c)
          · cases stepped
            exact .moved _ rfl rfl rfl (by rintro u ⟨⟩; exact moves t.conn)
      | sending c b1 =>
          simp only [place] at done
          rcases Option.map_eq_some_iff.mp done with ⟨a, reads, same⟩
          split at same
          · next zero =>
              cases same
              exact .released c b1 place zero rfl rfl rfl
          · cases same
            exact .moved none rfl rfl rfl nofun
      | refusing a =>
          simp only [place] at done
          cases done
          exact .moved none rfl rfl rfl nofun

/-! ## The blocks stay where they are -/

theorem Kept.moved (kept : Kept s) (held : s.threads.held id = some t)
    {v : Option (RawThread ι Local)} (threads : next.threads = s.threads.set id v)
    (windows : next.replyWindow = s.replyWindow) (heap : next.heap = s.heap)
    (moves : ∀ u ∈ v, Moves t u) : Kept next := by
  -- whoever points to a block did so before, and owned it if it does now
  have before : ∀ other u b, next.threads.held other = some u → u.pc.buffer = some b →
      ∃ w, s.threads.held other = some w ∧ w.pc.buffer = some b ∧ w.req = u.req ∧
        (Owns u b → Owns w b) := by
    intro other u b found points
    rw [threads] at found
    rcases Holders.held_set found with ⟨rfl, here⟩ | ⟨_, stays⟩
    · have move := moves u here
      rcases move.buffer b points with ⟨pointed, elsewhere⟩
      refine ⟨t, held, pointed, move.req.symm, fun owns => ⟨pointed, Or.inl ?_⟩⟩
      rw [← move.req]
      exact owns.2.resolve_right elsewhere
    · exact ⟨u, stays, points, rfl, fun owns => owns⟩
  constructor
  · rw [windows]
    exact kept.ascending
  · rintro b (⟨n, e, member, buf⟩ | ⟨other, u, found, points⟩)
    · rw [windows] at member
      rw [heap]
      exact kept.live b (Or.inl ⟨n, e, member, buf⟩)
    · rcases before other u b found points with ⟨w, was, pointed, _⟩
      rw [heap]
      exact kept.live b (Or.inr ⟨other, w, was, pointed⟩)
  · rw [windows]
    exact kept.single
  · intro other u b found points n e member buf
    rcases before other u b found points with ⟨w, was, pointed, req, owned⟩
    rw [windows] at member
    rw [← req]
    exact (kept.home other w b was pointed n e member buf).imp_right fun ⟨same, shared⟩ =>
      ⟨same, mt owned shared⟩
  · intro other u b found owns other' u' found' points'
    rcases before other u b found owns.1 with ⟨w, was, _, _, owned⟩
    rcases before other' u' b found' points' with ⟨w', was', pointed', _⟩
    exact kept.own other w b was (owned owns) other' w' was' pointed'
  · intro other u found place
    rw [threads] at found
    rcases Holders.held_set found with ⟨rfl, here⟩ | ⟨_, stays⟩
    · have move := moves u here
      rw [move.req]
      exact (move.tracked place).elim (fun nonzero => nonzero) fun saving =>
        kept.tracked other t held (Or.inl saving)
    · exact kept.tracked other u stays place

/-- An entry with a block was there before the check, and was not trimmed. -/
theorem Kept.mem_checked (kept : Kept s) (t : RawThread ι Local) {n b : Nat} {e : ReplyT Nat}
    (member : e ∈ Function.update s.replyWindow t.req.cltNonce
      (checkduplicateAndUpdate (s.replyWindow t.req.cltNonce) t.req.xid t.req.xidRep).2 n)
    (buf : e.buf = some b) :
    e ∈ s.replyWindow n ∧ (n = t.req.cltNonce → t.req.xidRep ≤ e.xid) := by
  have classified := checkduplicateAndUpdate_classified t.req.xid t.req.xidRep
    (kept.ascending t.req.cltNonce)
  by_cases here : n = t.req.cltNonce
  · subst here
    rw [Function.update_self] at member
    rcases classified.mem member with old | ⟨rfl, _⟩
    · exact (mem_trim.mp old).imp_right fun above _ => above
    · contradiction
  · rw [Function.update_of_ne here] at member
    exact ⟨member, fun same => absurd same here⟩

/-- The check frees the block of no other entry than those that it trims. -/
theorem Kept.unfreed_of_stored (kept : Kept s) (t : RawThread ι Local) {n b : Nat}
    {e : ReplyT Nat} (member : e ∈ s.replyWindow n)
    (above : n = t.req.cltNonce → t.req.xidRep ≤ e.xid) (buf : e.buf = some b) :
    b ∉ scanFreed t.req.xid t.req.xidRep [] (s.replyWindow t.req.cltNonce) := by
  intro freed
  rcases (mem_scanFreed (kept.ascending _)).mp freed with ⟨d, trimmed, small, buf'⟩
  rcases kept.single n e member _ d trimmed b buf buf' with ⟨same, xid⟩
  have large := above same
  omega

/-- Nor does it free one that a thread points to: its reply is not acknowledged. -/
theorem Kept.unfreed_of_pointed (kept : Kept s) (held : s.threads.held id = some t)
    (place : t.pc = .checking) (delivered : Delivered s id) {other b : Nat}
    {u : RawThread ι Local} (stays : s.threads.held other = some u)
    (points : u.pc.buffer = some b) :
    b ∉ scanFreed t.req.xid t.req.xidRep [] (s.replyWindow t.req.cltNonce) := by
  intro freed
  rcases (mem_scanFreed (kept.ascending _)).mp freed with ⟨d, trimmed, small, buf⟩
  rcases kept.home other u b stays points _ d trimmed buf with ⟨client, xid, _⟩
  have key : other ∈ s.threads.keys := (s.threads.mem_keys other).mpr (by simp [stays])
  exact delivered t held (by rw [place]) other key u stays
    ⟨client.symm, xid ▸ small, d, trimmed, xid, by simp [buf], points.trans buf.symm⟩

/-- A thread that gets a block from the check has that of the entry for its xid. -/
theorem Kept.answered (kept : Kept s) {u : RawThread ι Local} {b : Nat}
    (check : Checks t u
      (checkduplicateAndUpdate (s.replyWindow t.req.cltNonce) t.req.xid t.req.xidRep).1)
    (points : u.pc.buffer = some b) :
    ∃ e ∈ s.replyWindow t.req.cltNonce, e ∈ (checkduplicateAndUpdate
        (s.replyWindow t.req.cltNonce) t.req.xid t.req.xidRep).2 ∧
      e.xid = t.req.xid ∧ e.buf = some b := by
  have classified := checkduplicateAndUpdate_classified t.req.xid t.req.xidRep
    (kept.ascending t.req.cltNonce)
  rw [(check.buffer b points).1] at classified
  rcases classified.of_done with ⟨e, old, xid, buf⟩
  exact ⟨e, (mem_trim.mp old).1, classified.keeps old, xid, buf⟩

/-- The check frees no block that anybody points to afterwards. -/
theorem Kept.checked (kept : Kept s) (held : s.threads.held id = some t)
    (place : t.pc = .checking) (delivered : Delivered s id)
    {v : Option (RawThread ι Local)} (threads : next.threads = s.threads.set id v)
    (windows : next.replyWindow = Function.update s.replyWindow t.req.cltNonce
      (checkduplicateAndUpdate (s.replyWindow t.req.cltNonce) t.req.xid t.req.xidRep).2)
    (heap : next.heap = (s.free (scanFreed t.req.xid t.req.xidRep []
      (s.replyWindow t.req.cltNonce))).heap)
    (checks : ∀ u ∈ v, Checks t u
      (checkduplicateAndUpdate (s.replyWindow t.req.cltNonce) t.req.xid t.req.xidRep).1) :
    Kept next := by
  have nonzero := kept.tracked id t held (Or.inr place)
  have unfreed : ∀ b, b ∉ scanFreed t.req.xid t.req.xidRep [] (s.replyWindow t.req.cltNonce) →
      next.heap b = s.heap b := by
    intro b spared
    rw [heap]
    exact if_neg spared
  have entries : ∀ n, ∀ e ∈ next.replyWindow n, ∀ b, e.buf = some b →
      e ∈ s.replyWindow n ∧ next.heap b = s.heap b := by
    intro n e member b buf
    rw [windows] at member
    rcases kept.mem_checked t member buf with ⟨old, above⟩
    exact ⟨old, unfreed b (kept.unfreed_of_stored t old above buf)⟩
  have answered : ∀ u ∈ v, ∀ b, u.pc.buffer = some b → ¬ Owns u b ∧
      ∃ e ∈ s.replyWindow t.req.cltNonce, e ∈ next.replyWindow t.req.cltNonce ∧
        e.xid = t.req.xid ∧ e.buf = some b := by
    intro u here b points
    have check := checks u here
    refine ⟨fun owns => ?_, ?_⟩
    · rcases owns.2 with zero | replying
      · exact nonzero (check.req ▸ zero)
      · exact (check.buffer b points).2 replying
    · rw [windows, Function.update_self]
      exact kept.answered check points
  have came : ∀ other u, next.threads.held other = some u →
      (other = id ∧ u ∈ v) ∨ (other ≠ id ∧ s.threads.held other = some u) := by
    intro other u found
    rw [threads] at found
    exact Holders.held_set found
  constructor
  · intro n
    rw [windows]
    by_cases here : n = t.req.cltNonce
    · subst here
      rw [Function.update_self]
      exact (checkduplicateAndUpdate_classified _ _ (kept.ascending _)).ascending
        (trim_ascending _ (kept.ascending _))
    · rw [Function.update_of_ne here]
      exact kept.ascending n
  · rintro b (⟨n, e, member, buf⟩ | ⟨other, u, found, points⟩)
    · rcases entries n e member b buf with ⟨old, same⟩
      rw [same]
      exact kept.live b (Or.inl ⟨n, e, old, buf⟩)
    · rcases came other u found with ⟨rfl, here⟩ | ⟨_, stays⟩
      · rcases answered u here b points with ⟨_, e, old, member, _, buf⟩
        rw [(entries _ e member b buf).2]
        exact kept.live b (Or.inl ⟨_, e, old, buf⟩)
      · rw [unfreed b (kept.unfreed_of_pointed held place delivered stays points)]
        exact kept.live b (Or.inr ⟨other, u, stays, points⟩)
  · intro n e member m d member' b buf buf'
    exact kept.single n e (entries n e member b buf).1 m d (entries m d member' b buf').1 b buf buf'
  · intro other u b found points n e member buf
    have old := (entries n e member b buf).1
    rcases came other u found with ⟨rfl, here⟩ | ⟨_, stays⟩
    · rcases answered u here b points with ⟨shared, d, stored, _, xid, buf'⟩
      rcases kept.single n e old _ d stored b buf buf' with ⟨rfl, same⟩
      rw [(checks u here).req]
      exact ⟨rfl, same.trans xid, shared⟩
    · exact kept.home other u b stays points n e old buf
  · intro other u b found owns other' u' found' points'
    rcases came other u found with ⟨_, here⟩ | ⟨_, stays⟩
    · exact absurd owns (answered u here b owns.1).1
    · rcases came other' u' found' with ⟨_, here'⟩ | ⟨_, stays'⟩
      · rcases answered u' here' b points' with ⟨_, e, old, _, _, buf⟩
        exact absurd owns (kept.home other u b stays owns.1 _ e old buf).2.2
      · exact kept.own other u b stays owns other' u' stays' points'
  · intro other u found at_check
    rcases came other u found with ⟨_, here⟩ | ⟨_, stays⟩
    · exact (at_check.elim (checks u here).passed.1 (checks u here).passed.2).elim
    · exact kept.tracked other u stays at_check

/-- A new block is known to the thread that packed it only. -/
theorem Kept.packed (kept : Kept s) {block : Nat} {a : Answer} (free : s.heap block = none)
    (threads : next.threads = s.threads.set id (some { t with pc := .replying block }))
    (windows : next.replyWindow = s.replyWindow)
    (heap : next.heap = Function.update s.heap block (some a)) : Kept next := by
  have fresh : ¬ s.Refers block := fun refers => kept.live block refers free
  have unpointed : ∀ other u, s.threads.held other = some u → u.pc.buffer ≠ some block :=
    fun other u stays points => fresh (Or.inr ⟨other, u, stays, points⟩)
  have allocated : ∀ b, s.heap b ≠ none → next.heap b ≠ none := by
    intro b lives
    rw [heap]
    by_cases here : b = block
    · subst here
      exact absurd free lives
    · rw [Function.update_of_ne here]
      exact lives
  have came : ∀ other u, next.threads.held other = some u →
      (other = id ∧ u = { t with pc := .replying block }) ∨
        (other ≠ id ∧ s.threads.held other = some u) := by
    intro other u found
    rw [threads] at found
    exact Holders.held_set_some found
  constructor
  · rw [windows]
    exact kept.ascending
  · rintro b (⟨n, e, member, buf⟩ | ⟨other, u, found, points⟩)
    · rw [windows] at member
      exact allocated b (kept.live b (Or.inl ⟨n, e, member, buf⟩))
    · rcases came other u found with ⟨_, rfl⟩ | ⟨_, stays⟩
      · cases points
        rw [heap, Function.update_self]
        exact nofun
      · exact allocated b (kept.live b (Or.inr ⟨other, u, stays, points⟩))
  · rw [windows]
    exact kept.single
  · intro other u b found points n e member buf
    rw [windows] at member
    rcases came other u found with ⟨_, rfl⟩ | ⟨_, stays⟩
    · cases points
      exact absurd (Or.inl ⟨n, e, member, buf⟩) fresh
    · exact kept.home other u b stays points n e member buf
  · intro other u b found owns other' u' found' points'
    rcases came other u found with ⟨rfl, rfl⟩ | ⟨_, stays⟩
    · cases owns.1
      rcases came other' u' found' with ⟨same, _⟩ | ⟨_, stays'⟩
      · exact same
      · exact absurd points' (unpointed other' u' stays')
    · rcases came other' u' found' with ⟨_, rfl⟩ | ⟨_, stays'⟩
      · cases points'
        exact absurd owns.1 (unpointed other u stays)
      · exact kept.own other u b stays owns other' u' stays' points'
  · intro other u found at_check
    rcases came other u found with ⟨_, rfl⟩ | ⟨_, stays⟩
    · rcases at_check with place | place <;> contradiction
    · exact kept.tracked other u stays at_check

/-- After `add_reply` a block is in the entry where it was, or it is the one of the thread and
in the entry of its request. -/
theorem Kept.mem_recorded (kept : Kept s) (held : s.threads.held id = some t) {b1 : Nat}
    (place : t.pc = .replying b1) {n b : Nat} {e : ReplyT Nat}
    (member : e ∈ Function.update s.replyWindow t.req.cltNonce
      (addReply t.req.xid b1 (s.replyWindow t.req.cltNonce)) n) (buf : e.buf = some b) :
    (e ∈ s.replyWindow n ∧ b ≠ b1) ∨ (n = t.req.cltNonce ∧ e.xid = t.req.xid ∧ b = b1) := by
  have pointed : t.pc.buffer = some b1 := by rw [place]; rfl
  have old (before : e ∈ s.replyWindow n) : e ∈ s.replyWindow n ∧ b ≠ b1 := by
    refine ⟨before, ?_⟩
    rintro rfl
    exact (kept.home id t b held pointed n e before buf).2.2 ⟨pointed, Or.inr place⟩
  by_cases here : n = t.req.cltNonce
  · subst here
    rw [Function.update_self] at member
    rcases mem_addReply (kept.ascending _) member with ⟨_, before⟩ | ⟨rfl, _⟩
    · exact Or.inl (old before)
    · cases buf
      exact Or.inr ⟨rfl, rfl, rfl⟩
  · rw [Function.update_of_ne here] at member
    exact Or.inl (old member)

/-- `add_reply` leaves the block of the thread to the entry of its request. -/
theorem Kept.recorded (kept : Kept s) (held : s.threads.held id = some t) {b1 : Nat}
    (place : t.pc = .replying b1) (nonzero : t.req.cltNonce ≠ 0)
    (threads : next.threads = s.threads.set id (some { t with pc := .choosing b1 }))
    (windows : next.replyWindow = Function.update s.replyWindow t.req.cltNonce
      (addReply t.req.xid b1 (s.replyWindow t.req.cltNonce)))
    (heap : next.heap = s.heap) : Kept next := by
  have pointed : t.pc.buffer = some b1 := by rw [place]; rfl
  have owned : Owns t b1 := ⟨pointed, Or.inr place⟩
  have entries : ∀ n, ∀ e ∈ next.replyWindow n, ∀ b, e.buf = some b →
      (e ∈ s.replyWindow n ∧ b ≠ b1) ∨ (n = t.req.cltNonce ∧ e.xid = t.req.xid ∧ b = b1) :=
    fun n e member b buf => kept.mem_recorded held place (windows ▸ member) buf
  have came : ∀ other u, next.threads.held other = some u →
      (other = id ∧ u = { t with pc := .choosing b1 }) ∨
        (other ≠ id ∧ s.threads.held other = some u) := by
    intro other u found
    rw [threads] at found
    exact Holders.held_set_some found
  -- nobody else points to the block
  have other_block : ∀ other u b, other ≠ id → s.threads.held other = some u →
      u.pc.buffer = some b → b ≠ b1 := by
    rintro other u b differs stays points rfl
    exact differs (kept.own id t b held owned other u stays points)
  constructor
  · intro n
    rw [windows]
    by_cases here : n = t.req.cltNonce
    · subst here
      rw [Function.update_self]
      exact addReply_ascending _ _ (kept.ascending _)
    · rw [Function.update_of_ne here]
      exact kept.ascending n
  · rw [heap]
    have mine := kept.live b1 (Or.inr ⟨id, t, held, pointed⟩)
    rintro b (⟨n, e, member, buf⟩ | ⟨other, u, found, points⟩)
    · rcases entries n e member b buf with ⟨old, _⟩ | ⟨_, _, rfl⟩
      · exact kept.live b (Or.inl ⟨n, e, old, buf⟩)
      · exact mine
    · rcases came other u found with ⟨_, rfl⟩ | ⟨_, stays⟩
      · cases points
        exact mine
      · exact kept.live b (Or.inr ⟨other, u, stays, points⟩)
  · intro n e member m d member' b buf buf'
    rcases entries n e member b buf with ⟨old, differs⟩ | ⟨rfl, xid, rfl⟩ <;>
      rcases entries m d member' b buf' with ⟨old', differs'⟩ | ⟨rfl, xid', same⟩
    · exact kept.single n e old m d old' b buf buf'
    · exact absurd same differs
    · exact absurd rfl differs'
    · exact ⟨rfl, xid.trans xid'.symm⟩
  · intro other u b found points n e member buf
    rcases came other u found with ⟨_, rfl⟩ | ⟨differs, stays⟩
    · cases points
      rcases entries n e member b1 buf with ⟨_, elsewhere⟩ | ⟨rfl, xid, _⟩
      · exact absurd rfl elsewhere
      · exact ⟨rfl, xid, fun owns => owns.2.elim nonzero nofun⟩
    · rcases entries n e member b buf with ⟨old, _⟩ | ⟨_, _, same⟩
      · exact kept.home other u b stays points n e old buf
      · exact absurd same (other_block other u b differs stays points)
  · intro other u b found owns other' u' found' points'
    rcases came other u found with ⟨_, rfl⟩ | ⟨differs, stays⟩
    · exact (owns.2.elim nonzero nofun).elim
    · rcases came other' u' found' with ⟨_, rfl⟩ | ⟨_, stays'⟩
      · cases points'
        exact absurd rfl (other_block other u b1 differs stays owns.1)
      · exact kept.own other u b stays owns other' u' stays' points'
  · intro other u found at_check
    rcases came other u found with ⟨_, rfl⟩ | ⟨_, stays⟩
    · rcases at_check with place | place <;> contradiction
    · exact kept.tracked other u stays at_check

/-- The thread of a client without a window frees the block that is its own. -/
theorem Kept.released (kept : Kept s) (held : s.threads.held id = some t) {c : Conn ι} {b1 : Nat}
    (place : t.pc = .sending c b1) (zero : t.req.cltNonce = 0)
    (threads : next.threads = s.threads.set id none)
    (windows : next.replyWindow = s.replyWindow) (heap : next.heap = (s.free [b1]).heap) :
    Kept next := by
  have pointed : t.pc.buffer = some b1 := by rw [place]; rfl
  have owned : Owns t b1 := ⟨pointed, Or.inl zero⟩
  have came : ∀ other u, next.threads.held other = some u →
      other ≠ id ∧ s.threads.held other = some u := by
    intro other u found
    rw [threads] at found
    exact Holders.held_set_none found
  have unfreed : ∀ b, b ≠ b1 → next.heap b = s.heap b := by
    intro b differs
    rw [heap]
    exact if_neg (by simpa using differs)
  constructor
  · rw [windows]
    exact kept.ascending
  · rintro b (⟨n, e, member, buf⟩ | ⟨other, u, found, points⟩)
    · rw [windows] at member
      rw [unfreed b]
      · exact kept.live b (Or.inl ⟨n, e, member, buf⟩)
      · rintro rfl
        exact (kept.home id t b held pointed n e member buf).2.2 owned
    · rcases came other u found with ⟨differs, stays⟩
      rw [unfreed b]
      · exact kept.live b (Or.inr ⟨other, u, stays, points⟩)
      · rintro rfl
        exact differs (kept.own id t b held owned other u stays points)
  · rw [windows]
    exact kept.single
  · intro other u b found points n e member buf
    rw [windows] at member
    exact kept.home other u b (came other u found).2 points n e member buf
  · intro other u b found owns other' u' found' points'
    exact kept.own other u b (came other u found).2 owns other' u' (came other' u' found').2 points'
  · intro other u found at_check
    exact kept.tracked other u (came other u found).2 at_check

theorem Kept.heapStep (kept : Kept s) (held : s.threads.held id = some t)
    (delivered : Delivered s id) (step : HeapStep s id t next) : Kept next := by
  cases step with
  | moved v threads windows heap moves => exact kept.moved held threads windows heap moves
  | checked place v threads windows heap checks =>
      exact kept.checked held place delivered threads windows heap checks
  | packed block a free threads windows heap => exact kept.packed free threads windows heap
  | recorded b1 place nonzero threads windows heap =>
      exact kept.recorded held place nonzero threads windows heap
  | released c b1 place zero threads windows heap =>
      exact kept.released held place zero threads windows heap

theorem Kept.gotPdu (kept : Kept s) {conn : Conn ι} {req : Request}
    (done : s.gotPdu id conn req = some next) : Kept next := by
  unfold RawServer.gotPdu at done
  split at done
  · contradiction
  · cases done
    have came : ∀ other u, (s.threads.set id (some { conn, req, pc := .received })).held other =
        some u → (u.pc = .received ∧ u.pc.buffer = none) ∨ s.threads.held other = some u := by
      intro other u found
      rcases Holders.held_set_some found with ⟨_, rfl⟩ | ⟨_, stays⟩
      · exact Or.inl ⟨rfl, rfl⟩
      · exact Or.inr stays
    have pointing : ∀ other u b, (s.threads.set id (some { conn, req, pc := .received })).held
        other = some u → u.pc.buffer = some b → s.threads.held other = some u := by
      intro other u b found points
      rcases came other u found with ⟨_, nothing⟩ | stays
      · rw [nothing] at points
        contradiction
      · exact stays
    refine ⟨kept.ascending, ?_, kept.single, ?_, ?_, ?_⟩
    · rintro b (stored | ⟨other, u, found, points⟩)
      · exact kept.live b (Or.inl stored)
      · exact kept.live b (Or.inr ⟨other, u, pointing other u b found points, points⟩)
    · intro other u b found points
      exact kept.home other u b (pointing other u b found points) points
    · intro other u b found owns other' u' found' points'
      exact kept.own other u b (pointing other u b found owns.1) owns other' u'
        (pointing other' u' b found' points') points'
    · intro other u found place
      rcases came other u found with ⟨received, _⟩ | stays
      · rw [received] at place
        rcases place with place | place <;> contradiction
      · exact kept.tracked other u stays place

theorem kept_initial (nonce : Nat) (service : σ) :
    Kept ({ nonce, service } : RawServer ι σ Local) where
  ascending _ := List.Pairwise.nil
  live := by
    rintro b (⟨_, _, member, _⟩ | ⟨_, _, found, _⟩) <;> contradiction
  single _ _ member := nomatch member
  home _ _ _ found := nomatch found
  own _ _ _ found := nomatch found
  tracked _ _ found := nomatch found

end RawServer

end YfsRpc.Rpc
