import YfsRpc.Rpc.ReadBounds

/-! # The end of the stream

When `read` returns 0 although bytes are missing the connection dies, unless the bytes are
those of a body and `errno` is still the `EAGAIN` of an earlier call: `readpdu` then takes
the end of the stream for a read that waits, and the poll thread calls `read_cb` for ever.
-/

namespace YfsRpc.Rpc

namespace ReadEnd

/-- After a `read` of the step that returned 0 with bytes missing the connection is dead
and its descriptor unregistered. -/
def EndKills (s next : ReadEnd) : Prop :=
  ∀ call ∈ next.reads.drop s.reads.length, call.zero = true → call.count ≠ 0 →
    next.dead = true ∧ next.registered = false

/-- The call reads a body of which bytes are missing. -/
def BodyMissing (s : ReadEnd) (header : ReadOutcome) : Prop :=
  if s.rpdu.buf = none then
    header = .bytes rpcSzT ∧ s.nextSz ≤ maxPdu ∧ s.nextSz ≠ rpcSzT
  else
    s.rpdu.solong < s.rpdu.sz

/-- The stream ends inside a body while `errno` is `EAGAIN`. -/
def Stale (s : ReadEnd) (header body : ReadOutcome) : Prop :=
  body = .eof ∧ s.errno = eagain ∧ s.BodyMissing header

/-- The step reads no size from -4 to 3 and meets no end of the stream with a stale
`errno`. -/
def Prompt (s : ReadEnd) (action : Action) : Prop :=
  Sized s action ∧
    match action with
    | .readCb header body _ _ => ¬ s.Stale header body
    | _ => True

instance (s : ReadEnd) (header : ReadOutcome) : Decidable (s.BodyMissing header) := by
  unfold BodyMissing
  infer_instance

instance (s : ReadEnd) (header body : ReadOutcome) : Decidable (s.Stale header body) :=
  inferInstanceAs (Decidable (_ ∧ _))

instance (s : ReadEnd) : (action : Action) → Decidable (Prompt s action)
  | .readCb .. => inferInstanceAs (Decidable (_ ∧ ¬ _))
  | .arrive _ | .close | .errno _ => inferInstanceAs (Decidable (_ ∧ True))

variable {s next : ReadEnd} {header body : ReadOutcome} {memory accept succ : Bool}

/-! ## One call -/

theorem sizeT_ne_zero {x : Int} (low : -2 ^ 64 < x) (high : x < 2 ^ 64) :
    sizeT x ≠ 0 ↔ x ≠ 0 := by
  by_cases negative : x < 0
  · have same := sizeT_of_neg negative low.le
    omega
  · have same := sizeT_of_nonneg (Int.not_lt.mp negative) high
    omega

theorem opened_missing (s : ReadEnd) : s.opened.missing ≠ 0 ↔ s.nextSz ≠ rpcSzT := by
  have low := (Words.word32 ((s.stream.drop s.delivered).take rpcSzT)).toInt32.le_toInt
  have high := (Words.word32 ((s.stream.drop s.delivered).take rpcSzT)).toInt32.toInt_lt
  change -2 ^ 31 ≤ s.nextSz at low
  change s.nextSz < 2 ^ 31 at high
  change sizeT (s.nextSz - rpcSzT) ≠ 0 ↔ _
  simp only [rpcSzT]
  rw [sizeT_ne_zero (by omega) (by omega), sub_ne_zero]

theorem Shaped.missing_ne (shaped : Shaped s)
    (progress : s.rpdu.buf.isSome ∧ s.rpdu.solong < s.rpdu.sz) : s.missing ≠ 0 := by
  rcases progress with ⟨some, short⟩
  rcases shaped.begun some with ⟨prefixed, small⟩
  simp only [rpcSzT, maxPdu] at prefixed small
  unfold missing
  rw [sizeT_ne_zero (by omega) (by omega)]
  omega

/-- A read of the body in the history, and what `readpdu` answers at the end of the
stream. -/
theorem readBody_reads (taken : s.readBody body = some (succ, next)) :
    ∃ zero, next.reads = s.reads ++ [⟨true, s.missing, zero, s.errno⟩] ∧
      (zero = true ↔ body = .eof) ∧ (body = .eof → (succ = false ↔ s.errno ≠ eagain)) := by
  rcases readBody_cases taken with
    ⟨k, rfl, -, -, -, rfl, rfl⟩ | ⟨zero, errno, nothing, after⟩
  · exact ⟨false, rfl, by simp, fun eof => nomatch eof⟩
  · refine ⟨zero, ?_, ?_, ?_⟩
    · rcases after with ⟨-, -, rfl⟩ | ⟨-, -, rfl⟩
      · rfl
      · rfl
    · cases nothing with
      | eof => simp
      | fail => simp
    · rintro rfl
      cases nothing
      rcases after with ⟨again, rfl, -⟩ | ⟨other, rfl, -⟩
      · simp [again]
      · simp [other]

/-- `readBody` does not register, close or refuse. -/
theorem readBody_frame (taken : s.readBody body = some (succ, next)) :
    next.registered = s.registered ∧ next.closed = s.closed ∧ next.refused = s.refused := by
  rcases readBody_cases taken with
    ⟨k, -, -, -, -, -, rfl⟩ | ⟨zero, errno, -, ⟨-, -, rfl⟩ | ⟨-, -, rfl⟩⟩
  · exact ⟨rfl, rfl, rfl⟩
  · exact ⟨rfl, rfl, rfl⟩
  · exact ⟨rfl, rfl, rfl⟩

theorem endKills_iff (calls : List ReadCall) (same : next.reads = s.reads ++ calls) :
    s.EndKills next ↔ ∀ call ∈ calls, call.zero = true → call.count ≠ 0 →
      next.dead = true ∧ next.registered = false := by
  unfold EndKills
  rw [same, List.drop_left]

/-- A read of the body, after other reads of the same call that did not return 0. -/
theorem readBody_endKills {t mid : ReadEnd} (calls : List ReadCall)
    (before : t.reads = s.reads ++ calls) (nonzero : ∀ call ∈ calls, call.zero = false)
    (registered : t.registered = true) (taken : t.readBody body = some (succ, mid)) :
    s.EndKills (mid.settled succ) ↔
      ¬ (body = .eof ∧ t.errno = eagain ∧ t.missing ≠ 0) := by
  rcases readBody_reads taken with ⟨zero, reads, ended, failed⟩
  rcases readBody_frame taken with ⟨still, -, -⟩
  have killed : (mid.settled succ).dead = true ∧ (mid.settled succ).registered = false ↔
      succ = false := by
    cases succ with
    | true => simp [settled, still, registered]
    | false => simp [settled]
  have all : (mid.settled succ).reads =
      s.reads ++ (calls ++ [⟨true, t.missing, zero, t.errno⟩]) := by
    rw [← List.append_assoc, ← before, ← reads]
    cases succ with
    | true => rfl
    | false => rfl
  rw [endKills_iff _ all, List.forall_mem_append]
  constructor
  · rintro ⟨-, last⟩ ⟨eof, again, missing⟩
    have dead := killed.mp (last _ (List.mem_singleton_self _) (ended.mpr eof) missing)
    exact (failed eof).mp dead again
  · intro fresh
    constructor
    · intro call member zero
      rw [nonzero call member] at zero
      contradiction
    · intro call member zero missing
      cases List.mem_singleton.mp member
      have eof := ended.mp zero
      exact killed.mpr ((failed eof).mpr fun again => fresh ⟨eof, again, missing⟩)

theorem attempt_endKills (shaped : Shaped s) (registered : s.registered = true)
    (attempt : Attempt s header body next) :
    s.EndKills next ↔ ¬ s.Stale header body := by
  cases attempt with
  | full progress enough =>
      have silent : ¬ s.BodyMissing header := by
        unfold BodyMissing
        rw [if_neg (Option.ne_none_iff_isSome.mpr progress)]
        omega
      rw [endKills_iff [] (List.append_nil _).symm]
      exact iff_of_true (fun _ member => nomatch member) fun stale => silent stale.2.2
  | @noSize empty k zero errno failed =>
      refine iff_of_true (fun _ _ _ _ => ⟨rfl, rfl⟩) ?_
      rintro ⟨-, -, missing⟩
      unfold BodyMissing at missing
      rw [if_pos empty] at missing
      rcases missing with ⟨rfl, small, -⟩
      cases failed with
      | bytes _ _ _ _ unusable => exact absurd (unusable rfl) (Int.not_lt.mpr small)
  | @opened size succ mid taken =>
      have missing : s.BodyMissing header ↔ s.opened.missing ≠ 0 := by
        unfold BodyMissing
        rw [if_pos size.empty, opened_missing]
        exact ⟨fun missing => missing.2.2, fun short => ⟨size.whole, size.small, short⟩⟩
      rw [readBody_endKills (t := s.opened) [⟨false, rpcSzT, false, s.errno⟩] rfl (by simp)
        registered taken]
      unfold Stale
      rw [missing]
      rfl
  | @body progress succ mid taken =>
      have missing : s.BodyMissing header ↔ s.missing ≠ 0 := by
        unfold BodyMissing
        rw [if_neg (Option.ne_none_iff_isSome.mpr progress.1)]
        exact iff_of_true progress.2 (shaped.missing_ne progress)
      rw [readBody_endKills [] (List.append_nil _).symm (by simp) registered taken]
      unfold Stale
      rw [missing]

theorem offer_endKills {mid : ReadEnd} : s.EndKills (mid.offer accept) ↔ s.EndKills mid := by
  rcases offer_cases mid accept with ⟨-, same⟩ | ⟨-, same⟩ | ⟨-, same⟩
  · rw [same]
    rfl
  · rw [same]
    rfl
  · rw [same]

/-! ## Runs after the peer has closed -/

def unread (s : ReadEnd) : Nat := s.stream.length - s.delivered

/-- Calls of `read_cb` that read. -/
def reading (s : ReadEnd) : Nat := s.unread + if s.registered then 1 else 0

/-- A whole PDU costs one more call, to offer it. -/
def potential (s : ReadEnd) : Nat := s.reading + if s.Complete then 1 else 0

/-- How many calls of `read_cb` a step is. -/
def Action.calls : Action → Nat
  | .readCb .. => 1
  | _ => 0

theorem potential_le_reading (s : ReadEnd) : s.potential ≤ s.reading + 1 := by
  unfold potential
  split
  · exact Nat.le_refl _
  · exact Nat.le_succ _

theorem reading_le (s : ReadEnd) : s.reading ≤ s.unread + 1 := by
  unfold reading
  split
  · exact Nat.le_refl _
  · exact Nat.le_succ _

theorem grow_reading {k : Nat} (room : s.delivered + k ≤ s.stream.length) :
    (s.grow k).reading + k = s.reading := by
  unfold reading unread grow asked
  dsimp only
  omega

/-- Giving up saves the call that a registered descriptor causes. -/
theorem settled_reading (registered : s.registered = true) :
    (s.settled false).reading + 1 = s.reading := by
  unfold reading
  rw [registered]
  rfl

theorem readBody_reading (registered : s.registered = true)
    (taken : s.readBody body = some (succ, next)) : (next.settled succ).reading ≤ s.reading := by
  rcases readBody_cases taken with
    ⟨k, -, -, -, room, rfl, rfl⟩ | ⟨zero, errno, -, ⟨-, rfl, rfl⟩ | ⟨-, rfl, rfl⟩⟩
  · have grown := grow_reading room
    exact Nat.le.intro grown
  · exact Nat.le_refl _
  · exact Nat.le_of_succ_le (settled_reading registered).le

/-- A body that misses bytes gets some of them, or the connection is given up. -/
theorem readBody_reading_lt (registered : s.registered = true) (closed : s.closed = true)
    (fresh : ¬ (body = .eof ∧ s.errno = eagain ∧ s.missing ≠ 0)) (missing : s.missing ≠ 0)
    (taken : s.readBody body = some (succ, next)) : (next.settled succ).reading < s.reading := by
  rcases readBody_cases taken with
    ⟨k, -, positive, -, room, rfl, rfl⟩ | ⟨zero, errno, nothing, ⟨again, -, -⟩ | ⟨-, rfl, rfl⟩⟩
  · have grown := grow_reading room
    change (s.grow k).reading < s.reading
    omega
  · cases nothing with
    | eof ended => exact absurd ⟨rfl, again, missing⟩ fresh
    | fail errno waits =>
        rw [(waits again).1] at closed
        contradiction
  · exact (settled_reading registered).le

theorem NewSize.reading (size : NewSize s header) : s.opened.reading < s.reading := by
  have room := size.room
  unfold ReadEnd.reading unread
  change s.stream.length - (s.delivered + rpcSzT) + (if s.registered then 1 else 0) < _
  simp only [rpcSzT] at room ⊢
  omega

/-- Each call reads a byte or gives up, unless a whole PDU waits for `got_pdu`. -/
theorem attempt_reading (sane : Sane s) (registered : s.registered = true)
    (closed : s.closed = true) (fresh : ¬ s.Stale header body)
    (attempt : Attempt s header body next) : next.reading < s.potential := by
  cases attempt with
  | full progress enough =>
      unfold potential
      rw [if_pos (sane.complete progress enough)]
      exact Nat.lt_succ_self _
  | noSize empty failed =>
      refine Nat.lt_of_lt_of_le ?_ (Nat.le_add_right _ _)
      unfold reading
      rw [registered]
      exact Nat.lt_succ_of_le (Nat.sub_le_sub_left (Nat.le_add_right _ _) _)
  | opened size taken =>
      refine Nat.lt_of_lt_of_le ?_ (Nat.le_add_right _ _)
      exact Nat.lt_of_le_of_lt (readBody_reading (s := s.opened) registered taken) size.reading
  | body progress taken =>
      refine Nat.lt_of_lt_of_le ?_ (Nat.le_add_right _ _)
      have missing := sane.toShaped.missing_ne progress
      refine readBody_reading_lt registered closed ?_ missing taken
      rintro ⟨eof, again, -⟩
      refine fresh ⟨eof, again, ?_⟩
      unfold BodyMissing
      rw [if_neg (Option.ne_none_iff_isSome.mpr progress.1)]
      exact progress.2

theorem attempt_frame (attempt : Attempt s header body next) :
    next.closed = s.closed ∧ next.refused = s.refused := by
  cases attempt with
  | full => exact ⟨rfl, rfl⟩
  | noSize => exact ⟨rfl, rfl⟩
  | @opened size succ mid taken =>
      rcases readBody_frame taken with ⟨-, closed, refused⟩
      cases succ with
      | true => exact ⟨closed, refused⟩
      | false => exact ⟨closed, refused⟩
  | @body progress succ mid taken =>
      rcases readBody_frame taken with ⟨-, closed, refused⟩
      cases succ with
      | true => exact ⟨closed, refused⟩
      | false => exact ⟨closed, refused⟩

/-- A refusal pays for the call that offers the PDU again. -/
theorem offer_potential (s : ReadEnd) (accept : Bool) :
    (s.offer accept).closed = s.closed ∧
      (s.offer accept).potential + s.refused ≤ s.reading + (s.offer accept).refused := by
  rcases offer_cases s accept with ⟨-, same⟩ | ⟨-, same⟩ | ⟨incomplete, same⟩
  · rw [same]
    refine ⟨rfl, ?_⟩
    unfold potential
    rw [if_neg (by rintro ⟨some, -⟩; contradiction)]
    exact Nat.le_refl _
  · rw [same]
    refine ⟨rfl, ?_⟩
    have most := potential_le_reading { s with refused := s.refused + 1 }
    change _ ≤ s.reading + 1 at most
    dsimp only
    omega
  · rw [same]
    refine ⟨rfl, ?_⟩
    unfold potential
    rw [if_neg incomplete]
    exact Nat.le_refl _

theorem step_potential {action : Action} (sane : Sane s) (closed : s.closed = true)
    (prompt : Prompt s action) (taken : s.step action = some next) :
    next.closed = true ∧
      next.potential + action.calls + s.refused ≤ s.potential + next.refused := by
  cases action with
  | arrive bytes =>
      simp only [ReadEnd.step, if_pos closed] at taken
      contradiction
  | close =>
      cases taken
      exact ⟨rfl, Nat.le_refl _⟩
  | errno =>
      cases taken
      exact ⟨closed, Nat.le_refl _⟩
  | readCb header body memory accept =>
      rcases step_readCb sane.toShaped taken with ⟨registered, mid, attempt, rfl⟩
      have read := attempt_reading sane registered closed prompt.2 attempt
      rcases attempt_frame attempt with ⟨same, refused⟩
      rcases offer_potential mid accept with ⟨still, offered⟩
      refine ⟨still.trans (same.trans closed), ?_⟩
      change (mid.offer accept).potential + 1 + s.refused ≤ _
      omega

/-- Once the peer has closed, each call of `read_cb` is paid for by a byte that is left,
by the end of the connection, or by a refusal of `got_pdu`. -/
theorem run_potential {actions : List Action} {final : ReadEnd} (sane : Sane s)
    (closed : s.closed = true)
    (taken : (machine.restrict Prompt).run s actions = some final) :
    final.potential + (actions.map Action.calls).sum + s.refused ≤
      s.potential + final.refused := by
  refine Machine.run_cost (fun s => Sane s ∧ s.closed = true) ?_ ⟨sane, closed⟩ taken
  rintro state action next ⟨sane, closed⟩ stepped
  rcases Machine.restrict_step stepped with ⟨prompt, stepped⟩
  rcases step_potential sane closed prompt stepped with ⟨still, paid⟩
  exact ⟨⟨sane.step prompt.1 stepped, still⟩, paid⟩

/-- A call of `read_cb` in which `read` returns 0 with bytes missing kills the connection
exactly when it does not meet the end of the stream inside a body with `EAGAIN` in
`errno`. In a run without such calls a peer that has closed causes no more calls than
there are unread bytes, two, and the refusals of `got_pdu`. -/
theorem endOfStream_kills_iff (reachable : machine.Reachable s) :
    (∀ header body memory accept next, s.step (.readCb header body memory accept) = some next →
      (s.EndKills next ↔ ¬ s.Stale header body)) ∧
    (machine.ReachableUnder Prompt s → s.closed = true → ∀ actions final,
      (machine.restrict Prompt).run s actions = some final →
      (actions.map Action.calls).sum + s.refused ≤ s.unread + 2 + final.refused) := by
  constructor
  · intro header body memory accept next taken
    have shaped := reachable_shaped reachable
    rcases step_readCb shaped taken with ⟨registered, mid, attempt, rfl⟩
    rw [offer_endKills]
    exact attempt_endKills shaped registered attempt
  · intro prompt closed actions final taken
    have sane := reachable_sane (prompt.mono fun _ _ prompt => prompt.1)
    have paid := run_potential sane closed taken
    have most := potential_le_reading s
    have least := reading_le s
    omega

/-- A peer closes with two bytes of a PDU missing, after an `EAGAIN` on that PDU that
another call of the poll thread has replaced by `EPIPE`. -/
def closedLater : List Action :=
  [.arrive [0, 0, 0, 8], .readCb (.bytes 4) (.fail eagain) true true, .arrive [1, 2],
    .readCb .eof (.bytes 2) true true, .errno 32, .close]

theorem endOfStream_kills_iff_later :
    ∃ s next, machine.ReachableUnder Prompt s ∧ s.closed = true ∧
      s.step (.readCb .eof .eof true true) = some next ∧
      next.dead = true ∧ next.registered = false ∧
      ([Action.readCb .eof .eof true true].map Action.calls).sum + s.refused ≤
        s.unread + 2 + next.refused := by
  have run : ((machine.restrict Prompt).run machine.initial closedLater).map (fun s =>
      (s.closed, s.errno, s.unread,
        ((machine.restrict Prompt).run s [.readCb .eof .eof true true]).map fun next =>
          next.reads.drop s.reads.length)) =
      some (true, 32, 0, some [⟨true, 2, true, 32⟩]) := by decide +kernel
  rcases Option.map_eq_some_iff.mp run with ⟨s, taken, values⟩
  simp only [Prod.mk.injEq] at values
  rcases values with ⟨closed, errno, -, last⟩
  rcases Option.map_eq_some_iff.mp last with ⟨next, again, reads⟩
  have reachable := Machine.reachableUnder_of_run taken
  have stepped : s.step (.readCb .eof .eof true true) = some next := by
    rcases Option.bind_eq_some_iff.mp again with ⟨mid, first, rest⟩
    cases rest
    exact (Machine.restrict_step first).2
  rcases endOfStream_kills_iff reachable.reachable with ⟨kills_iff, bound⟩
  have kills := (kills_iff _ _ _ _ next stepped).mpr fun stale =>
    absurd (errno ▸ stale.2.1) (by decide)
  rcases kills ⟨true, 2, true, 32⟩ (by rw [reads]; simp) rfl (by decide) with ⟨dead, unregistered⟩
  exact ⟨s, next, reachable, closed, stepped, dead, unregistered,
    bound reachable closed _ _ again⟩

/-! ## The defect -/

/-- The stream has ended inside a body, and `errno` is `EAGAIN`. -/
structure Stuck (s : ReadEnd) : Prop where
  registered : s.registered = true
  alive : s.dead = false
  progress : s.rpdu.buf.isSome ∧ s.rpdu.solong < s.rpdu.sz
  sized : s.rpdu.sz ≠ 0
  ended : s.closed = true ∧ s.delivered = s.stream.length
  again : s.errno = eagain

theorem Stuck.step (stuck : Stuck s) :
    s.step (.readCb .eof .eof true true) = some (s.asked true) := by
  have read : s.readBody .eof = some (true, s.asked true) := by
    unfold readBody ReadEnd.read
    simp only [if_pos (Or.inr stuck.ended)]
    rw [if_pos (Int.le_refl 0), if_pos stuck.again]
    rfl
  have incomplete : ¬ (s.asked true).Complete := by
    intro complete
    exact absurd complete.2 (Int.ne_of_gt stuck.progress.2)
  simp only [ReadEnd.step, if_pos stuck.registered, readCb, stuck.alive, attempt,
    if_pos (Or.inr stuck.progress.2), readpdu, if_neg stuck.sized, read, offer,
    Option.map_some, if_true, if_neg incomplete]
  rfl

theorem Stuck.asked (stuck : Stuck s) : Stuck (s.asked true) :=
  ⟨stuck.registered, stuck.alive, stuck.progress, stuck.sized, stuck.ended, stuck.again⟩

/-- The poll thread calls `read_cb` as often as it likes. -/
theorem Stuck.run (stuck : Stuck s) (n : Nat) :
    ∃ next, machine.run s (List.replicate n (.readCb .eof .eof true true)) = some next ∧
      Stuck next ∧ next.refused = s.refused := by
  induction n generalizing s with
  | zero => exact ⟨s, rfl, stuck, rfl⟩
  | succ n induction =>
      rcases induction stuck.asked with ⟨next, taken, still, refused⟩
      refine ⟨next, ?_, still, refused⟩
      exact Option.bind_eq_some_iff.mpr ⟨s.asked true, stuck.step, taken⟩

/-- A peer sends the size of a PDU, so that the read of the body leaves `EAGAIN` in
`errno`, and then closes. -/
def closedInBody : List Action :=
  [.arrive [0, 0, 0, 8], .readCb (.bytes 4) (.fail eagain) true true, .close]

/-- The connection survives the end of the stream, and `read_cb` is called without end. -/
theorem closedInBody_spins :
    (¬ ∀ s, machine.Reachable s → ∀ action next, s.step action = some next → s.EndKills next) ∧
    ∃ s, machine.Reachable s ∧ s.closed = true ∧ s.refused = 0 ∧ ∀ n, ∃ next,
      machine.run s (List.replicate n (.readCb .eof .eof true true)) = some next ∧
        next.dead = false ∧ next.registered = true ∧ next.refused = 0 := by
  have run : (machine.run machine.initial closedInBody).map (fun s =>
      ((s.registered, s.dead, s.closed), s.rpdu,
        (decide (s.delivered = s.stream.length), s.errno, s.refused))) =
      some ((true, false, true), ⟨some [0, 0, 0, 8], 12, 8, 4⟩, (true, eagain, 0)) := by
    decide +kernel
  rcases Option.map_eq_some_iff.mp run with ⟨s, taken, values⟩
  simp only [Prod.mk.injEq, decide_eq_true_eq] at values
  rcases values with ⟨⟨registered, alive, closed⟩, rpdu, ended, again, none⟩
  have stuck : Stuck s := by
    refine ⟨registered, alive, ?_, ?_, ⟨closed, ended⟩, again⟩
    · rw [rpdu]
      decide
    · rw [rpdu]
      decide
  have reachable := Machine.reachable_of_run taken
  constructor
  · intro always
    have kills := always s reachable _ _ stuck.step
    rw [endKills_iff [⟨true, s.missing, true, s.errno⟩] rfl] at kills
    have missing : s.missing ≠ 0 := by
      unfold missing
      rw [rpdu]
      decide
    have dead := (kills _ (List.mem_singleton_self _) rfl missing).1
    rw [show (s.asked true).dead = s.dead from rfl, alive] at dead
    contradiction
  · refine ⟨s, reachable, closed, none, fun n => ?_⟩
    rcases stuck.run n with ⟨next, taken, still, refused⟩
    exact ⟨next, taken, still.alive, still.registered, refused.trans none⟩

end ReadEnd

end YfsRpc.Rpc
