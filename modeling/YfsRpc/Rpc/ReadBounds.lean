import YfsRpc.Rpc.ReadEnd

/-! # Where `readpdu` writes

The buffer of a PDU has four bytes more than the size prefix says, and the prefix and the
bytes of the peer stay inside, unless the size is from -4 to 3: then the prefix does not
fit, or the rest of the PDU has a negative length that `read` takes for a huge one.
-/

namespace YfsRpc.Rpc

open YfsRpc.Words

theorem sizeT_of_nonneg {x : Int} (nonneg : 0 ≤ x) (small : x < 2 ^ 64) : (sizeT x : Int) = x := by
  unfold sizeT
  rw [Int.emod_eq_of_lt nonneg small, Int.toNat_of_nonneg nonneg]

theorem sizeT_of_neg {x : Int} (negative : x < 0) (large : -2 ^ 64 ≤ x) :
    (sizeT x : Int) = x + 2 ^ 64 := by
  unfold sizeT
  rw [← Int.add_emod_right, Int.emod_eq_of_lt (by omega) (by omega),
    Int.toNat_of_nonneg (by omega)]

namespace ReadEnd

/-- What was written lies in the allocations, and `solong` is in range whenever a PDU is
in progress. -/
structure InBounds (s : ReadEnd) : Prop where
  writes : ∀ r ∈ s.writes, r.Inside
  progress : s.rpdu.buf.isSome → 0 ≤ s.rpdu.solong ∧ s.rpdu.solong ≤ s.rpdu.sz

variable {s next : ReadEnd} {header body outcome : ReadOutcome} {memory accept succ : Bool}

/-! ## What the functions do -/

/-- What a successful step of `read` returns: the result, the bytes and the object after
it. -/
inductive Answer (s : ReadEnd) (body : Bool) (count : Nat) :
    ReadOutcome → Int → List UInt8 → ReadEnd → Prop
  | bytes (k : Nat) (positive : 0 < k) (most : k ≤ count)
      (room : s.delivered + k ≤ s.stream.length) :
      Answer s body count (.bytes k) k ((s.stream.drop s.delivered).take k)
        { s with delivered := s.delivered + k, reads := s.reads ++ [⟨body, count, false, s.errno⟩] }
  | eof (ended : count = 0 ∨ s.closed = true ∧ s.delivered = s.stream.length) :
      Answer s body count .eof 0 []
        { s with reads := s.reads ++ [⟨body, count, true, s.errno⟩] }
  | fail (errno : Int) (waits : errno = eagain → s.closed = false ∧ s.delivered = s.stream.length) :
      Answer s body count (.fail errno) (-1) []
        { s with errno, reads := s.reads ++ [⟨body, count, false, s.errno⟩] }

theorem read_cases {ofBody : Bool} {count : Nat} {n : Int} {data : List UInt8}
    (taken : s.read ofBody count outcome = some (n, data, next)) :
    Answer s ofBody count outcome n data next := by
  cases outcome with
  | bytes k =>
      simp only [read] at taken
      split at taken
      · next room =>
          cases taken
          exact .bytes k room.1 room.2.1 room.2.2
      · contradiction
  | eof =>
      simp only [read] at taken
      split at taken
      · next ended =>
          cases taken
          exact .eof ended
      · contradiction
  | fail errno =>
      simp only [read] at taken
      split at taken
      · next waits =>
          cases taken
          exact .fail errno waits
      · contradiction

/-- The bytes of the body that are missing, as `read` is asked for them. -/
def missing (s : ReadEnd) : Nat := sizeT (s.rpdu.sz - s.rpdu.solong)

/-- A call of `read` for the body. -/
def asked (s : ReadEnd) (zero : Bool) : ReadEnd :=
  { s with
    writes := s.writes ++ [{ start := s.rpdu.solong, count := s.missing, cap := s.rpdu.cap }]
    reads := s.reads ++ [{ body := true, count := s.missing, zero, errno := s.errno }] }

/-- The next `k` bytes of the stream are added to the buffer. -/
def grow (s : ReadEnd) (k : Nat) : ReadEnd :=
  { s.asked false with
    delivered := s.delivered + k
    rpdu := { s.rpdu with
      buf := some (s.rpdu.buf.getD [] ++ (s.stream.drop s.delivered).take k)
      solong := s.rpdu.solong + k } }

/-- A read of the body without bytes: why, and `errno` after it. -/
inductive NoBytes (s : ReadEnd) : ReadOutcome → Bool → Int → Prop
  | eof (ended : s.missing = 0 ∨ s.closed = true ∧ s.delivered = s.stream.length) :
      NoBytes s .eof true s.errno
  | fail (errno : Int)
      (waits : errno = eagain → s.closed = false ∧ s.delivered = s.stream.length) :
      NoBytes s (.fail errno) false errno

/-- Without bytes `errno` decides whether the read waits. -/
theorem noBytes_cases {t : ReadEnd}
    (taken : (if t.errno = eagain then some (true, t) else some (false, { t with rpdu := {} })) =
      some (succ, next)) :
    (t.errno = eagain ∧ succ = true ∧ next = t) ∨
      (t.errno ≠ eagain ∧ succ = false ∧ next = { t with rpdu := {} }) := by
  split at taken
  · next again =>
      cases taken
      exact Or.inl ⟨again, rfl, rfl⟩
  · next other =>
      cases taken
      exact Or.inr ⟨other, rfl, rfl⟩

/-- A read of the body adds bytes, or waits for them, or frees the buffer. -/
theorem readBody_cases (taken : s.readBody outcome = some (succ, next)) :
    (∃ k, outcome = .bytes k ∧ 0 < k ∧ k ≤ s.missing ∧ s.delivered + k ≤ s.stream.length ∧
      succ = true ∧ next = s.grow k) ∨
    (∃ zero errno, NoBytes s outcome zero errno ∧
      ((errno = eagain ∧ succ = true ∧ next = { s.asked zero with errno }) ∨
        (errno ≠ eagain ∧ succ = false ∧ next = { s.asked zero with errno, rpdu := {} }))) := by
  unfold readBody at taken
  dsimp only at taken
  split at taken
  · contradiction
  · next n data after found =>
      cases read_cases found with
      | bytes k positive most room =>
          left
          rw [if_neg (by omega)] at taken
          cases taken
          exact ⟨k, rfl, positive, most, room, rfl, rfl⟩
      | eof ended =>
          rw [if_pos (Int.le_refl 0)] at taken
          exact Or.inr ⟨true, s.errno, .eof ended, noBytes_cases taken⟩
      | fail errno waits =>
          rw [if_pos (by decide)] at taken
          exact Or.inr ⟨false, errno, .fail errno waits, noBytes_cases taken⟩

/-- A call of `read` for the size of a PDU, and how many bytes it got. -/
def askedSize (s : ReadEnd) (k : Nat) (zero : Bool) : ReadEnd :=
  { s with
    delivered := s.delivered + k
    reads := s.reads ++ [{ body := false, count := rpcSzT, zero, errno := s.errno }] }

/-- The size of a PDU is not read as a whole, or is too big: the outcome of the read, the
bytes it got, whether it returned 0, and `errno` after it. -/
inductive NoSize (s : ReadEnd) : ReadOutcome → Nat → Bool → Int → Prop
  | bytes (k : Nat) (positive : 0 < k) (most : k ≤ rpcSzT)
      (room : s.delivered + k ≤ s.stream.length)
      (unusable : k = rpcSzT → s.nextSz > maxPdu) : NoSize s (.bytes k) k false s.errno
  | eof (ended : s.closed = true ∧ s.delivered = s.stream.length) : NoSize s .eof 0 true s.errno
  | fail (errno : Int) (fatal : errno ≠ eagain) : NoSize s (.fail errno) 0 false errno

/-- A new PDU begins with a size that `malloc` has memory for. -/
structure NewSize (s : ReadEnd) (header : ReadOutcome) : Prop where
  whole : header = .bytes rpcSzT
  room : s.delivered + rpcSzT ≤ s.stream.length
  small : s.nextSz ≤ maxPdu
  empty : s.rpdu.buf = none
  memory : sizeT (s.nextSz + rpcSzT) ≤ mallocLimit

/-- The object before the body of a new PDU is read. -/
def opened (s : ReadEnd) : ReadEnd :=
  (s.askedSize rpcSzT false).newPdu ((s.stream.drop s.delivered).take rpcSzT) s.nextSz

/-- Without a PDU in progress `readpdu` fails at the size, or goes on to the body. -/
theorem readpdu_cases (between : s.rpdu.sz = 0)
    (taken : s.readpdu header body memory = some (succ, next)) :
    (∃ k zero errno, NoSize s header k zero errno ∧ succ = false ∧
      next = { s.askedSize k zero with errno }) ∨
    (NewSize s header ∧ s.opened.readBody body = some (succ, next)) := by
  unfold readpdu at taken
  rw [if_pos between] at taken
  split at taken
  · contradiction
  · next n sz1 after found =>
      cases read_cases found with
      | eof ended =>
          rw [if_pos rfl] at taken
          cases taken
          rcases ended with none | ended
          · exact absurd none (by decide)
          · exact Or.inl ⟨0, true, s.errno, .eof ended, rfl, rfl⟩
      | fail errno waits =>
          rw [if_neg (by decide), if_pos (by decide)] at taken
          split at taken
          · contradiction
          · next fatal =>
              cases taken
              exact Or.inl ⟨0, false, errno, .fail errno fatal, rfl, rfl⟩
      | bytes k positive most room =>
          have failed (unusable : k = rpcSzT → s.nextSz > maxPdu) :
              NoSize s (.bytes k) k false s.errno :=
            .bytes k positive most room unusable
          rw [if_neg (by omega), if_neg (by omega)] at taken
          split at taken
          · next short =>
              cases taken
              exact Or.inl ⟨k, false, s.errno, failed fun whole => by omega, rfl, rfl⟩
          · next whole =>
              have whole : k = rpcSzT := by omega
              subst whole
              dsimp only at taken
              split at taken
              · next big =>
                  cases taken
                  exact Or.inl ⟨rpcSzT, false, s.errno, failed fun _ => big, rfl, rfl⟩
              · next small =>
                  split at taken
                  · contradiction
                  · next usable =>
                      simp only [not_or, Bool.not_eq_true, Option.isSome_eq_false_iff,
                        Option.isNone_iff_eq_none, gt_iff_lt, not_lt] at usable small
                      exact Or.inr ⟨⟨rfl, room, small, usable.1, usable.2.2⟩, taken⟩

/-- `read_cb` after `readpdu` answered `succ`. -/
def settled (s : ReadEnd) (succ : Bool) : ReadEnd :=
  if succ then s else { s with registered := false, dead := true }

/-- What a call of `read_cb` on a live connection does before it offers a PDU. -/
inductive Attempt (s : ReadEnd) (header body : ReadOutcome) : ReadEnd → Prop
  /-- nothing is missing: the PDU that was refused is still there -/
  | full (progress : s.rpdu.buf.isSome) (enough : s.rpdu.sz ≤ s.rpdu.solong) :
      Attempt s header body s
  | noSize (empty : s.rpdu.buf = none) {k : Nat} {zero : Bool} {errno : Int}
      (failed : NoSize s header k zero errno) :
      Attempt s header body
        { s.askedSize k zero with errno, registered := false, dead := true }
  | opened (size : NewSize s header) {succ : Bool} {next : ReadEnd}
      (taken : s.opened.readBody body = some (succ, next)) :
      Attempt s header body (next.settled succ)
  | body (progress : s.rpdu.buf.isSome ∧ s.rpdu.solong < s.rpdu.sz) {succ : Bool} {next : ReadEnd}
      (taken : s.readBody body = some (succ, next)) :
      Attempt s header body (next.settled succ)

/-! ## The invariant -/

/-- A buffer has four bytes more than the size of its PDU, of which the prefix has been
written and at most the size. -/
structure Filling (r : Rpdu) : Prop where
  prefixed : rpcSzT ≤ r.solong
  within : r.solong ≤ r.sz
  small : r.sz ≤ maxPdu
  cap : (r.cap : Int) = r.sz + rpcSzT

/-- What holds whatever sizes were read. -/
structure Shaped (s : ReadEnd) : Prop where
  empty : s.rpdu.buf = none → s.rpdu.sz = 0
  begun : s.rpdu.buf.isSome → rpcSzT ≤ s.rpdu.solong ∧ s.rpdu.sz ≤ maxPdu
  alive : s.registered = true → s.dead = false

structure Sane (s : ReadEnd) : Prop extends Shaped s where
  writes : ∀ r ∈ s.writes, r.Inside
  filling : s.rpdu.buf.isSome → Filling s.rpdu

theorem initial_shaped : Shaped machine.initial where
  empty _ := rfl
  begun some := nomatch some
  alive _ := rfl

theorem initial_sane : Sane machine.initial where
  toShaped := initial_shaped
  writes _ member := nomatch member
  filling some := nomatch some

theorem Sane.inBounds (sane : Sane s) : InBounds s where
  writes := sane.writes
  progress some := by
    have filling := sane.filling some
    have prefixed := filling.prefixed
    have within := filling.within
    simp only [rpcSzT] at prefixed
    omega

theorem attempt_cases (shaped : Shaped s) (taken : s.attempt header body memory = some next) :
    Attempt s header body next := by
  unfold attempt at taken
  cases found : s.rpdu.buf with
  | none =>
      rw [if_pos (Or.inl (by rw [found]; rfl))] at taken
      split at taken
      · contradiction
      · next succ after read =>
          cases taken
          rcases readpdu_cases (shaped.empty found) read with
            ⟨k, zero, errno, failed, rfl, rfl⟩ | ⟨size, opened⟩
          · exact .noSize found failed
          · exact .opened size opened
  | some b =>
      have some : s.rpdu.buf.isSome := by rw [found]; rfl
      split at taken
      · next progress =>
          rw [found] at progress
          have short := progress.resolve_left Bool.false_ne_true
          split at taken
          · contradiction
          · next succ after read =>
              cases taken
              have prefixed := (shaped.begun some).1
              simp only [rpcSzT] at prefixed
              unfold readpdu at read
              rw [if_neg (by omega)] at read
              exact .body ⟨some, short⟩ read
      · next complete =>
          cases taken
          exact .full some (by omega)

/-- In a sane state a full buffer is a whole PDU. -/
theorem Sane.complete (sane : Sane s) (progress : s.rpdu.buf.isSome)
    (enough : s.rpdu.sz ≤ s.rpdu.solong) : s.Complete :=
  ⟨progress, Int.le_antisymm enough (sane.filling progress).within⟩

theorem readBody_writes (taken : s.readBody outcome = some (succ, next)) :
    next.writes =
      s.writes ++ [{ start := s.rpdu.solong, count := s.missing, cap := s.rpdu.cap }] := by
  rcases readBody_cases taken with
    ⟨k, -, -, -, -, -, rfl⟩ | ⟨zero, errno, -, ⟨-, -, rfl⟩ | ⟨-, -, rfl⟩⟩
  · rfl
  · rfl
  · rfl

/-- While the buffer fills, what is missing fits behind what was read. -/
theorem Filling.missing_eq (filling : Filling s.rpdu) :
    (s.missing : Int) = s.rpdu.sz - s.rpdu.solong := by
  have prefixed := filling.prefixed
  have within := filling.within
  have small := filling.small
  simp only [rpcSzT, maxPdu] at prefixed small
  exact sizeT_of_nonneg (by omega) (by omega)

theorem Shaped.readBody (shaped : Shaped s) (progress : s.rpdu.buf.isSome)
    (taken : s.readBody outcome = some (succ, next)) : Shaped next := by
  rcases shaped.begun progress with ⟨prefixed, small⟩
  rcases readBody_cases taken with
    ⟨k, -, -, -, -, -, rfl⟩ | ⟨zero, errno, -, ⟨-, -, rfl⟩ | ⟨-, -, rfl⟩⟩
  · refine ⟨(fun none => nomatch none), fun _ => ⟨?_, small⟩, shaped.alive⟩
    exact prefixed.trans (Int.le_add_of_nonneg_right (Int.natCast_nonneg k))
  · exact ⟨shaped.empty, shaped.begun, shaped.alive⟩
  · exact ⟨fun _ => rfl, (fun some => nomatch some), shaped.alive⟩

theorem Sane.readBody (sane : Sane s) (progress : s.rpdu.buf.isSome)
    (taken : s.readBody outcome = some (succ, next)) : Sane next := by
  have filling := sane.filling progress
  have missing := filling.missing_eq
  have prefixed := filling.prefixed
  have within := filling.within
  have cap := filling.cap
  refine ⟨sane.toShaped.readBody progress taken, ?_, ?_⟩
  · rw [readBody_writes taken]
    intro r member
    rcases List.mem_append.mp member with before | last
    · exact sane.writes r before
    · cases List.mem_singleton.mp last
      constructor
      · exact (Int.natCast_nonneg _).trans prefixed
      · dsimp only
        omega
  · rcases readBody_cases taken with
      ⟨k, -, positive, most, -, -, rfl⟩ | ⟨zero, errno, -, ⟨-, -, rfl⟩ | ⟨-, -, rfl⟩⟩
    · refine fun _ => ⟨?_, ?_, filling.small, cap⟩
      · exact prefixed.trans (Int.le_add_of_nonneg_right (Int.natCast_nonneg k))
      · change s.rpdu.solong + k ≤ s.rpdu.sz
        omega
    · exact fun _ => filling
    · exact fun some => nomatch some

theorem Shaped.opened (shaped : Shaped s) (size : NewSize s header) : Shaped s.opened where
  empty none := nomatch none
  begun _ := ⟨Int.le_refl _, size.small⟩
  alive := shaped.alive

/-- A size that is at least four makes a buffer it fits in. -/
theorem Sane.opened (sane : Sane s) (size : NewSize s header) (enough : 4 ≤ s.nextSz) :
    Sane s.opened := by
  have small := size.small
  have cap : (sizeT (s.nextSz + rpcSzT) : Int) = s.nextSz + rpcSzT := by
    simp only [rpcSzT, maxPdu] at small ⊢
    exact sizeT_of_nonneg (by omega) (by omega)
  refine ⟨sane.toShaped.opened size, ?_, fun _ => ⟨Int.le_refl _, enough, small, cap⟩⟩
  intro r member
  rcases List.mem_append.mp member with before | last
  · exact sane.writes r before
  · cases List.mem_singleton.mp last
    refine ⟨Int.le_refl 0, ?_⟩
    dsimp only
    omega

/-- A size below -4 is refused by `malloc`. -/
theorem NewSize.le_nextSz (size : NewSize s header) (sized : ¬ (-4 ≤ s.nextSz ∧ s.nextSz ≤ 3)) :
    4 ≤ s.nextSz := by
  by_contra small
  have memory := size.memory
  have low := (word32 ((s.stream.drop s.delivered).take rpcSzT)).toInt32.le_toInt
  change -2 ^ 31 ≤ s.nextSz at low
  have cap : (sizeT (s.nextSz + rpcSzT) : Int) = s.nextSz + rpcSzT + 2 ^ 64 := by
    simp only [rpcSzT]
    exact sizeT_of_neg (by omega) (by omega)
  simp only [mallocLimit, rpcSzT] at memory cap
  omega

theorem Shaped.settled (shaped : Shaped s) : Shaped (s.settled succ) := by
  cases succ with
  | true => exact shaped
  | false => exact ⟨shaped.empty, shaped.begun, fun none => nomatch none⟩

theorem Sane.settled (sane : Sane s) : Sane (s.settled succ) := by
  have shaped := @Shaped.settled s succ sane.toShaped
  cases succ with
  | true => exact sane
  | false => exact ⟨shaped, sane.writes, sane.filling⟩

theorem Shaped.attempt (shaped : Shaped s) (attempt : Attempt s header body next) :
    Shaped next := by
  cases attempt with
  | full => exact shaped
  | noSize => exact ⟨shaped.empty, shaped.begun, fun none => nomatch none⟩
  | opened size taken => exact ((shaped.opened size).readBody rfl taken).settled
  | body progress taken => exact (shaped.readBody progress.1 taken).settled

theorem Sane.attempt (sane : Sane s) (attempt : Attempt s header body next)
    (sized : s.rpdu.buf = none → header = .bytes rpcSzT → ¬ (-4 ≤ s.nextSz ∧ s.nextSz ≤ 3)) :
    Sane next := by
  have shaped := sane.toShaped.attempt attempt
  cases attempt with
  | full => exact sane
  | noSize => exact ⟨shaped, sane.writes, sane.filling⟩
  | opened size taken =>
      have enough := size.le_nextSz (sized size.empty size.whole)
      exact ((sane.opened size enough).readBody rfl taken).settled
  | body progress taken => exact (sane.readBody progress.1 taken).settled

theorem offer_cases (s : ReadEnd) (accept : Bool) :
    (s.Complete ∧
      s.offer accept = { s with rpdu := {}, accepted := s.accepted ++ s.rpdu.buf.toList }) ∨
    (s.Complete ∧ s.offer accept = { s with refused := s.refused + 1 }) ∨
    (¬ s.Complete ∧ s.offer accept = s) := by
  unfold ReadEnd.offer
  split
  · next complete =>
      split
      · exact Or.inl ⟨complete, rfl⟩
      · exact Or.inr (Or.inl ⟨complete, rfl⟩)
  · next incomplete => exact Or.inr (Or.inr ⟨incomplete, rfl⟩)

theorem Shaped.offer (shaped : Shaped s) (accept : Bool) : Shaped (s.offer accept) := by
  rcases offer_cases s accept with ⟨-, same⟩ | ⟨-, same⟩ | ⟨-, same⟩
  · rw [same]
    exact ⟨fun _ => rfl, (fun some => nomatch some), shaped.alive⟩
  · rw [same]
    exact ⟨shaped.empty, shaped.begun, shaped.alive⟩
  · rwa [same]

theorem Sane.offer (sane : Sane s) (accept : Bool) : Sane (s.offer accept) := by
  have shaped := sane.toShaped.offer accept
  rcases offer_cases s accept with ⟨-, same⟩ | ⟨-, same⟩ | ⟨-, same⟩
  · rw [same] at shaped ⊢
    exact ⟨shaped, sane.writes, fun some => nomatch some⟩
  · rw [same] at shaped ⊢
    exact ⟨shaped, sane.writes, sane.filling⟩
  · rwa [same]

/-! ## Steps and runs -/

theorem step_readCb (shaped : Shaped s)
    (taken : s.step (.readCb header body memory accept) = some next) :
    s.registered = true ∧ ∃ mid, Attempt s header body mid ∧ next = mid.offer accept := by
  simp only [ReadEnd.step] at taken
  split at taken
  · next registered =>
      unfold readCb at taken
      rw [shaped.alive registered, if_neg Bool.false_ne_true] at taken
      rcases Option.map_eq_some_iff.mp taken with ⟨mid, attempted, rfl⟩
      exact ⟨registered, mid, attempt_cases shaped attempted, rfl⟩
  · contradiction

theorem Shaped.step {action : Action} (shaped : Shaped s) (taken : s.step action = some next) :
    Shaped next := by
  cases action with
  | arrive bytes =>
      simp only [ReadEnd.step] at taken
      split at taken
      · contradiction
      · cases taken
        exact ⟨shaped.empty, shaped.begun, shaped.alive⟩
  | close | errno =>
      cases taken
      exact ⟨shaped.empty, shaped.begun, shaped.alive⟩
  | readCb header body memory accept =>
      rcases step_readCb shaped taken with ⟨-, mid, attempt, rfl⟩
      exact (shaped.attempt attempt).offer accept

theorem reachable_shaped (reachable : machine.Reachable s) : Shaped s :=
  reachable.invariant Shaped initial_shaped fun _ _ _ _ shaped taken => shaped.step taken

theorem Sane.step {action : Action} (sane : Sane s) (sized : Sized s action)
    (taken : s.step action = some next) : Sane next := by
  have shaped := sane.toShaped.step taken
  cases action with
  | arrive bytes =>
      simp only [ReadEnd.step] at taken
      split at taken
      · contradiction
      · cases taken
        exact ⟨shaped, sane.writes, sane.filling⟩
  | close | errno =>
      cases taken
      exact ⟨shaped, sane.writes, sane.filling⟩
  | readCb header body memory accept =>
      rcases step_readCb sane.toShaped taken with ⟨-, mid, attempt, rfl⟩
      exact (sane.attempt attempt sized).offer accept

theorem reachable_sane (reachable : machine.ReachableUnder Sized s) : Sane s :=
  reachable.invariant Sane initial_sane fun _ _ _ _ sane sized taken => sane.step sized taken

theorem offer_writes (s : ReadEnd) (accept : Bool) : (s.offer accept).writes = s.writes := by
  rcases offer_cases s accept with ⟨-, same⟩ | ⟨-, same⟩ | ⟨-, same⟩
  · rw [same]
  · rw [same]
  · rw [same]

/-- Behind a size from -4 to 3 a range leaves the allocation. -/
theorem opened_outside (low : -4 ≤ s.nextSz) (high : s.nextSz ≤ 3)
    (taken : s.opened.readBody outcome = some (succ, next)) :
    ∃ r ∈ next.writes, ¬ r.Inside := by
  rw [readBody_writes taken]
  by_cases negative : s.nextSz < 0
  · have cap : (sizeT (s.nextSz + rpcSzT) : Int) = s.nextSz + rpcSzT := by
      simp only [rpcSzT]
      exact sizeT_of_nonneg (by omega) (by omega)
    refine ⟨{ start := 0, count := rpcSzT, cap := sizeT (s.nextSz + rpcSzT) }, ?_, ?_⟩
    · exact List.mem_append_left _ (List.mem_append_right _ (List.mem_singleton_self _))
    · rintro ⟨-, inside⟩
      dsimp only at inside
      omega
  · have cap : (sizeT (s.nextSz + rpcSzT) : Int) = s.nextSz + rpcSzT := by
      simp only [rpcSzT]
      exact sizeT_of_nonneg (by omega) (by omega)
    have huge : (sizeT (s.nextSz - rpcSzT) : Int) = s.nextSz - rpcSzT + 2 ^ 64 := by
      simp only [rpcSzT]
      exact sizeT_of_neg (by omega) (by omega)
    refine ⟨_, List.mem_append_right _ (List.mem_singleton_self _), ?_⟩
    rintro ⟨-, inside⟩
    change (rpcSzT : Int) + (sizeT (s.nextSz - rpcSzT) : Int) ≤ sizeT (s.nextSz + rpcSzT) at inside
    simp only [rpcSzT] at inside cap huge
    omega

theorem not_inBounds {action : Action} (sane : Sane s) (strange : ¬ Sized s action)
    (taken : s.step action = some next) : ¬ next.InBounds := by
  intro bounds
  cases action with
  | arrive | close | errno => exact strange trivial
  | readCb header body memory accept =>
      simp only [Sized, Classical.not_imp, not_not] at strange
      rcases strange with ⟨empty, whole, low, high⟩
      rcases step_readCb sane.toShaped taken with ⟨-, mid, attempt, rfl⟩
      have writes := bounds.writes
      rw [offer_writes] at writes
      cases attempt with
      | full progress => exact Option.ne_none_iff_isSome.mpr progress empty
      | noSize empty failed =>
          cases whole
          cases failed with
          | bytes k positive most room unusable =>
              have big := unusable rfl
              simp only [maxPdu] at big
              omega
      | @opened size succ after read =>
          rcases opened_outside low high read with ⟨r, member, outside⟩
          refine outside (writes r ?_)
          cases succ with
          | true => exact member
          | false => exact member
      | body progress => exact Option.ne_none_iff_isSome.mpr progress.1 empty

/-- In every run that reads no size from -4 to 3, whatever the peer sends and however it
is read, what is written lies in the allocations; and a call that reads such a size
leaves them. -/
theorem readpdu_inBounds_iff (reachable : machine.ReachableUnder Sized s) :
    s.InBounds ∧ ∀ action next, s.step action = some next →
      (next.InBounds ↔ Sized s action) := by
  have sane := reachable_sane reachable
  refine ⟨sane.inBounds, fun action next taken => ⟨?_, ?_⟩⟩
  · intro bounds
    by_contra strange
    exact not_inBounds sane strange taken bounds
  · exact fun sized => (sane.step sized taken).inBounds

/-- A PDU of eight bytes that arrives in pieces, and one that is too big. -/
def pieces : List Action :=
  [.arrive [0, 0, 0, 8, 1, 2], .readCb (.bytes 4) (.bytes 2) true true,
    .readCb .eof (.fail eagain) true true, .arrive [3, 4, 127, 0, 0, 0],
    .readCb .eof (.bytes 2) true true, .readCb (.bytes 4) .eof true true]

theorem readpdu_inBounds_iff_pieces :
    ∃ s, machine.ReachableUnder Sized s ∧ s.accepted = [[0, 0, 0, 8, 1, 2, 3, 4]] ∧
      s.InBounds := by
  have run : ((machine.restrict Sized).run machine.initial pieces).map
      (fun s => s.accepted) = some [[0, 0, 0, 8, 1, 2, 3, 4]] := by decide +kernel
  rcases Option.map_eq_some_iff.mp run with ⟨s, taken, accepted⟩
  have reachable := Machine.reachableUnder_of_run taken
  exact ⟨s, reachable, accepted, (readpdu_inBounds_iff reachable).1⟩

/-- A peer sends four zero bytes. -/
def zeroSize : List Action :=
  [.arrive [0, 0, 0, 0], .readCb (.bytes 4) (.fail eagain) true true]

/-- `read` is given a count of 2^64 - 4 bytes for an allocation of four. -/
theorem zeroSize_outside : ¬ ∀ s, machine.Reachable s → s.InBounds := by
  intro always
  have run : (machine.run machine.initial zeroSize).map (fun s => s.writes) =
      some [⟨0, 4, 4⟩, ⟨4, 2 ^ 64 - 4, 4⟩] := by decide +kernel
  rcases Option.map_eq_some_iff.mp run with ⟨s, taken, writes⟩
  have inside := (always s (Machine.reachable_of_run taken)).writes ⟨4, 2 ^ 64 - 4, 4⟩
    (by rw [writes]; decide)
  exact absurd inside (by decide)

end ReadEnd

end YfsRpc.Rpc
