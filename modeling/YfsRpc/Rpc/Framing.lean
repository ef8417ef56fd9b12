import YfsRpc.Foundation.Frames
import YfsRpc.Rpc.Connection
import Mathlib.Tactic.Linarith

/-! # A connection delivers whole PDUs in order

The writer keeps the stream equal to the wire images of the PDUs that obtained
`wpdu_`, the last one possibly cut short; the reader keeps the bytes it read
equal to the accepted PDUs followed by the contents of `rpdu_`. Wire images are
self-delimiting, so the accepted PDUs are the first ones sent.
-/

namespace YfsRpc.Rpc.Connection

open YfsRpc.Words

/-! ## Wire images -/

/-- A buffer whose first four bytes hold its size, as `readpdu` understands it. -/
def Framed (frame : List UInt8) : Prop :=
  rpcSzT ≤ frame.length ∧ (word32 frame).toInt32.toInt = frame.length

theorem framed_prefixFree : PrefixFree Framed where
  ne_nil := by
    rintro frame ⟨long, _⟩ rfl
    exact absurd long (by decide)
  eq_of_prefix := by
    rintro left right ⟨long, leftSize⟩ ⟨_, rightSize⟩ ⟨rest, rfl⟩
    rw [word32_append long, leftSize, Int.natCast_inj] at rightSize
    rw [List.length_append] at rightSize
    have empty : rest = [] := List.eq_nil_of_length_eq_zero (by omega)
    rw [empty, List.append_nil]

/-- The wire image of a PDU. -/
def wire (b : List UInt8) : List UInt8 := stamp b.length b

theorem length_stamp {sz : Nat} {b : List UInt8} (long : rpcSzT ≤ b.length) :
    (stamp sz b).length = b.length := by
  rw [rpcSzT] at long
  simp [stamp, rpcSzT]
  omega

theorem length_wire {b : List UInt8} (long : rpcHeaderSz ≤ b.length) :
    (wire b).length = b.length :=
  length_stamp (Nat.le_trans (by decide) long)

/-- Writing the size again changes nothing. -/
theorem stamp_wire (b : List UInt8) : stamp b.length (wire b) = wire b := by
  simp [wire, stamp, rpcSzT, List.drop_left' (length_bytes32 _)]

theorem toInt_ofNat_toInt32 {n : Nat} (small : n < 2 ^ 31) :
    (UInt32.ofNat n).toInt32.toInt = n := by
  have word : (UInt32.ofNat n).toBitVec = BitVec.ofNat 32 n := rfl
  rw [Int32.toInt, UInt32.toBitVec_toInt32, word, BitVec.toInt_ofNat',
    Int.bmod_eq_of_le (by omega) (by omega)]

theorem wire_framed {b : List UInt8} (long : rpcHeaderSz ≤ b.length)
    (fits : b.length < 2 ^ 31) : Framed (wire b) := by
  have length := length_wire long
  refine ⟨by rw [length]; exact Nat.le_trans (by decide) long, ?_⟩
  rw [length, wire, stamp, word32_bytes32_append]
  exact toInt_ofNat_toInt32 fits

/-! ## The writer -/

section Send

variable {ι : Type}

/-- The wire images of the PDUs that obtained `wpdu_`, one after the other. -/
def wires (obtained : List (ι × List UInt8)) : List UInt8 :=
  (obtained.map fun entry => wire entry.2).flatten

theorem wires_append_singleton (before : List (ι × List UInt8)) (i : ι) (b : List UInt8) :
    wires (before ++ [(i, b)]) = wires before ++ wire b := by
  simp [wires]

/-- The first `solong` bytes of the PDU of the last owner are in the stream. -/
structure Writing (before : List (ι × List UInt8)) (i : ι) (b : List UInt8) (solong : Nat)
    (s : Sending ι) : Prop where
  obtained : s.obtained = before ++ [(i, b)]
  wpdu : s.wpdu = { buf := some (wire b), sz := b.length, solong := solong }
  partly : solong ≤ b.length
  stream : s.stream = wires before ++ (wire b).take solong

/-- No PDU is being written, and every one before was written completely. -/
structure Quiet (s : Sending ι) : Prop where
  wpdu : s.wpdu = {}
  stream : s.stream = wires s.obtained

/-- The PDU of a call that has obtained `wpdu_`. -/
def SendPhase.started : SendPhase → Option (List UInt8)
  | .idle | .waitTurn _ => none
  | .waitComplete b | .removing b | .returned b _ => some b

theorem SendPhase.pdu_of_started {phase : SendPhase} {b : List UInt8}
    (started : phase.started = some b) : phase.pdu = some b := by
  cases phase with
  | idle | waitTurn => contradiction
  | waitComplete | removing | returned => exact started

structure SendingInv (s : Sending ι) : Prop where
  /-- as long as the connection lives, at most the last PDU is incomplete -/
  progress : s.dead = false →
    Quiet s ∨ ∃ before i b solong, Writing before i b solong s
  owner : s.dead = false → ∀ i b, s.senders i = .waitComplete b →
    s.wpdu ≠ {} ∧ ∃ before, s.obtained = before ++ [(i, b)]
  removing : ∀ i b, s.senders i = .removing b → s.dead = true
  cut : s.stream <+: wires s.obtained
  started : ∀ i b, (i, b) ∈ s.obtained → (s.senders i).started = some b
  once : (s.obtained.map Prod.fst).Nodup
  sizes : ∀ i b, (s.senders i).pdu = some b → rpcHeaderSz ≤ b.length ∧ b.length < 2 ^ 31
  written : ∀ i b, s.senders i = .returned b true →
    ∃ before after, s.obtained = before ++ (i, b) :: after ∧
      wires before ++ wire b <+: s.stream

/-- `writepdu` moves on in the wire image of the PDU it is given, whose size it
puts in before it writes the first byte. -/
theorem writepdu_spec (before : List UInt8) (solong : Nat) {b c stream stream' : List UInt8}
    {wpdu : Charbuf} {result : WriteResult} {succ : Bool}
    (done : writepdu { buf := some c, sz := b.length, solong } stream result =
      some (succ, wpdu, stream'))
    (content : stamp b.length c = wire b) (begun : solong ≠ 0 → c = wire b)
    (long : rpcHeaderSz ≤ b.length) (partly : solong ≤ b.length)
    (written : stream = before ++ (wire b).take solong) :
    ∃ now, solong ≤ now ∧ now ≤ b.length ∧ stream' = before ++ (wire b).take now ∧
      (succ = true → wpdu = { buf := some (wire b), sz := b.length, solong := now }) := by
  have stamped : (if (solong : Int) = 0 then stamp b.length c else c) = wire b := by
    split
    · exact content
    · next started => exact begun (by omega)
  have notNegative : ¬ (solong : Int) < 0 := by omega
  simp only [writepdu, if_neg notNegative, stamped, Int.toNat_natCast, Int.natCast_inj] at done
  split at done
  · next complete =>
      cases done
      refine ⟨solong, Nat.le_refl _, partly, written, fun _ => ?_⟩
      have positive := Nat.lt_of_lt_of_le (by decide : 0 < rpcHeaderSz) long
      rw [begun (by omega)]
  · cases result with
    | error =>
        cases done
        exact ⟨solong, Nat.le_refl _, partly, written, nofun⟩
    | again =>
        cases done
        exact ⟨solong, Nat.le_refl _, partly, written, fun _ => rfl⟩
    | wrote n =>
        simp only at done
        split at done
        · next room =>
            cases done
            refine ⟨solong + n, Nat.le_add_right _ _, by omega, ?_, fun _ => rfl⟩
            rw [written, List.append_assoc, List.take_add]
        · contradiction

theorem initial_sendingInv : SendingInv ({} : Sending ι) where
  progress := fun _ => Or.inl ⟨rfl, rfl⟩
  owner := nofun
  removing := nofun
  cut := List.nil_prefix
  started := nofun
  once := List.nodup_nil
  sizes := nofun
  written := nofun

theorem Writing.cut {before : List (ι × List UInt8)} {i : ι} {b : List UInt8} {solong : Nat}
    {s : Sending ι} (writing : Writing before i b solong s) : s.stream <+: wires s.obtained := by
  rw [writing.stream, writing.obtained, wires_append_singleton]
  exact (List.prefix_append_right_inj _).mpr (List.take_prefix _ _)

/-- Nothing but the flag, the PDU in `wpdu_` and the stream changes. -/
theorem SendingInv.io {s : Sending ι} (inv : SendingInv s) {dead : Bool} {wpdu : Charbuf}
    {stream : List UInt8} (grown : s.stream <+: stream) (cut : stream <+: wires s.obtained)
    (later : s.dead = true → dead = true)
    (progress : dead = false → Quiet { s with dead, wpdu, stream } ∨
      ∃ before i b solong, Writing before i b solong { s with dead, wpdu, stream })
    (busy : dead = false → s.wpdu ≠ {} → wpdu ≠ {}) :
    SendingInv { s with dead, wpdu, stream } where
  progress := progress
  owner := by
    intro alive i b current
    have wasAlive : s.dead = false := by
      cases before : s.dead with
      | false => rfl
      | true => exact absurd alive (by simp [later before])
    rcases inv.owner wasAlive i b current with ⟨held, last⟩
    exact ⟨busy alive held, last⟩
  removing := fun i b current => later (inv.removing i b current)
  cut := cut
  started := inv.started
  once := inv.once
  sizes := inv.sizes
  written := by
    intro i b current
    rcases inv.written i b current with ⟨before, after, position, sent⟩
    exact ⟨before, after, position, sent.trans grown⟩

/-- In a live connection a waiting call is the last one that obtained `wpdu_`. -/
theorem SendingInv.writing_of_waiting {s : Sending ι} (inv : SendingInv s) {i : ι}
    {b : List UInt8} (alive : s.dead = false) (phase : s.senders i = .waitComplete b) :
    ∃ before solong, Writing before i b solong s := by
  rcases inv.owner alive i b phase with ⟨held, before, last⟩
  rcases inv.progress alive with quiet | ⟨earlier, j, c, solong, writing⟩
  · exact absurd quiet.wpdu held
  · have same := writing.obtained
    rw [last] at same
    cases (List.append_inj' same rfl).2
    exact ⟨earlier, solong, writing⟩

theorem SendingInv.writeCb {s next : Sending ι} (inv : SendingInv s) {result : WriteResult}
    (done : writeCb s result = some next) : SendingInv next := by
  simp only [Connection.writeCb] at done
  split at done
  · contradiction
  · next alive =>
      have alive : s.dead = false := by simpa using alive
      split at done
      · cases done
        exact inv
      · next busy =>
          rcases inv.progress alive with quiet | ⟨before, i, b, solong, writing⟩
          · rw [quiet.wpdu] at busy
            exact absurd rfl busy
          · have sizes := inv.sizes i b (by
              have started := inv.started i b (by rw [writing.obtained]; simp)
              cases phase : s.senders i with
              | idle | waitTurn => rw [phase] at started; contradiction
              | waitComplete | removing | returned => rw [phase] at started; exact started)
            have spec {succ : Bool} {wpdu : Charbuf} {stream : List UInt8}
                (wrote : writepdu s.wpdu s.stream result = some (succ, wpdu, stream)) :=
              writepdu_spec (wires before) solong (by rw [← writing.wpdu]; exact wrote)
                (stamp_wire b) (fun _ => rfl) sizes.1 writing.partly writing.stream
            have inside (now : Nat) :
                wires before ++ (wire b).take now <+: wires s.obtained := by
              rw [writing.obtained, wires_append_singleton]
              exact (List.prefix_append_right_inj _).mpr (List.take_prefix _ _)
            have grown {now : Nat} (more : solong ≤ now) :
                s.stream <+: wires before ++ (wire b).take now := by
              rw [writing.stream]
              exact (List.prefix_append_right_inj _).mpr (List.take_prefix_take_left more)
            split at done
            · contradiction
            · next wpdu stream failed =>
                rcases spec failed with ⟨now, more, _, written, _⟩
                cases done
                subst written
                exact inv.io (grown more) (inside now) (fun _ => rfl) nofun nofun
            · next wpdu stream succeeded =>
                rcases spec succeeded with ⟨now, more, partly, written, moved⟩
                split at done
                · contradiction
                · cases done
                  subst written
                  refine inv.io (grown more) (inside now) id (fun _ => Or.inr
                    ⟨before, i, b, now, writing.obtained, moved rfl, partly, rfl⟩) ?_
                  intro _ _
                  rw [moved rfl]
                  nofun

variable [DecidableEq ι]

/-- Call `i` moves to a phase, obtaining `wpdu_` on the way if `new` says so.
What remains to be shown is about the PDU in `wpdu_` and about call `i`. -/
theorem SendingInv.move {s next : Sending ι} (inv : SendingInv s) (i : ι) (phase : SendPhase)
    (senders : next.senders = Function.update s.senders i phase)
    (obtained : next.obtained = s.obtained ∨
      ∃ b, next.obtained = s.obtained ++ [(i, b)] ∧ (s.senders i).started = none)
    (stream : s.stream <+: next.stream) (cut : next.stream <+: wires next.obtained)
    (dead : s.dead = true → next.dead = true)
    (progress : next.dead = false →
      Quiet next ∨ ∃ before i b solong, Writing before i b solong next)
    (owner : next.dead = false → ∀ j b, next.senders j = .waitComplete b →
      next.wpdu ≠ {} ∧ ∃ before, next.obtained = before ++ [(j, b)])
    (removing : ∀ b, phase = .removing b → next.dead = true)
    (started : ∀ b, (i, b) ∈ next.obtained → phase.started = some b)
    (sizes : ∀ b, phase.pdu = some b → rpcHeaderSz ≤ b.length ∧ b.length < 2 ^ 31)
    (written : ∀ b, phase = .returned b true →
      ∃ before after, next.obtained = before ++ (i, b) :: after ∧
        wires before ++ wire b <+: next.stream) : SendingInv next where
  progress := progress
  owner := owner
  removing := by
    intro j b current
    rw [senders] at current
    by_cases same : j = i
    · subst same
      rw [Function.update_self] at current
      exact removing b current
    · rw [Function.update_of_ne same] at current
      exact dead (inv.removing j b current)
  cut := cut
  started := by
    intro j b member
    rw [senders]
    by_cases same : j = i
    · subst same
      rw [Function.update_self]
      exact started b member
    · rw [Function.update_of_ne same]
      refine inv.started j b ?_
      rcases obtained with kept | ⟨c, extended, _⟩
      · rwa [kept] at member
      · rw [extended] at member
        rcases List.mem_append.mp member with old | new
        · exact old
        · cases List.mem_singleton.mp new
          exact absurd rfl same
  once := by
    rcases obtained with kept | ⟨c, extended, fresh⟩
    · rw [kept]
      exact inv.once
    · rw [extended, List.map_append, List.map_singleton]
      refine List.nodup_append.mpr ⟨inv.once, List.pairwise_singleton _ i, ?_⟩
      rintro j known _ found rfl
      cases List.mem_singleton.mp found
      rcases List.mem_map.mp known with ⟨⟨_, b⟩, member, rfl⟩
      rw [inv.started _ b member] at fresh
      contradiction
  sizes := by
    intro j b current
    rw [senders] at current
    by_cases same : j = i
    · subst same
      rw [Function.update_self] at current
      exact sizes b current
    · rw [Function.update_of_ne same] at current
      exact inv.sizes j b current
  written := by
    intro j b current
    rw [senders] at current
    by_cases same : j = i
    · subst same
      rw [Function.update_self] at current
      exact written b current
    · rw [Function.update_of_ne same] at current
      rcases inv.written j b current with ⟨before, after, position, sent⟩
      rcases obtained with kept | ⟨c, extended, _⟩
      · exact ⟨before, after, kept.trans position, sent.trans stream⟩
      · refine ⟨before, after ++ [(i, c)], ?_, sent.trans stream⟩
        rw [extended, position, List.append_assoc, List.cons_append]

/-- The owner of `wpdu_` waits on, or it is done and everything was written. -/
theorem Writing.awaitComplete_eq {before : List (ι × List UInt8)} {i : ι} {b : List UInt8}
    {solong : Nat} {s : Sending ι} (writing : Writing before i b solong s)
    (alive : s.dead = false) :
    awaitComplete s i b = s.goto i (.waitComplete b) ∨
      (solong = b.length ∧
        awaitComplete s i b = { s with wpdu := {} }.goto i (.returned b true)) := by
  have partly := writing.partly
  by_cases complete : solong = b.length
  · right
    refine ⟨complete, ?_⟩
    simp [awaitComplete, finish, alive, writing.wpdu, complete]
  · left
    simp [awaitComplete, alive, writing.wpdu, show solong < b.length by omega]

/-- Call `i`, the only one that may be waiting for the PDU in `wpdu_`, tests the
loop condition in a live connection. -/
theorem SendingInv.awaitComplete {s next : Sending ι} (inv : SendingInv s) {i : ι}
    {before : List (ι × List UInt8)} {b : List UInt8} {solong : Nat}
    (senders : next.senders = s.senders)
    (obtained : next.obtained = s.obtained ∨
      ∃ b, next.obtained = s.obtained ++ [(i, b)] ∧ (s.senders i).started = none)
    (stream : s.stream <+: next.stream) (alive : next.dead = false)
    (wasAlive : s.dead = false) (writing : Writing before i b solong next)
    (only : ∀ j c, s.senders j = .waitComplete c → j = i)
    (started : ∀ c, (i, c) ∈ next.obtained → c = b)
    (sizes : rpcHeaderSz ≤ b.length ∧ b.length < 2 ^ 31) :
    SendingInv (awaitComplete next i b) := by
  have elsewhere (phase : SendPhase) (j : ι) (c : List UInt8)
      (current : Function.update s.senders i phase j = .waitComplete c) : j = i := by
    by_contra other
    rw [Function.update_of_ne other] at current
    exact other (only j c current)
  have dead : s.dead = true → next.dead = true := by simp [wasAlive]
  rcases writing.awaitComplete_eq alive with waits | ⟨complete, returns⟩
  · rw [waits]
    refine inv.move i (.waitComplete b) (by rw [← senders]; rfl) obtained stream
      writing.cut dead (fun _ => Or.inr ⟨before, i, b, solong, writing.obtained, writing.wpdu,
        writing.partly, writing.stream⟩) ?_ nofun ?_ ?_ nofun
    · intro _ j c current
      change Function.update next.senders i _ j = _ at current
      rw [senders] at current
      cases elsewhere _ j c current
      rw [Function.update_self] at current
      cases current
      refine ⟨?_, before, writing.obtained⟩
      change next.wpdu ≠ {}
      rw [writing.wpdu]
      nofun
    · intro c member
      rw [started c member]
      rfl
    · rintro c ⟨⟩
      exact sizes
  · have whole : next.stream = wires next.obtained := by
      rw [writing.stream, writing.obtained, wires_append_singleton, complete,
        List.take_of_length_le (Nat.le_of_eq (length_wire sizes.1))]
    rw [returns]
    refine inv.move i (.returned b true) (by rw [← senders]; rfl) obtained stream
      writing.cut dead (fun _ => Or.inl ⟨rfl, whole⟩) ?_ nofun ?_ ?_ ?_
    · intro _ j c current
      change Function.update next.senders i _ j = _ at current
      rw [senders] at current
      cases elsewhere _ j c current
      rw [Function.update_self] at current
      cases current
    · intro c member
      rw [started c member]
      rfl
    · rintro c ⟨⟩
      exact sizes
    · rintro c ⟨⟩
      refine ⟨before, [], writing.obtained, ?_⟩
      change _ <+: next.stream
      rw [whole, writing.obtained, wires_append_singleton]

/-- A call obtains the free `wpdu_` and starts writing. -/
theorem SendingInv.obtain {s next : Sending ι} (inv : SendingInv s) {i : ι} {b : List UInt8}
    {result : WriteResult} (alive : s.dead = false) (free : s.wpdu.buf = none)
    (fresh : (s.senders i).started = none)
    (sizes : rpcHeaderSz ≤ b.length ∧ b.length < 2 ^ 31)
    (done : obtain s i b result = some next) : SendingInv next := by
  have quiet : Quiet s := by
    rcases inv.progress alive with quiet | ⟨before, j, c, solong, writing⟩
    · exact quiet
    · rw [writing.wpdu] at free
      contradiction
  have only (j : ι) (c : List UInt8) (current : s.senders j = .waitComplete c) : j = i :=
    absurd quiet.wpdu (inv.owner alive j c current).1
  have first (c : List UInt8) (member : (i, c) ∈ s.obtained ++ [(i, b)]) : c = b := by
    rcases List.mem_append.mp member with old | new
    · rw [inv.started i c old] at fresh
      contradiction
    · cases List.mem_singleton.mp new
      rfl
  simp only [Connection.obtain] at done
  split at done
  · contradiction
  · next wpdu stream failed =>
      rcases writepdu_spec (wires s.obtained) 0 failed rfl
          (fun started => absurd rfl started) sizes.1 (Nat.zero_le _)
          (by rw [quiet.stream, List.take_zero, List.append_nil]) with
        ⟨now, _, partly, written, _⟩
      cases done
      have grown : s.stream <+: stream := by
        rw [quiet.stream, written]
        exact List.prefix_append _ _
      refine inv.move i (.removing b) rfl (Or.inr ⟨b, rfl, fresh⟩) grown ?_
        (fun _ => rfl) nofun nofun (fun _ _ => rfl) ?_ ?_ nofun
      · change stream <+: wires (s.obtained ++ [(i, b)])
        rw [written, wires_append_singleton]
        exact (List.prefix_append_right_inj _).mpr (List.take_prefix _ _)
      · intro c member
        rw [first c member]
        rfl
      · rintro c ⟨⟩
        exact sizes
  · next wpdu stream succeeded =>
      rcases writepdu_spec (wires s.obtained) 0 succeeded rfl
          (fun started => absurd rfl started) sizes.1 (Nat.zero_le _)
          (by rw [quiet.stream, List.take_zero, List.append_nil]) with
        ⟨now, _, partly, written, moved⟩
      cases done
      have grown : s.stream <+: stream := by
        rw [quiet.stream, written]
        exact List.prefix_append _ _
      exact inv.awaitComplete rfl (Or.inr ⟨b, rfl, fresh⟩) grown alive alive
        ⟨rfl, moved rfl, partly, written⟩ only first sizes

/-- A call changes its phase only. -/
theorem SendingInv.goto {s : Sending ι} (inv : SendingInv s) {i : ι} {phase : SendPhase}
    (fresh : (s.senders i).started = none)
    (away : ∀ b, phase ≠ .waitComplete b ∧ phase ≠ .removing b ∧ phase ≠ .returned b true)
    (sizes : ∀ b, phase.pdu = some b → rpcHeaderSz ≤ b.length ∧ b.length < 2 ^ 31) :
    SendingInv (s.goto i phase) := by
  refine inv.move i phase rfl (Or.inl rfl) (List.prefix_refl _) inv.cut id
    ?_ ?_ (fun b same => absurd same (away b).2.1) ?_ sizes
    (fun b same => absurd same (away b).2.2)
  · intro alive
    rcases inv.progress alive with quiet | ⟨before, j, c, solong, writing⟩
    · exact Or.inl ⟨quiet.wpdu, quiet.stream⟩
    · exact Or.inr ⟨before, j, c, solong, writing.obtained, writing.wpdu, writing.partly,
        writing.stream⟩
  · intro alive j c current
    change Function.update s.senders i phase j = _ at current
    by_cases same : j = i
    · subst same
      rw [Function.update_self] at current
      exact absurd current (away c).1
    · rw [Function.update_of_ne same] at current
      exact inv.owner alive j c current
  · intro b member
    rw [inv.started i b member] at fresh
    contradiction

theorem SendingInv.awaitTurn {s next : Sending ι} (inv : SendingInv s) {i : ι} {b : List UInt8}
    {result : WriteResult} (fresh : (s.senders i).started = none)
    (sizes : rpcHeaderSz ≤ b.length ∧ b.length < 2 ^ 31)
    (done : awaitTurn s i b result = some next) : SendingInv next := by
  simp only [Connection.awaitTurn] at done
  split at done
  · cases done
    refine inv.goto fresh (fun c => ⟨nofun, nofun, nofun⟩) ?_
    rintro c ⟨⟩
    exact sizes
  · next free =>
      split at done
      · cases done
        refine inv.goto fresh (fun c => ⟨nofun, nofun, nofun⟩) ?_
        rintro c ⟨⟩
        exact sizes
      · next alive =>
          have alive : s.dead = false := by simpa using alive
          have free : s.wpdu.buf = none := by simpa [alive] using free
          exact inv.obtain alive free fresh sizes done

/-- In a dead connection `send` returns false. -/
theorem SendingInv.finish {s : Sending ι} (inv : SendingInv s) {i : ι} {b : List UInt8}
    (dead : s.dead = true) (started : (s.senders i).started = some b) :
    SendingInv (finish s i b) := by
  have failed : Connection.finish s i b =
      { s with wpdu := {} }.goto i (.returned b false) := by
    simp [Connection.finish, dead]
  rw [failed]
  refine inv.move i (.returned b false) rfl (Or.inl rfl) (List.prefix_refl _)
    inv.cut id ?_ ?_ nofun ?_ ?_ nofun
  · intro alive
    exact absurd (dead.symm.trans alive) (by decide)
  · intro alive
    exact absurd (dead.symm.trans alive) (by decide)
  · intro c member
    rw [← inv.started i c member, started]
    rfl
  · rintro c ⟨⟩
    exact inv.sizes i b (SendPhase.pdu_of_started started)

theorem sendStep_inv {s next : Sending ι} {action : Action ι} (inv : SendingInv s)
    (done : sendStep s action = some next) : SendingInv next := by
  cases action with
  | send i b result =>
      simp only [sendStep] at done
      split at done
      · next enabled =>
          rcases enabled with ⟨idle, long, small⟩
          have fits : b.length < 2 ^ 31 := small.trans_lt (by decide)
          exact inv.awaitTurn (by rw [idle]; rfl) ⟨long, fits⟩ done
      · contradiction
  | wakeTurn i result =>
      simp only [sendStep] at done
      split at done
      · next b phase =>
          exact inv.awaitTurn (by rw [phase]; rfl) (inv.sizes i b (by rw [phase]; rfl)) done
      · contradiction
  | wakeComplete i =>
      simp only [sendStep] at done
      split at done
      · next b phase =>
          cases done
          have started : (s.senders i).started = some b := by rw [phase]; rfl
          cases dead : s.dead with
          | true =>
              have gone : awaitComplete s i b = finish s i b := by
                simp [Connection.awaitComplete, dead]
              rw [gone]
              exact inv.finish dead started
          | false =>
              rcases inv.writing_of_waiting dead phase with ⟨before, solong, writing⟩
              refine inv.awaitComplete rfl (Or.inl rfl) (List.prefix_refl _) dead dead writing
                ?_ ?_ (inv.sizes i b (SendPhase.pdu_of_started started))
              · intro j c current
                rcases (inv.owner dead j c current).2 with ⟨_, last⟩
                rw [writing.obtained] at last
                cases (List.append_inj' last rfl).2
                rfl
              · intro c member
                rw [inv.started i c member] at started
                exact Option.some_inj.mp started
      · contradiction
  | removed i =>
      simp only [sendStep] at done
      split at done
      · next b phase =>
          cases done
          exact inv.finish (inv.removing i b phase) (by rw [phase]; rfl)
      · contradiction
  | writeCb result => exact inv.writeCb done
  | die =>
      cases done
      exact inv.io (List.prefix_refl _) inv.cut (fun _ => rfl) nofun nofun
  | readCb header body accept | peerDie =>
      cases done
      exact inv

end Send

/-! ## The reader -/

/-- `rpdu_` holds a PDU of which the first bytes, its size among them, were read
behind the bytes of the accepted PDUs. -/
structure Reading (stream done : List UInt8) (delivered : Nat) (rpdu : Charbuf)
    (b : List UInt8) : Prop where
  buf : rpdu.buf = some b
  solong : rpdu.solong = b.length
  header : rpcSzT ≤ b.length
  room : b.length ≤ rpdu.sz
  size : (word32 b).toInt32.toInt = rpdu.sz
  read : stream.take delivered = done ++ b

structure ReceivingInv (r : Receiving) (stream : List UInt8) : Prop where
  framed : ∀ frame ∈ r.accepted, Framed frame
  cut : r.accepted.flatten <+: stream
  inside : r.delivered ≤ stream.length
  reading : r.dead = false →
    (r.rpdu = {} ∧ stream.take r.delivered = r.accepted.flatten) ∨
      ∃ b, Reading stream r.accepted.flatten r.delivered r.rpdu b

theorem initial_receivingInv : ReceivingInv {} [] where
  framed := nofun
  cut := List.nil_prefix
  inside := Nat.le_refl _
  reading := fun _ => Or.inl ⟨rfl, rfl⟩

/-- More bytes in the stream are no concern of the reader yet. -/
theorem ReceivingInv.grow {r : Receiving} {stream more : List UInt8}
    (inv : ReceivingInv r stream) (grown : stream <+: more) : ReceivingInv r more where
  framed := inv.framed
  cut := inv.cut.trans grown
  inside := Nat.le_trans inv.inside grown.length_le
  reading := by
    rcases grown with ⟨rest, rfl⟩
    have same : (stream ++ rest).take r.delivered = stream.take r.delivered :=
      List.take_append_of_le_length inv.inside
    intro alive
    rcases inv.reading alive with ⟨idle, read⟩ | ⟨b, partly⟩
    · exact Or.inl ⟨idle, same.trans read⟩
    · exact Or.inr ⟨b, { partly with read := same.trans partly.read }⟩

/-- What an attempt to read may lead to. -/
structure Attempted (stream done : List UInt8) (succ : Bool) (rpdu : Charbuf)
    (delivered : Nat) : Prop where
  inside : delivered ≤ stream.length
  failed : succ = false → rpdu = {}
  reading : succ = true → ∃ b, Reading stream done delivered rpdu b

theorem Reading.readBody {stream done b : List UInt8} {delivered now : Nat}
    {rpdu after : Charbuf} {result : ReadResult} {succ : Bool}
    (reading : Reading stream done delivered rpdu b) (inside : delivered ≤ stream.length)
    (attempt : readBody rpdu stream delivered result = some (succ, after, now)) :
    Attempted stream done succ after now := by
  have room := reading.room
  cases result with
  | got n =>
      simp only [Connection.readBody, reading.buf, reading.solong, Int.toNat_natCast,
        Option.getD_some] at attempt
      split at attempt
      · next enabled =>
          rcases enabled with ⟨_, wanted, available⟩
          cases attempt
          have taken : ((stream.drop delivered).take n).length = n := by
            rw [List.length_take, List.length_drop]
            omega
          refine ⟨available, nofun, fun _ => ⟨_, rfl, ?_, ?_, ?_, ?_, ?_⟩⟩
          · rw [List.length_append, taken]
            rfl
          · exact Nat.le_trans reading.header (by rw [List.length_append]; omega)
          · rw [List.length_append, taken]
            change b.length + n ≤ rpdu.sz
            omega
          · rw [word32_append reading.header]
            exact reading.size
          · rw [List.take_add, reading.read, List.append_assoc]
      · contradiction
  | eof again | error again =>
      simp only [Connection.readBody] at attempt
      cases again with
      | true =>
          cases attempt
          exact ⟨inside, nofun, fun _ => ⟨b, reading⟩⟩
      | false =>
          cases attempt
          exact ⟨inside, fun _ => rfl, nofun⟩

/-- Reading a size that is in range leaves just its four bytes in `rpdu_`. -/
theorem readpdu_idle {stream done : List UInt8} {delivered now : Nat} {after : Charbuf}
    {header body : ReadResult} {succ : Bool} (inside : delivered ≤ stream.length)
    (read : stream.take delivered = done)
    (attempt : readpdu {} stream delivered header body = some (succ, after, now)) :
    Attempted stream done succ after now := by
  cases header with
  | eof again =>
      cases attempt
      exact ⟨inside, fun _ => rfl, nofun⟩
  | error again =>
      cases again with
      | true => contradiction
      | false =>
          cases attempt
          exact ⟨inside, fun _ => rfl, nofun⟩
  | got n =>
      simp only [readpdu, if_pos] at attempt
      split at attempt
      · next enabled =>
          rcases enabled with ⟨_, _, available⟩
          split at attempt
          · cases attempt
            exact ⟨available, fun _ => rfl, nofun⟩
          · next complete =>
              have complete : n = rpcSzT := by simpa using complete
              subst complete
              split at attempt
              · cases attempt
                exact ⟨available, fun _ => rfl, nofun⟩
              · split at attempt
                · contradiction
                · next inRange =>
                    have length : ((stream.drop delivered).take rpcSzT).length = rpcSzT := by
                      rw [List.length_take, List.length_drop]
                      omega
                    refine Reading.readBody (b := (stream.drop delivered).take rpcSzT) ?_
                      available attempt
                    refine ⟨rfl, by rw [length], Nat.le_of_eq length.symm, ?_, ?_, ?_⟩
                    · rw [length]
                      change rpcSzT ≤ Int.toNat _
                      omega
                    · change _ = ((Int.toNat _ : Nat) : Int)
                      omega
                    · rw [List.take_add, read]
      · contradiction

theorem ReceivingInv.readCb {r next : Receiving} {stream : List UInt8}
    (inv : ReceivingInv r stream) {header body : ReadResult} {accept : Bool}
    (done : readCb r stream header body accept = some next) : ReceivingInv next stream := by
  simp only [Connection.readCb] at done
  split at done
  · cases done
    exact inv
  · next alive =>
      have alive : r.dead = false := by simpa using alive
      split at done
      · contradiction
      · next succ rpdu delivered attempt =>
          have attempted : Attempted stream r.accepted.flatten succ rpdu delivered := by
            rcases inv.reading alive with ⟨idle, read⟩ | ⟨b, reading⟩
            · rw [idle] at attempt
              exact readpdu_idle inv.inside read attempt
            · split at attempt
              · have busy : ¬ r.rpdu.sz = 0 := by
                  have header := reading.header
                  have room := reading.room
                  rw [rpcSzT] at header
                  omega
                simp only [readpdu, if_neg busy] at attempt
                exact reading.readBody inv.inside attempt
              · cases attempt
                exact ⟨inv.inside, nofun, fun _ => ⟨b, reading⟩⟩
          cases succ with
          | false =>
              rw [attempted.failed rfl] at done
              cases done
              exact ⟨inv.framed, inv.cut, attempted.inside, nofun⟩
          | true =>
              rcases attempted.reading rfl with ⟨b, reading⟩
              rw [reading.buf] at done
              simp only at done
              split at done
              · next complete =>
                  cases done
                  have length : (b.length : Int) = rpdu.sz :=
                    reading.solong.symm.trans complete.1
                  have flat : (r.accepted ++ [b]).flatten = stream.take delivered := by
                    rw [reading.read, List.flatten_append, List.flatten_singleton]
                  refine ⟨?_, ?_, attempted.inside, fun _ => Or.inl ⟨rfl, flat.symm⟩⟩
                  · intro frame member
                    rcases List.mem_append.mp member with old | new
                    · exact inv.framed frame old
                    · cases List.mem_singleton.mp new
                      exact ⟨reading.header, reading.size.trans length.symm⟩
                  · rw [flat]
                    exact List.take_prefix _ _
              · cases done
                exact ⟨inv.framed, inv.cut, attempted.inside, fun _ => Or.inr ⟨b, reading⟩⟩

/-! ## The connection -/

section Run

variable {ι : Type}

theorem readStep_inv {r next : Receiving} {stream : List UInt8} {action : Action ι}
    (inv : ReceivingInv r stream) (done : readStep r stream action = some next) :
    ReceivingInv next stream := by
  cases action with
  | readCb header body accept => exact inv.readCb done
  | peerDie =>
      cases done
      exact ⟨inv.framed, inv.cut, inv.inside, nofun⟩
  | send i b result | wakeTurn i result | wakeComplete i | removed i | writeCb result | die =>
      cases done
      exact inv

structure Inv (s : State ι) : Prop where
  sending : SendingInv s.sending
  receiving : ReceivingInv s.receiving s.sending.stream

/-- Since wire images are self-delimiting, what was read has been cut where it was put
together. -/
theorem Inv.accepted_prefix {s : State ι} (inv : Inv s) :
    s.receiving.accepted <+: s.sending.obtained.map (fun entry => wire entry.2) := by
  refine framed_prefixFree.prefix_of_flatten_prefix _ _ inv.receiving.framed ?_
    (inv.receiving.cut.trans inv.sending.cut)
  intro frame member
  rcases List.mem_map.mp member with ⟨⟨i, b⟩, sent, rfl⟩
  have sizes := inv.sending.sizes i b (SendPhase.pdu_of_started (inv.sending.started i b sent))
  exact wire_framed sizes.1 sizes.2

variable [DecidableEq ι]

theorem writepdu_grows {wpdu after : Charbuf} {stream stream' : List UInt8}
    {result : WriteResult} {succ : Bool}
    (done : writepdu wpdu stream result = some (succ, after, stream')) :
    stream <+: stream' := by
  simp only [writepdu] at done
  split at done
  · contradiction
  · split at done
    · cases done
      exact List.prefix_refl _
    · split at done
      · contradiction
      · cases result with
        | error | again =>
            cases done
            exact List.prefix_refl _
        | wrote n =>
            simp only at done
            split at done
            · cases done
              exact List.prefix_append _ _
            · contradiction

theorem awaitComplete_stream (s : Sending ι) (i : ι) (b : List UInt8) :
    (awaitComplete s i b).stream = s.stream := by
  unfold awaitComplete
  split <;> rfl

theorem awaitTurn_grows {s next : Sending ι} {i : ι} {b : List UInt8} {result : WriteResult}
    (done : awaitTurn s i b result = some next) : s.stream <+: next.stream := by
  simp only [awaitTurn] at done
  split at done
  · cases done
    exact List.prefix_refl _
  · split at done
    · cases done
      exact List.prefix_refl _
    · simp only [obtain] at done
      split at done
      · contradiction
      · next failed =>
          cases done
          exact writepdu_grows failed
      · next succeeded =>
          cases done
          rw [awaitComplete_stream]
          exact writepdu_grows succeeded

/-- The transport takes bytes and never gives one back. -/
theorem sendStep_grows {s next : Sending ι} {action : Action ι}
    (done : sendStep s action = some next) : s.stream <+: next.stream := by
  cases action with
  | send i b result =>
      simp only [sendStep] at done
      split at done
      · exact awaitTurn_grows done
      · contradiction
  | wakeTurn i result =>
      simp only [sendStep] at done
      split at done
      · exact awaitTurn_grows done
      · contradiction
  | wakeComplete i =>
      simp only [sendStep] at done
      split at done
      · cases done
        rw [awaitComplete_stream]
      · contradiction
  | removed i =>
      simp only [sendStep] at done
      split at done
      · cases done
        exact List.prefix_refl _
      · contradiction
  | writeCb result =>
      simp only [sendStep, writeCb] at done
      split at done
      · contradiction
      · split at done
        · cases done
          exact List.prefix_refl _
        · split at done
          · contradiction
          · next failed =>
              cases done
              exact writepdu_grows failed
          · next succeeded =>
              split at done
              · contradiction
              · cases done
                exact writepdu_grows succeeded
  | die | readCb header body accept | peerDie =>
      cases done
      exact List.prefix_refl _

theorem inv_of_reachable {s : State ι} (reachable : (machine ι).Reachable s) : Inv s := by
  refine reachable.invariant Inv ⟨initial_sendingInv, initial_receivingInv⟩ ?_
  intro state action next _ before done
  rcases Option.bind_eq_some_iff.mp done with ⟨sending, sent, rest⟩
  rcases Option.bind_eq_some_iff.mp rest with ⟨receiving, received, final⟩
  cases final
  exact ⟨sendStep_inv before.sending sent,
    (readStep_inv before.receiving received).grow (sendStep_grows sent)⟩

/-- The accepted PDUs are the first of the PDUs that obtained `wpdu_`, each with
its size in its first bytes and otherwise as it was passed to `send`; no call
obtains `wpdu_` twice; and a call that returned true has its whole PDU in the
stream, behind those of the calls before it. -/
theorem accepted_prefix_obtained {s : State ι} (reachable : (machine ι).Reachable s) :
    s.receiving.accepted <+: s.sending.obtained.map (fun entry => wire entry.2) ∧
      (s.sending.obtained.map Prod.fst).Nodup ∧
      (∀ i b, (i, b) ∈ s.sending.obtained → (s.sending.senders i).pdu = some b) ∧
      ∀ i b, s.sending.senders i = .returned b true →
        ∃ before after, s.sending.obtained = before ++ (i, b) :: after ∧
          wires before ++ wire b <+: s.sending.stream := by
  have inv := inv_of_reachable reachable
  have passed (i : ι) (b : List UInt8) (member : (i, b) ∈ s.sending.obtained) :
      (s.sending.senders i).pdu = some b :=
    SendPhase.pdu_of_started (inv.sending.started i b member)
  exact ⟨inv.accepted_prefix, inv.sending.once, passed, inv.sending.written⟩

/-- A PDU written in two pieces, accepted when `got_pdu` is asked a second time. -/
def splitRun : List (Action Nat) :=
  [.send 0 (List.replicate 24 7) (.wrote 10), .readCb (.got 4) (.got 6) true,
    .writeCb (.wrote 14), .wakeComplete 0, .readCb (.got 0) (.got 14) false,
    .readCb (.got 0) (.got 0) true]

theorem accepted_prefix_obtained_splitRun :
    ∃ s, (machine Nat).run {} splitRun = some s ∧
      s.receiving.accepted = [[0, 0, 0, 24] ++ List.replicate 20 7] ∧
      s.receiving.accepted <+: s.sending.obtained.map (fun entry => wire entry.2) := by
  refine ⟨_, rfl, by decide, ?_⟩
  exact (accepted_prefix_obtained
    (@Machine.reachable_of_run _ _ (machine Nat) _ splitRun rfl)).1

end Run

end YfsRpc.Rpc.Connection
