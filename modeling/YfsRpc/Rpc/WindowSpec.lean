import YfsRpc.Rpc.ReplyBuffers

/-! # What the reply window is for

Requests that are acknowledged are dropped and their replies freed; then a request is
looked up, and entered if nothing is known about it. The source does all this in two
loops, of which the first erases entries while it looks for the request.
-/

namespace YfsRpc.Rpc

/-- A buffer that was taken from a marshall object, with its size. -/
structure ReplyBuf where
  buf : Nat
  sz : Nat
  deriving DecidableEq

/-- What `checkduplicate_and_update` returns, leaves and has freed. -/
structure Checked (β : Type) where
  state : RpcState β
  replyWindow : Nat → List (ReplyT β)
  freed : List β

variable {β : Type}

/-- `checkduplicate_and_update` on the windows of all clients. -/
def checkReplyWindow (replyWindow : Nat → List (ReplyT β)) (cltNonce xid xidRep : Nat) :
    Checked β where
  state := (checkduplicateAndUpdate (replyWindow cltNonce) xid xidRep).1
  replyWindow := Function.update replyWindow cltNonce
    (checkduplicateAndUpdate (replyWindow cltNonce) xid xidRep).2
  freed := scanFreed xid xidRep [] (replyWindow cltNonce)

/-- The answer for a request, given the entries that are not acknowledged. -/
structure Answered (unacknowledged : List (ReplyT β)) (xid : Nat) (state : RpcState β) : Prop where
  done : ∀ e ∈ unacknowledged, e.xid = xid → e.cbPresent = true → state = .done e.buf
  inprogress : ∀ e ∈ unacknowledged, e.xid = xid → e.cbPresent = false → state = .inprogress
  forgotten : ∀ first ∈ unacknowledged.head?, xid < first.xid → state = .forgotten
  new : (∀ e ∈ unacknowledged, e.xid ≠ xid) →
    (∀ first ∈ unacknowledged.head?, ¬ xid < first.xid) → state = .new

/-- The window of the client afterwards. -/
structure Entered (unacknowledged : List (ReplyT β)) (xid : Nat) (state : RpcState β)
    (window : List (ReplyT β)) : Prop where
  known : state ≠ .new → window = unacknowledged
  new : state = .new → ∃ smaller larger, unacknowledged = smaller ++ larger ∧
    window = smaller ++ { xid } :: larger
  ascending : StrictlyAscending ReplyT.xid window

structure WindowSpec (before : Nat → List (ReplyT β)) (cltNonce xid xidRep : Nat)
    (after : Checked β) : Prop where
  answered : Answered ((before cltNonce).filter fun e => xidRep ≤ e.xid) xid after.state
  entered : Entered ((before cltNonce).filter fun e => xidRep ≤ e.xid) xid after.state
    (after.replyWindow cltNonce)
  /-- the buffers of the other entries, in their order -/
  freed : after.freed = ((before cltNonce).filter fun e => e.xid < xidRep).filterMap ReplyT.buf
  others : ∀ n, n ≠ cltNonce → after.replyWindow n = before n

/-! ## The loops meet it -/

theorem insertAscending_split {α : Type} (key : α → Nat) (x : α) : ∀ list : List α,
    ∃ smaller larger, list = smaller ++ larger ∧
      insertAscending key x list = smaller ++ x :: larger
  | [] => ⟨[], [], rfl, rfl⟩
  | y :: rest => by
      unfold insertAscending
      split
      · exact ⟨[], y :: rest, rfl, rfl⟩
      · rcases insertAscending_split key x rest with ⟨smaller, larger, split, inserted⟩
        exact ⟨y :: smaller, larger, by rw [split, List.cons_append],
          by rw [inserted, List.cons_append]⟩

variable {trimmed window : List (ReplyT β)} {xid : Nat} {state : RpcState β}

theorem Classified.answered (classified : Classified trimmed xid state window)
    (ascending : StrictlyAscending ReplyT.xid trimmed) : Answered trimmed xid state where
  done e member same present := by
    rw [classified.of_mem ascending member same, ReplyT.answer, if_pos present]
  inprogress e member same absent := by
    rw [classified.of_mem ascending member same, ReplyT.answer, absent]
    rfl
  forgotten first head larger := by
    cases trimmed with
    | nil => contradiction
    | cons _ rest =>
        cases Option.mem_some_iff.mp head
        have behind := (List.pairwise_cons.mp ascending).1
        cases classified with
        | known e member same =>
            rcases List.mem_cons.mp member with rfl | later
            · exact absurd same (Nat.ne_of_gt larger)
            · have further := behind e later
              omega
        | forgotten => rfl
        | new _ smaller =>
            have before := smaller first rfl
            omega
  new fresh notBehind := by
    cases classified with
    | known e member same => exact absurd same (fresh e member)
    | forgotten ne_nil larger =>
        rcases List.exists_cons_of_ne_nil ne_nil with ⟨first, rest, rfl⟩
        exact absurd (larger first List.mem_cons_self) (notBehind first rfl)
    | new => rfl

theorem Classified.entered (classified : Classified trimmed xid state window)
    (ascending : StrictlyAscending ReplyT.xid trimmed) : Entered trimmed xid state window where
  known other := by
    cases classified with
    | known | forgotten => rfl
    | new => contradiction
  new isNew := by
    subst isNew
    rw [classified.of_new.1]
    exact insertAscending_split _ _ _
  ascending := classified.ascending ascending

/-- The duplicate check trims the window of the client, looks the request up and enters it
if it is new. -/
theorem checkReplyWindow_spec (replyWindow : Nat → List (ReplyT ReplyBuf))
    (cltNonce xid xidRep : Nat)
    (ascending : StrictlyAscending ReplyT.xid (replyWindow cltNonce)) :
    WindowSpec replyWindow cltNonce xid xidRep
      (checkReplyWindow replyWindow cltNonce xid xidRep) where
  answered := (checkduplicateAndUpdate_classified xid xidRep ascending).answered
    (trim_ascending xidRep ascending)
  entered := by
    have entered := (checkduplicateAndUpdate_classified xid xidRep ascending).entered
      (trim_ascending xidRep ascending)
    have window : (checkReplyWindow replyWindow cltNonce xid xidRep).replyWindow cltNonce =
        (checkduplicateAndUpdate (replyWindow cltNonce) xid xidRep).2 := Function.update_self ..
    rw [window]
    exact entered
  freed := scanFreed_eq ascending
  others n other := Function.update_of_ne other ..

/-- Call 2 is acknowledged, call 3 is executed, and the reply to call 5 is stored. -/
def exampleWindow : List (ReplyT ReplyBuf) := [
  { xid := 2, cbPresent := true, buf := some ⟨7, 32⟩ },
  { xid := 3 },
  { xid := 5, cbPresent := true, buf := some ⟨8, 40⟩ }]

theorem checkReplyWindow_spec_duplicate :
    (checkReplyWindow (fun _ => exampleWindow) 9 5 3).freed = [⟨7, 32⟩] ∧
      (checkReplyWindow (fun _ => exampleWindow) 9 5 3).state = .done (some ⟨8, 40⟩) := by
  have spec := checkReplyWindow_spec (fun _ => exampleWindow) 9 5 3
    (by unfold StrictlyAscending; decide)
  refine ⟨spec.freed, ?_⟩
  exact spec.answered.done { xid := 5, cbPresent := true, buf := some ⟨8, 40⟩ }
    (by simp [exampleWindow]) rfl rfl

end YfsRpc.Rpc
