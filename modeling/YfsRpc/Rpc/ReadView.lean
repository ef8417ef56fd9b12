import YfsRpc.Rpc.ReadBounds

/-! # The receiving end is the one of the machine of connections

The machine of connections has no successor where the size prefix is below four. Else
its receiving end takes the same steps as the detailed one, so that what is known of its
PDUs is known of them.
-/

namespace YfsRpc.Rpc

namespace ReadEnd

variable {s next : ReadEnd} {header body outcome : ReadOutcome} {memory accept succ : Bool}

theorem readBody_view (filling : Filling s.rpdu) (taken : s.readBody outcome = some (succ, next)) :
    Connection.readBody s.view.rpdu s.stream s.delivered (outcome.view s.errno) =
      some (succ, next.view.rpdu, next.delivered) ∧
      next.dead = s.dead ∧ next.accepted = s.accepted := by
  have missing := filling.missing_eq
  have prefixed := filling.prefixed
  have within := filling.within
  simp only [rpcSzT] at prefixed
  unfold Connection.readBody
  rcases readBody_cases taken with
    ⟨k, rfl, positive, most, room, rfl, rfl⟩ | ⟨zero, errno, failed, after⟩
  · refine ⟨if_pos ⟨positive, ?_, room⟩, rfl, rfl⟩
    change k ≤ s.rpdu.sz.toNat - s.rpdu.solong.toNat
    omega
  · cases failed with
    | eof | fail =>
        rcases after with ⟨again, rfl, rfl⟩ | ⟨other, rfl, rfl⟩
        · exact ⟨if_pos (decide_eq_true again), rfl, rfl⟩
        · exact ⟨if_neg (by simpa using other), rfl, rfl⟩

theorem readpdu_view_failed {k : Nat} {zero : Bool} {errno : Int} (sane : Sane s)
    (empty : s.rpdu.buf = none) (failed : NoSize s header k zero errno)
    (result : Connection.ReadResult) :
    Connection.readpdu s.view.rpdu s.stream s.delivered (header.view s.errno) result =
      some (false, s.view.rpdu, s.delivered + k) := by
  have between : s.view.rpdu.sz = 0 := by
    change s.rpdu.sz.toNat = 0
    rw [sane.empty empty]
    rfl
  unfold Connection.readpdu
  rw [if_pos between]
  cases failed with
  | eof => rfl
  | fail errno fatal => exact if_neg (by simpa using fatal)
  | bytes k positive most room unusable =>
      refine (if_pos ⟨positive, most, room⟩).trans ?_
      by_cases whole : k = rpcSzT
      · subst whole
        exact (if_neg (not_not.mpr rfl)).trans (if_pos (unusable rfl))
      · exact if_pos whole

theorem readpdu_view_opened (sane : Sane s) (size : NewSize s header) (enough : 4 ≤ s.nextSz)
    (result : Connection.ReadResult) :
    Connection.readpdu s.view.rpdu s.stream s.delivered (header.view s.errno) result =
      Connection.readBody s.opened.view.rpdu s.stream (s.delivered + rpcSzT) result := by
  have between : s.view.rpdu.sz = 0 := by
    change s.rpdu.sz.toNat = 0
    rw [sane.empty size.empty]
    rfl
  have usable : ¬ (s.nextSz < rpcSzT ∨ s.view.rpdu.buf.isSome) := by
    rintro (small | some)
    · simp only [rpcSzT] at small
      omega
    · change s.rpdu.buf.isSome at some
      rw [size.empty] at some
      contradiction
  unfold Connection.readpdu
  rw [if_pos between, size.whole]
  refine (if_pos ⟨by decide, Nat.le_refl _, size.room⟩).trans ?_
  exact (if_neg (not_not.mpr rfl)).trans
    ((if_neg (Int.not_lt.mpr size.small)).trans (if_neg usable))

/-- Offering a PDU in both machines. -/
theorem offer_view (sane : Sane next) (accept : Bool) :
    (match next.view.rpdu.buf with
      | none => some next.view
      | some b =>
          if next.view.rpdu.solong = next.view.rpdu.sz ∧ accept then
            some { next.view with rpdu := {}, accepted := next.view.accepted ++ [b] }
          else
            some next.view) = some (next.offer accept).view := by
  cases found : next.rpdu.buf with
  | none =>
      have incomplete : ¬ next.Complete := by
        rintro ⟨some, -⟩
        rw [found] at some
        contradiction
      simp only [view, found, ReadEnd.offer, if_neg incomplete]
  | some b =>
      have filling := sane.filling (by rw [found]; rfl)
      have prefixed := filling.prefixed
      have within := filling.within
      simp only [rpcSzT] at prefixed
      have same : next.rpdu.solong = (next.rpdu.sz.toNat : Int) ↔ next.Complete := by
        unfold Complete
        rw [found]
        simp only [Option.isSome_some, true_and]
        omega
      simp only [view, found, same]
      by_cases complete : next.Complete
      · cases accept with
        | true => simp [ReadEnd.offer, complete, found]
        | false => simp [ReadEnd.offer, complete, found]
      · simp [ReadEnd.offer, complete, found]

/-- The reading part of `read_cb` in both machines. -/
theorem attempt_view (sane : Sane s) (alive : s.dead = false) (attempt : Attempt s header body next)
    (sized : s.rpdu.buf = none → header = .bytes rpcSzT → ¬ (-4 ≤ s.nextSz ∧ s.nextSz ≤ 3)) :
    next.accepted = s.accepted ∧
      (if s.view.rpdu.buf.isNone || s.view.rpdu.solong < s.view.rpdu.sz then
          Connection.readpdu s.view.rpdu s.stream s.delivered (header.view s.errno)
            (body.view s.errno)
        else
          some (true, s.view.rpdu, s.delivered)) =
        some (!next.dead, next.view.rpdu, next.delivered) := by
  cases attempt with
  | full progress enough =>
      have complete := sane.complete progress enough
      have filling := sane.filling progress
      have prefixed := filling.prefixed
      have same := complete.2
      simp only [rpcSzT] at prefixed
      have full : ¬ (s.rpdu.buf.isNone || decide (s.rpdu.solong < (s.rpdu.sz.toNat : Int))) := by
        rw [Bool.or_eq_true, decide_eq_true_eq, Option.isNone_iff_eq_none]
        rintro (none | short)
        · exact Option.ne_none_iff_isSome.mpr progress none
        · omega
      refine ⟨rfl, (if_neg full).trans ?_⟩
      rw [alive]
      rfl
  | noSize empty failed =>
      have fresh : s.view.rpdu.buf.isNone || decide (s.view.rpdu.solong < s.view.rpdu.sz) := by
        rw [show s.view.rpdu.buf = none from empty]
        rfl
      exact ⟨rfl, (if_pos fresh).trans (readpdu_view_failed sane empty failed _)⟩
  | @opened size succ after taken =>
      have fresh : s.view.rpdu.buf.isNone || decide (s.view.rpdu.solong < s.view.rpdu.sz) := by
        rw [show s.view.rpdu.buf = none from size.empty]
        rfl
      have enough := size.le_nextSz (sized size.empty size.whole)
      rcases readBody_view ((sane.opened size enough).filling rfl) taken with ⟨read, same, accepted⟩
      have dead : after.dead = false := same.trans alive
      have called := (readpdu_view_opened sane size enough _).trans read
      cases succ with
      | true =>
          refine ⟨accepted, (if_pos fresh).trans (called.trans ?_)⟩
          rw [settled, if_pos rfl, dead]
          rfl
      | false => exact ⟨accepted, (if_pos fresh).trans called⟩
  | @body progress succ after taken =>
      have filling := sane.filling progress.1
      have prefixed := filling.prefixed
      have short := progress.2
      simp only [rpcSzT] at prefixed
      have partly : s.view.rpdu.buf.isNone || decide (s.view.rpdu.solong < s.view.rpdu.sz) := by
        refine Bool.or_eq_true_iff.mpr (Or.inr (decide_eq_true ?_))
        change s.rpdu.solong < (s.rpdu.sz.toNat : Int)
        omega
      have sized : s.view.rpdu.sz ≠ 0 := by
        change s.rpdu.sz.toNat ≠ 0
        omega
      rcases readBody_view filling taken with ⟨read, same, accepted⟩
      have dead : after.dead = false := same.trans alive
      have called : Connection.readpdu s.view.rpdu s.stream s.delivered (header.view s.errno)
          (body.view s.errno) = some (succ, after.view.rpdu, after.delivered) :=
        (if_neg sized).trans read
      cases succ with
      | true =>
          refine ⟨accepted, (if_pos partly).trans (called.trans ?_)⟩
          rw [settled, if_pos rfl, dead]
          rfl
      | false => exact ⟨accepted, (if_pos partly).trans called⟩

theorem readCb_eq {r : Connection.Receiving} {stream : List UInt8}
    {header body : Connection.ReadResult} {rpdu : Connection.Charbuf} {delivered : Nat}
    (alive : r.dead = false)
    (read : (if r.rpdu.buf.isNone || r.rpdu.solong < r.rpdu.sz then
        Connection.readpdu r.rpdu stream r.delivered header body
      else
        some (true, r.rpdu, r.delivered)) = some (succ, rpdu, delivered)) :
    Connection.readCb r stream header body accept =
      match rpdu.buf with
      | none => some { r with rpdu, delivered, dead := !succ }
      | some b =>
          if rpdu.solong = rpdu.sz ∧ accept then
            some { r with rpdu := {}, delivered, dead := !succ, accepted := r.accepted ++ [b] }
          else
            some { r with rpdu, delivered, dead := !succ } := by
  unfold Connection.readCb
  rw [if_neg (alive ▸ Bool.false_ne_true)]
  dsimp only
  cases found : rpdu.buf with
  | none =>
      rw [read]
      simp only [found]
  | some b =>
      rw [read]
      simp only [found]

/-- A call of `read_cb` that reads no size from -4 to 3 is one of the machine of
connections. -/
theorem readCb_view (sane : Sane s) (sized : Sized s (.readCb header body memory accept))
    (taken : s.step (.readCb header body memory accept) = some next) :
    Connection.readCb s.view s.stream (header.view s.errno) (body.view s.errno) accept =
      some next.view := by
  rcases step_readCb sane.toShaped taken with ⟨registered, mid, attempt, rfl⟩
  have alive := sane.alive registered
  rcases attempt_view sane alive attempt sized with ⟨accepted, read⟩
  rw [← offer_view (sane.attempt attempt sized) accept, readCb_eq alive read, Bool.not_not]
  have same : { s.view with rpdu := mid.view.rpdu, delivered := mid.delivered, dead := mid.dead } =
      mid.view := by
    simp only [view, accepted]
  rw [same]
  simp only [view, accepted]

end ReadEnd

end YfsRpc.Rpc
