import YfsRpc.Rpc.Cancellation

/-! # The cancellation is complete

`cancel` forces the callers that are in `calls_` to fail, and no others come while it
waits. A forced caller keeps the failure until it returns, and none is left in `calls_`
when `cancel` returns.
-/

namespace YfsRpc.Rpc.Cancellation

variable {nonce : Nat} {s next : Cancellation} {number other : Nat}

/-! ## The invariant -/

/-- Whose caller objects exist, and which of them are in `calls_`. -/
structure Placed (s : Cancellation) : Prop where
  callers : ∀ number ca, s.client.callers number = some ca → ∃ phase,
    s.phases number = some phase ∧ phase.Inside
  known : ∀ number phase, s.phases number = some phase → number ≤ s.client.issued.length
  registered : ∀ xid number, s.client.calls[xid]? = some number → ∃ ca phase,
    s.client.callers number = some ca ∧ ca.xid = xid ∧ s.phases number = some phase ∧
      phase.Registered

/-- `cancel` forces what is in `calls_`, and then waits until nothing is. -/
structure Inv (s : Cancellation) : Prop where
  placed : s.Placed
  forcing : ∀ rest, s.cancel = .forcing rest → ∀ xid number,
    s.client.calls[xid]? = some number → (xid, number) ∈ rest ∨ s.Forced number
  waited : ∀ signalled, s.cancel = .waiting signalled → s.client.destroyWait = true
  forced : s.client.destroyWait = true → ∀ number, s.Registered number → s.Forced number
  awake : s.Awake
  wakened : ∀ signalled, s.cancel = .waiting signalled → s.client.calls.isEmpty →
    signalled = true

theorem init_inv : Inv ({} : Cancellation) where
  placed := by
    refine ⟨nofun, nofun, fun xid number found => ?_⟩
    have none : (Std.ExtTreeMap.empty : Calls)[xid]? = none := Std.ExtTreeMap.getElem?_empty
    exact absurd (none.symm.trans found) nofun
  forcing := nofun
  waited := nofun
  forced := nofun
  awake := nofun
  wakened := nofun

theorem Placed.caller_le (placed : s.Placed) {ca : Caller}
    (current : s.client.callers number = some ca) : number ≤ s.client.issued.length := by
  rcases placed.callers number ca current with ⟨phase, there, -⟩
  exact placed.known number phase there

theorem Registered.mono {before now : Cancellation} (calls : now.client.calls = before.client.calls)
    (registered : now.Registered number) : before.Registered number := by
  rcases registered with ⟨xid, found⟩
  rw [calls] at found
  exact ⟨xid, found⟩

/-! ### Quiet steps -/

theorem Quiet.forced (quiet : s.Quiet next) (forced : s.Forced number) : next.Forced number := by
  rcases forced with ⟨ca, current, done, failure⟩
  rcases quiet.callers number ca current with ⟨after, current, -, same⟩
  cases same done
  exact ⟨ca, current, done, failure⟩

theorem Placed.quiet (placed : s.Placed) (quiet : s.Quiet next) : next.Placed where
  callers := by
    intro number after current
    rcases quiet.old number after current with ⟨ca, current⟩
    rcases placed.callers number ca current with ⟨phase, there, inside⟩
    rcases quiet.phases number phase there with ⟨after, there, -, kept, -⟩
    exact ⟨after, there, kept inside⟩
  known := by
    intro number after there
    rcases quiet.known number after there with ⟨phase, there⟩
    rw [quiet.issued]
    exact placed.known number phase there
  registered := by
    intro xid number found
    rw [quiet.calls] at found
    rcases placed.registered xid number found with ⟨ca, phase, current, same, there, registered⟩
    rcases quiet.callers number ca current with ⟨after, current, xid, -⟩
    rcases quiet.phases number phase there with ⟨now, there, kept, -, -⟩
    exact ⟨after, now, current, xid.trans same, there, kept registered⟩

theorem Inv.quiet (inv : s.Inv) (quiet : s.Quiet next) : next.Inv where
  placed := inv.placed.quiet quiet
  forcing := by
    intro rest forcing xid number found
    rw [quiet.cancel] at forcing
    rw [quiet.calls] at found
    exact (inv.forcing rest forcing xid number found).imp_right quiet.forced
  waited := by
    intro signalled waits
    rw [quiet.cancel] at waits
    rw [quiet.destroyWait]
    exact inv.waited signalled waits
  forced := by
    intro waited number registered
    rw [quiet.destroyWait] at waited
    exact quiet.forced (inv.forced waited number (registered.mono quiet.calls))
  awake := quiet.awake inv.awake
  wakened := by
    intro signalled waits empty
    rw [quiet.cancel] at waits
    rw [quiet.calls] at empty
    exact inv.wakened signalled waits empty

/-! ### Calls begin and end -/

theorem unlocked_cancel {rest : List (Nat × Nat)} (unlocked : s.locked = false) :
    s.cancel ≠ .forcing rest := by
  intro forcing
  rw [locked, forcing] at unlocked
  contradiction

theorem Inv.call (inv : s.Inv) (h : Request) (last : Bool) (unlocked : s.locked = false)
    (admitted : s.client.destroyWait = false) :
    Inv ({ s with client := s.client.register h }.setPhase
      (s.client.issued.length + 1) (.sending last)) := by
  have new {number : Nat} (le : number ≤ s.client.issued.length) :
      number ≠ s.client.issued.length + 1 := by omega
  exact {
    placed := {
      callers := by
        intro number ca current
        rw [phases_setPhase]
        split
        · exact ⟨_, rfl, trivial⟩
        · next other =>
            have current := (Client.callers_register_of_ne h other).symm.trans current
            exact inv.placed.callers number ca current
      known := by
        intro number phase there
        change number ≤ (s.client.issued ++ [h]).length
        rw [List.length_append]
        rw [phases_setPhase] at there
        split at there
        · next same => exact same.le
        · exact Nat.le_trans (inv.placed.known number phase there) (Nat.le_add_right _ _)
      registered := by
        intro xid number found
        have found := (Client.calls_register h xid).symm.trans found
        split at found
        · next same =>
            cases found
            exact ⟨_, .sending last, Client.callers_register_self h, same,
              by rw [phases_setPhase, if_pos rfl], trivial⟩
        · rcases inv.placed.registered xid number found with
            ⟨ca, phase, current, same, there, registered⟩
          have old := new (inv.placed.caller_le current)
          exact ⟨ca, phase, (Client.callers_register_of_ne h old).trans current, same,
            by rw [phases_setPhase, if_neg old]; exact there, registered⟩ }
    forcing := by
      intro rest forcing
      exact absurd forcing (unlocked_cancel unlocked)
    waited := by
      intro signalled waits
      rw [inv.waited signalled waits] at admitted
      contradiction
    forced := by
      intro waited
      rw [show s.client.destroyWait = true from waited] at admitted
      contradiction
    awake := by
      intro number ca last signalled current done waits
      rw [phases_setPhase] at waits
      split at waits
      · cases waits
      · next other =>
          have current := (Client.callers_register_of_ne h other).symm.trans current
          exact inv.awake number ca last signalled current done waits
    wakened := by
      intro signalled waits
      rw [inv.waited signalled waits] at admitted
      contradiction }

theorem Inv.erase (inv : s.Inv) {ca : Caller} (unlocked : s.locked = false)
    (left : s.phases number = some .left) (current : s.client.callers number = some ca) :
    Inv ({ s with
      client := { s.client with
        calls := s.client.calls.erase ca.xid
        xidRepWindow := updateXidRep s.client.xidRepWindow ca.xid }
      cancel := if s.client.destroyWait then s.cancel.signal else s.cancel }.setPhase
        number .erased) := by
  have kept {xid other : Nat} (found : (s.client.calls.erase ca.xid)[xid]? = some other) :
      ca.xid ≠ xid ∧ s.client.calls[xid]? = some other := by
    have found := (getElem?_erase_calls s.client.calls ca.xid xid).symm.trans found
    split at found
    · contradiction
    · next differs => exact ⟨differs, found⟩
  have cancel := s.cancel.signal_kept s.client.destroyWait
  exact {
    placed := {
      callers := by
        intro other caller found
        rw [phases_setPhase]
        split
        · exact ⟨_, rfl, trivial⟩
        · exact inv.placed.callers other caller found
      known := by
        intro other phase there
        rw [phases_setPhase] at there
        split at there
        · next same =>
            rw [same]
            exact inv.placed.caller_le current
        · exact inv.placed.known other phase there
      registered := by
        intro xid other found
        rcases kept found with ⟨differs, found⟩
        rcases inv.placed.registered xid other found with
          ⟨caller, phase, there, same, found, registered⟩
        refine ⟨caller, phase, there, same, ?_, registered⟩
        rw [phases_setPhase, if_neg]
        · exact found
        · rintro rfl
          rw [current] at there
          cases there
          exact differs same }
    forcing := by
      intro rest forcing
      exact absurd (cancel.1 rest forcing) (unlocked_cancel unlocked)
    waited := by
      intro signalled waits
      rcases cancel.2.1 signalled waits with ⟨before, waited, -⟩
      exact inv.waited before waited
    forced := by
      intro waited other registered
      rcases registered with ⟨xid, found⟩
      exact inv.forced waited other ⟨xid, (kept found).2⟩
    awake := by
      intro other caller last signalled there done waits
      rw [phases_setPhase] at waits
      split at waits
      · cases waits
      · exact inv.awake other caller last signalled there done waits
    wakened := by
      intro signalled waits _
      rcases cancel.2.1 signalled waits with ⟨before, waited, sent⟩
      exact sent (inv.waited before waited) }

theorem Inv.leave (inv : s.Inv) {client : Client} {ret : Int}
    (erased : s.phases number = some .erased)
    (callers : client.callers = Function.update s.client.callers number none)
    (calls : client.calls = s.client.calls) (issued : client.issued = s.client.issued)
    (destroyWait : client.destroyWait = s.client.destroyWait) :
    Inv ({ s with client }.setPhase number (.returned ret)) := by
  have stays {other : Nat} {ca : Caller} (found : client.callers other = some ca) :
      other ≠ number ∧ s.client.callers other = some ca := by
    rw [callers] at found
    exact slot_emptied found
  have registered {xid other : Nat} (found : s.client.calls[xid]? = some other) :
      other ≠ number := by
    rintro rfl
    rcases inv.placed.registered xid other found with ⟨_, phase, -, -, there, registered⟩
    rw [erased] at there
    cases there
    exact registered
  have forced {other : Nat} (differs : other ≠ number) (forced : s.Forced other) :
      Forced ({ s with client }.setPhase number (.returned ret)) other := by
    rcases forced with ⟨ca, current, done, failure⟩
    refine ⟨ca, ?_, done, failure⟩
    change client.callers other = some ca
    rw [callers, Function.update_of_ne differs, current]
  exact {
    placed := {
      callers := by
        intro other ca found
        rcases stays found with ⟨differs, found⟩
        rw [phases_setPhase, if_neg differs]
        exact inv.placed.callers other ca found
      known := by
        intro other phase there
        change other ≤ client.issued.length
        rw [issued]
        rw [phases_setPhase] at there
        split at there
        · next same =>
            rw [same]
            exact inv.placed.known number .erased erased
        · exact inv.placed.known other phase there
      registered := by
        intro xid other found
        change client.calls[xid]? = some other at found
        rw [calls] at found
        have differs := registered found
        rcases inv.placed.registered xid other found with
          ⟨ca, phase, current, same, there, registered⟩
        refine ⟨ca, phase, ?_, same, ?_, registered⟩
        · change client.callers other = some ca
          rw [callers, Function.update_of_ne differs, current]
        · rw [phases_setPhase, if_neg differs]
          exact there }
    forcing := by
      intro rest forcing xid other found
      change client.calls[xid]? = some other at found
      rw [calls] at found
      exact (inv.forcing rest forcing xid other found).imp_right (forced (registered found))
    waited := by
      intro signalled waits
      exact destroyWait.trans (inv.waited signalled waits)
    forced := by
      intro waited other there
      rcases there with ⟨xid, found⟩
      change client.calls[xid]? = some other at found
      rw [calls] at found
      have before := inv.forced (destroyWait.symm.trans waited) other ⟨xid, found⟩
      exact forced (registered found) before
    awake := by
      intro other ca last signalled found done waits
      rcases stays found with ⟨differs, found⟩
      rw [phases_setPhase, if_neg differs] at waits
      exact inv.awake other ca last signalled found done waits
    wakened := by
      intro signalled waits empty
      change client.calls.isEmpty = true at empty
      rw [calls] at empty
      exact inv.wakened signalled waits empty }

/-! ### The thread in `cancel` -/

theorem Inv.start (inv : s.Inv) : Inv { s with cancel := .forcing s.client.entries } where
  placed := ⟨inv.placed.callers, inv.placed.known, inv.placed.registered⟩
  forcing := by
    intro rest forcing xid number found
    cases forcing
    exact Or.inl (mem_entries.mpr found)
  waited := nofun
  forced := inv.forced
  awake := inv.awake
  wakened := nofun

/-- What was forced stays so, and one more caller is. -/
theorem forced_force {rest : List (Nat × Nat)} (forced : s.Forced other) :
    Forced ({ s with client := s.client.force number, cancel := .forcing rest }.signalCall number)
      other := by
  rcases forced with ⟨ca, current, done, failure⟩
  by_cases same : other = number
  · subst same
    exact ⟨_, force_callers_self.trans (congrArg _ current), rfl, rfl⟩
  · exact ⟨ca, (force_callers_other same).trans current, done, failure⟩

theorem Inv.force (inv : s.Inv) {entry : Nat × Nat} {rest : List (Nat × Nat)}
    (forcing : s.cancel = .forcing (entry :: rest)) :
    Inv ({ s with
      client := s.client.force entry.2
      cancel := .forcing rest }.signalCall entry.2) := by
  have before {other : Nat} {after : Caller}
      (found : (s.client.force entry.2).callers other = some after) :
      ∃ ca, s.client.callers other = some ca ∧ (other ≠ entry.2 → after = ca) := by
    by_cases same : other = entry.2
    · rw [same, force_callers_self] at found
      rcases Option.map_eq_some_iff.mp found with ⟨ca, current, -⟩
      exact ⟨ca, same ▸ current, fun differs => absurd same differs⟩
    · rw [force_callers_other same] at found
      exact ⟨after, found, fun _ => rfl⟩
  exact {
    placed := {
      callers := by
        intro other after found
        rcases before found with ⟨ca, current, -⟩
        rcases inv.placed.callers other ca current with ⟨phase, there, inside⟩
        rcases signalCall_kept entry.2 there with ⟨after, there, -, kept, -⟩
        exact ⟨after, there, kept inside⟩
      known := by
        intro other phase there
        rcases signalCall_known there with ⟨phase, there⟩
        exact inv.placed.known other phase there
      registered := by
        intro xid other found
        rcases inv.placed.registered xid other found with
          ⟨ca, phase, current, same, there, registered⟩
        rcases signalCall_kept entry.2 there with ⟨after, there, kept, -, -⟩
        by_cases here : other = entry.2
        · subst here
          exact ⟨_, after, force_callers_self.trans (congrArg _ current), same, there,
            kept registered⟩
        · exact ⟨ca, after, (force_callers_other here).trans current, same, there,
            kept registered⟩ }
    forcing := by
      intro later same xid other found
      cases same
      rcases inv.forcing _ forcing xid other found with listed | forced
      · rcases List.mem_cons.mp listed with rfl | listed
        · rcases inv.placed.registered xid other found with ⟨ca, -, current, -⟩
          exact Or.inr ⟨_, force_callers_self.trans (congrArg _ current), rfl, rfl⟩
        · exact Or.inl listed
      · exact Or.inr (forced_force forced)
    waited := nofun
    forced := by
      intro waited other registered
      exact forced_force (inv.forced waited other registered)
    awake := by
      intro other after last signalled found done waits
      rcases signalCall_waiting waits with sent | ⟨differs, waits⟩
      · exact sent
      · rcases before found with ⟨ca, current, same⟩
        cases same differs
        exact inv.awake other after last signalled current done waits
    wakened := nofun }

/-- When `cancel` looks whether calls are left, they are forced to fail. -/
theorem Inv.forced_of_test (inv : s.Inv)
    (looks : s.cancel = .forcing [] ∨ ∃ signalled, s.cancel = .waiting signalled)
    (registered : s.Registered number) : s.Forced number := by
  rcases looks with done | ⟨signalled, waits⟩
  · rcases registered with ⟨xid, found⟩
    rcases inv.forcing [] done xid number found with listed | forced
    · contradiction
    · exact forced
  · exact inv.forced (inv.waited signalled waits) number registered

theorem Inv.test (inv : s.Inv)
    (looks : s.cancel = .forcing [] ∨ ∃ signalled, s.cancel = .waiting signalled) :
    s.test.Inv := by
  have forced (number : Nat) (registered : s.test.Registered number) : s.test.Forced number := by
    rcases inv.forced_of_test looks (registered.mono (test_calls s)) with ⟨ca, current, failure⟩
    exact ⟨ca, by rw [test_callers, current], failure⟩
  have notForcing (rest : List (Nat × Nat)) : s.test.cancel ≠ .forcing rest := by
    rcases test_cases s with ⟨-, cancel, -⟩ | ⟨-, cancel, -⟩
    all_goals
      rw [cancel]
      nofun
  exact {
    placed := {
      callers := by
        rw [test_callers, test_phases]
        exact inv.placed.callers
      known := by
        rw [test_phases, test_issued]
        exact inv.placed.known
      registered := by
        rw [test_calls, test_callers, test_phases]
        exact inv.placed.registered }
    forcing := fun rest forcing => absurd forcing (notForcing rest)
    waited := by
      intro signalled waits
      rcases test_cases s with ⟨-, returned, -⟩ | ⟨-, -, waited⟩
      · rw [returned] at waits
        contradiction
      · exact waited
    forced := fun _ => forced
    awake := by
      unfold Awake
      rw [test_callers, test_phases]
      exact inv.awake
    wakened := by
      intro signalled waits empty
      rw [test_calls] at empty
      rcases test_cases s with ⟨-, returned, -⟩ | ⟨left, -, -⟩
      · rw [returned] at waits
        contradiction
      · rw [left] at empty
        contradiction }

theorem Inv.stepped (inv : s.Inv) (stepped : s.Stepped next) : next.Inv := by
  cases stepped with
  | quiet quiet => exact inv.quiet quiet
  | call h last unlocked admitted => exact inv.call h last unlocked admitted
  | erase number ca unlocked left current => exact inv.erase unlocked left current
  | leave number ca client erased _ callers calls issued destroyWait =>
      exact inv.leave erased callers calls issued destroyWait
  | cancel => exact inv.start
  | force entry rest forcing => exact inv.force forcing
  | test looks => exact inv.test looks

theorem reachable_inv (reachable : (machine nonce).Reachable s) : s.Inv :=
  reachable.invariant Inv init_inv fun _ _ _ _ inv taken => inv.stepped (step_stepped taken)

/-! ## Completeness -/

/-- Replies come too late for callers that are done. -/
theorem settled_of_forced (forced : ∀ number, s.Registered number → s.Forced number) :
    s.Settled := by
  refine ⟨forced, fun reply => ?_⟩
  rcases gotPdu_callers s.client reply with
    same | ⟨number, ca, found, current, pending, -⟩
  · exact same
  · rcases forced number ⟨reply.xid, found⟩ with ⟨caller, there, done, -⟩
    rw [current] at there
    cases there
    rw [pending] at done
    contradiction

/-- After `cancel` has waited, no call is registered. -/
theorem Stepped.closed (stepped : s.Stepped next) (waited : s.client.destroyWait = true) :
    next.client.destroyWait = true ∧ next.client.issued = s.client.issued := by
  cases stepped with
  | quiet quiet => exact ⟨quiet.destroyWait.trans waited, quiet.issued⟩
  | call h last unlocked admitted =>
      rw [waited] at admitted
      contradiction
  | erase => exact ⟨waited, rfl⟩
  | leave number ca client _ _ _ _ issued destroyWait => exact ⟨destroyWait.trans waited, issued⟩
  | cancel => exact ⟨waited, rfl⟩
  | force => exact ⟨waited, rfl⟩
  | test =>
      rcases test_cases s with ⟨-, -, same⟩ | ⟨-, -, waits⟩
      · exact ⟨same.trans waited, test_issued s⟩
      · exact ⟨waits, test_issued s⟩

/-- A call that `cancel` will force to fail, or has, or that returned the failure. -/
def Failing (s : Cancellation) (number : Nat) : Prop :=
  ((∃ rest, s.cancel = .forcing rest) ∧ s.Registered number) ∨ s.Forced number ∨
    s.phases number = some (.returned RpcConst.cancelFailure)

theorem Stepped.forced (stepped : s.Stepped next) (inv : s.Inv) (forced : s.Forced number) :
    next.Forced number ∨ next.phases number = some (.returned RpcConst.cancelFailure) := by
  have kept := forced
  rcases forced with ⟨ca, current, done, failure⟩
  cases stepped with
  | quiet quiet => exact Or.inl (quiet.forced kept)
  | call h last =>
      have old : number ≠ s.client.issued.length + 1 := by
        have le := inv.placed.caller_le current
        omega
      exact Or.inl ⟨ca, (Client.callers_register_of_ne h old).trans current, done, failure⟩
  | erase => exact Or.inl ⟨ca, current, done, failure⟩
  | leave other caller client erased there callers =>
      by_cases same : number = other
      · subst same
        rw [current] at there
        cases there
        rw [phases_setPhase, if_pos rfl, if_pos done, failure]
        exact Or.inr rfl
      · refine Or.inl ⟨ca, ?_, done, failure⟩
        change client.callers number = some ca
        rw [callers, Function.update_of_ne same, current]
  | cancel => exact Or.inl ⟨ca, current, done, failure⟩
  | force => exact Or.inl (forced_force kept)
  | test => exact Or.inl ⟨ca, by rw [test_callers, current], done, failure⟩

theorem Stepped.returned {ret : Int} (stepped : s.Stepped next) (inv : s.Inv)
    (returned : s.phases number = some (.returned ret)) :
    next.phases number = some (.returned ret) := by
  cases stepped with
  | quiet quiet =>
      rcases quiet.phases number _ returned with ⟨after, there, -, -, same⟩
      rw [there, same ret rfl]
  | call h last =>
      have le := inv.placed.known number _ returned
      rw [phases_setPhase, if_neg (by omega)]
      exact returned
  | erase other ca unlocked left =>
      rw [phases_setPhase, if_neg]
      · exact returned
      · rintro rfl
        rw [left] at returned
        cases returned
  | leave other ca client erased =>
      rw [phases_setPhase, if_neg]
      · exact returned
      · rintro rfl
        rw [erased] at returned
        cases returned
  | cancel => exact returned
  | force entry rest =>
      rcases signalCall_kept entry.2 returned with ⟨after, there, -, -, same⟩
      cases same ret rfl
      exact there
  | test => rw [test_phases, returned]

theorem Failing.step (failing : s.Failing number) (inv : s.Inv) (stepped : s.Stepped next) :
    next.Failing number := by
  rcases failing with ⟨⟨rest, forcing⟩, registered⟩ | forced | returned
  · cases stepped with
    | quiet quiet =>
        rcases registered with ⟨xid, found⟩
        exact Or.inl ⟨⟨rest, quiet.cancel.trans forcing⟩, xid, by rw [quiet.calls, found]⟩
    | call _ _ unlocked => exact absurd forcing (unlocked_cancel unlocked)
    | erase _ _ unlocked => exact absurd forcing (unlocked_cancel unlocked)
    | leave other ca client _ _ _ calls =>
        rcases registered with ⟨xid, found⟩
        exact Or.inl ⟨⟨rest, forcing⟩, xid, (congrArg (·[xid]?) calls).trans found⟩
    | cancel unlocked => exact absurd forcing (unlocked_cancel unlocked)
    | force entry later => exact Or.inl ⟨⟨later, rfl⟩, registered⟩
    | test looks =>
        have forced := inv.forced_of_test looks registered
        exact Or.inr (Stepped.forced (.test looks) inv forced)
  · exact Or.inr (stepped.forced inv forced)
  · exact Or.inr (Or.inr (stepped.returned inv returned))

/-- What `cancel` leaves behind when it returns. -/
theorem Stepped.emptied (stepped : s.Stepped next) (before : s.cancel ≠ .returned)
    (returned : next.cancel = .returned) : next.client.calls.isEmpty := by
  cases stepped with
  | quiet quiet => exact absurd (quiet.cancel.symm.trans returned) before
  | call => exact absurd returned before
  | erase => exact absurd ((s.cancel.signal_kept s.client.destroyWait).2.2 returned) before
  | leave => exact absurd returned before
  | cancel => contradiction
  | force => contradiction
  | test =>
      rcases test_cases s with ⟨empty, -⟩ | ⟨-, waits, -⟩
      · rw [test_calls, empty]
      · rw [waits] at returned
        contradiction

theorem Inv.closed {signalled : Bool} {actions : List Action} {later : Cancellation}
    (inv : s.Inv) (waits : s.cancel = .waiting signalled)
    (taken : (machine nonce).run s actions = some later) :
    later.client.issued = s.client.issued ∧ later.Settled := by
  have kept : later.Inv ∧ later.client.destroyWait = true ∧
      later.client.issued = s.client.issued := by
    refine Machine.run_invariant (fun now => now.Inv ∧ now.client.destroyWait = true ∧
      now.client.issued = s.client.issued) ?_ ⟨inv, inv.waited signalled waits, rfl⟩ taken
    rintro now action next ⟨inv, waited, issued⟩ taken
    have stepped := step_stepped taken
    rcases stepped.closed waited with ⟨waited, same⟩
    exact ⟨inv.stepped stepped, waited, same.trans issued⟩
  exact ⟨kept.2.2, settled_of_forced (kept.1.forced kept.2.1)⟩

theorem Inv.failed {started later : Cancellation} {actions : List Action} {ret : Int}
    (inv : s.Inv) (begun : step nonce s .cancel = some started)
    (registered : s.Registered number) (taken : (machine nonce).run started actions = some later)
    (returned : later.phases number = some (.returned ret)) : ret = RpcConst.cancelFailure := by
  have forcing : started.cancel = .forcing s.client.entries ∧ started.Registered number := by
    simp only [step] at begun
    split at begun
    · cases begun
      exact ⟨rfl, registered⟩
    · cases begun
      exact ⟨rfl, registered⟩
    all_goals contradiction
  have failing : later.Inv ∧ later.Failing number := by
    refine Machine.run_invariant (fun now => now.Inv ∧ now.Failing number) ?_
      ⟨inv.stepped (step_stepped begun), Or.inl ⟨⟨_, forcing.1⟩, forcing.2⟩⟩ taken
    rintro now action next ⟨inv, failing⟩ taken
    exact ⟨inv.stepped (step_stepped taken), failing.step inv (step_stepped taken)⟩
  rcases failing with ⟨inv, ⟨-, xid, found⟩ | ⟨ca, current, -⟩ | failure⟩
  · rcases inv.placed.registered xid number found with ⟨ca, phase, -, -, there, registered⟩
    rw [returned] at there
    cases there
    exact registered.elim
  · rcases inv.placed.callers number ca current with ⟨phase, there, inside⟩
    rw [returned] at there
    cases there
    exact inside.elim
  · rw [returned] at failure
    cases failure
    rfl

/-- However the calls, the replies and `cancel` interleave, the cancellation is complete. -/
theorem cancel_complete (reachable : (machine nonce).Reachable s) : s.Complete nonce := by
  have inv := reachable_inv reachable
  constructor
  · intro signalled actions later waits taken
    exact inv.closed waits taken
  · intro started number actions later ret begun registered taken returned
    exact inv.failed begun registered taken returned
  · intro action next taken before returned
    exact (step_stepped taken).emptied before returned
  · exact inv.awake
  · exact inv.wakened

/-- After `bind`, a call waits and another one has timed out when `cancel` comes. -/
def twoCalls : List Action :=
  [.call 1 [] false, .gotPdu { xid := 1, ret := 0, payload := [0, 0, 0, 7] }, .turn 1 false,
    .check 1, .erase 1, .leave 1,
    .bind { req := ⟨1, 1, 5, 0, 0, []⟩, ret := 0, payload := [0, 0, 0, 7] },
    .call 9 [] false, .turn 2 false, .check 2, .call 9 [] false, .turn 3 true, .check 3,
    .wake 3 true, .cancel, .turn 3 false, .force, .force, .force]

/-- A reply comes too late, and `cancel` wakes up twice. -/
def bothFail : List Action :=
  [.gotPdu { xid := 2, ret := 0, payload := [] }, .wake 2 false, .erase 3, .leave 3, .wakeCancel,
    .erase 2, .leave 2, .wakeCancel]

theorem cancel_complete_twoCalls :
    ∃ s later, (machine 5).Reachable s ∧ s.cancel = .waiting false ∧ s.Complete 5 ∧
      (machine 5).run s bothFail = some later ∧ later.cancel = .returned ∧
      later.phases 2 = some (.returned (-7)) ∧ later.phases 3 = some (.returned (-7)) := by
  have first : ((machine 5).run (machine 5).initial twoCalls).map (fun s => s.cancel) =
      some (.waiting false) := by decide +kernel
  have second : (((machine 5).run (machine 5).initial twoCalls).bind fun s =>
      ((machine 5).run s bothFail).map fun later =>
        (later.cancel, later.phases 2, later.phases 3)) =
      some (.returned, some (.returned (-7)), some (.returned (-7))) := by decide +kernel
  rcases Option.map_eq_some_iff.mp first with ⟨s, taken, waits⟩
  rw [taken, Option.bind_some] at second
  rcases Option.map_eq_some_iff.mp second with ⟨later, goesOn, values⟩
  have reachable := Machine.reachable_of_run taken
  rcases Prod.mk.inj values with ⟨returned, values⟩
  rcases Prod.mk.inj values with ⟨two, three⟩
  exact ⟨s, later, reachable, waits, cancel_complete reachable, goesOn, returned, two, three⟩

end YfsRpc.Rpc.Cancellation
