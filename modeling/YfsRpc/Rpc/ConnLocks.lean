import YfsRpc.Foundation.Holders
import YfsRpc.Foundation.LockOrder
import YfsRpc.Foundation.Machine

/-! # The mutexes of the connections

The last `decref` takes `m_` while it has `ref_m_`, and `got_pdu`, which `read_cb` calls with
`m_`, takes `ref_m_`. The two cannot meet: the first happens to dead connections only and
the second to live ones. Around both, `dispatch` has `conss_m_`, and `get_refconn` has
`chan_m_`.

Which thread calls which function is left open, but for the references: a thread gives up
one that there is, and the one of the listener, or of `chan_`, only when the connection is
dead. The mutexes of `PollMgr` and of the job queue are not here; whoever has one of them
takes none of these.
-/

namespace YfsRpc.Rpc

inductive ConnMutex
  /-- `conss_m_` of a server, or `chan_m_` of a client -/
  | users
  /-- `m_` of a connection -/
  | conn (c : Nat)
  /-- `ref_m_` of a connection -/
  | refs (c : Nat)
  deriving DecidableEq

inductive ConnCall
  | incref
  | decref
  | ref
  | isdead
  | closeconn
  | send
  | writeCb
  | readCb
  deriving DecidableEq

/-- Where a thread is. -/
inductive ConnPlace
  /-- before the mutex of the users -/
  | entering
  /-- with that mutex, and in no function of a connection -/
  | between
  /-- before the first mutex of a function -/
  | called (f : ConnCall) (c : Nat)
  /-- in `decref` with `ref_m_`, before `m_` -/
  | last (c : Nat)
  /-- in `send`, waiting for a condition variable or for the poll manager -/
  | sending (c : Nat)
  /-- in `got_pdu`, before `incref` -/
  | gotPdu (c : Nat)
  /-- in `got_pdu`, before `addObjJob` -/
  | adding (c : Nat)
  /-- in `got_pdu`, with the job in the queue -/
  | added (c : Nat)
  /-- in `got_pdu`, before `decref`; what is given up may belong to the job by now -/
  | refused (c : Nat) (own : Bool)
  /-- in the `decref` of `got_pdu` with `ref_m_`, before `m_` -/
  | refusedLast (c : Nat)
  deriving DecidableEq

namespace ConnPlace

/-- The mutexes of connections that a thread has. -/
def holds : ConnPlace → ConnMutex → Bool
  | gotPdu c, l | adding c, l | added c, l | refused c _, l => l = .conn c
  | last c, l => l = .refs c
  | refusedLast c, l => l = .conn c || l = .refs c
  | entering, _ | between, _ | called .., _ | sending _, _ => false

def wants : ConnPlace → Option ConnMutex
  | entering => some .users
  | called .incref c | called .decref c | called .ref c => some (.refs c)
  | called .isdead c | called .closeconn c | called .send c | called .writeCb c
  | called .readCb c => some (.conn c)
  | last c | refusedLast c => some (.conn c)
  | gotPdu c | refused c _ => some (.refs c)
  | between | sending _ | adding _ | added _ => none

/-- The thread has taken a reference, or is about to give up its own. -/
def owns (c : Nat) : ConnPlace → Bool
  | called .decref d | adding d | refused d true => d = c
  | _ => false

end ConnPlace

structure ConnThread where
  /-- it has the mutex of the users -/
  users : Bool
  place : ConnPlace
  deriving DecidableEq

def ConnThread.holds (t : ConnThread) (l : ConnMutex) : Bool :=
  t.users && l = .users || t.place.holds l

/-- Every connection starts as its constructor leaves it. -/
structure ConnLocks where
  refno : Nat → Nat := fun _ => 1
  dead : Nat → Bool := fun _ => false
  /-- history: the reference of the listener or of `chan_` was not given up -/
  listed : Nat → Bool := fun _ => true
  /-- history: the references of the jobs, of the threads and of `rpcs::conns_` -/
  spare : Nat → Nat := fun _ => 0
  reachable : Bool := true
  threads : Holders Nat ConnThread := .empty

namespace ConnLocks

/-- What a function finds, or does, that is left open. -/
inductive Outcome
  | done
  /-- reading or writing failed -/
  | failed
  /-- `send` waits -/
  | waits
  /-- a PDU is complete -/
  | pdu
  deriving DecidableEq

inductive Action
  | enter (t : Nat)
  | leave (t : Nat)
  | call (t : Nat) (f : ConnCall) (c : Nat)
  /-- the reference of the listener, or of `chan_`, is given up -/
  | unlist (t : Nat) (c : Nat)
  /-- a thread goes on until it needs another mutex, or until it returns -/
  | go (t : Nat) (outcome : Outcome)
  | setReachable (r : Bool)
  deriving DecidableEq

def Free (s : ConnLocks) (l : ConnMutex) : Prop :=
  ∀ t ∈ s.threads.keys, (s.threads.held t).any (·.holds l) = false

instance (s : ConnLocks) (l : ConnMutex) : Decidable (s.Free l) :=
  inferInstanceAs (Decidable (∀ t ∈ s.threads.keys, _))

def goto (s : ConnLocks) (t : Nat) (thread : ConnThread) (place : ConnPlace) : ConnLocks :=
  { s with threads := s.threads.set t (some { thread with place }) }

/-- The function returns. -/
def done (s : ConnLocks) (t : Nat) (thread : ConnThread) : ConnLocks :=
  if thread.users then s.goto t thread .between else { s with threads := s.threads.set t none }

def die (s : ConnLocks) (c : Nat) : ConnLocks :=
  { s with dead := Function.update s.dead c true }

/-- `decref` with `ref_m_`; `last` is where it goes when it gave up the last reference. -/
def drop (s : ConnLocks) (t : Nat) (thread : ConnThread) (c : Nat) (last : ConnPlace) :
    Option ConnLocks :=
  if s.refno c = 0 then
    none
  else
    let s := { s with refno := Function.update s.refno c (s.refno c - 1) }
    some (if s.refno c = 0 then s.goto t thread last else s.done t thread)

/-- The section of a function that begins with its first mutex. -/
def first (s : ConnLocks) (t : Nat) (thread : ConnThread) (c : Nat) (outcome : Outcome) :
    ConnCall → Option ConnLocks
  | .incref =>
      some ({ s with
        refno := Function.update s.refno c (s.refno c + 1)
        spare := Function.update s.spare c (s.spare c + 1) }.done t thread)
  | .decref => s.drop t thread c (.last c)
  | .ref | .isdead => some (s.done t thread)
  | .closeconn => some ((s.die c).done t thread)
  | .send =>
      if s.dead c then
        some (s.done t thread)
      else
        match outcome with
        | .failed => some ((s.die c).goto t thread (.sending c))
        | .waits => some (s.goto t thread (.sending c))
        | _ => some (s.done t thread)
  | .writeCb =>
      if s.dead c then
        none
      else if outcome = .failed then
        some ((s.die c).done t thread)
      else
        some (s.done t thread)
  | .readCb =>
      if s.dead c then
        some (s.done t thread)
      else
        match outcome with
        | .failed => some ((s.die c).done t thread)
        | .pdu => some (if s.reachable then s.goto t thread (.gotPdu c) else s.done t thread)
        | _ => some (s.done t thread)

/-- What a thread does when it has the mutex it waits for. -/
def advance (s : ConnLocks) (t : Nat) (thread : ConnThread) (outcome : Outcome) :
    Option ConnLocks :=
  match thread.place with
  | .entering => some (s.goto t { thread with users := true } .between)
  | .between => none
  | .called f c => s.first t thread c outcome f
  | .last _ | .refusedLast _ =>
      -- a dead connection is deleted
      some (s.done t thread)
  | .sending c => some (s.goto t thread (.called .send c))
  | .gotPdu c =>
      some ({ s with refno := Function.update s.refno c (s.refno c + 1) }.goto t thread (.adding c))
  | .adding c =>
      if outcome = .failed then
        some (s.goto t thread (.refused c true))
      else
        let s := { s with spare := Function.update s.spare c (s.spare c + 1) }
        some (s.goto t thread (.added c))
  | .added c => some (if s.reachable then s.done t thread else s.goto t thread (.refused c false))
  | .refused c _ => s.drop t thread c (.refusedLast c)

/-- Where a thread calls from: from outside, or with the mutex of the users. -/
def caller (s : ConnLocks) (t : Nat) : Option ConnThread :=
  match s.threads.held t with
  | none => some { users := false, place := .between }
  | some thread => if thread.place = .between then some thread else none

def step (s : ConnLocks) : Action → Option ConnLocks
  | .enter t =>
      if s.threads.held t = none then
        some (s.goto t { users := false, place := .between } .entering)
      else
        none
  | .leave t =>
      if s.threads.held t = some { users := true, place := .between } then
        some { s with threads := s.threads.set t none }
      else
        none
  | .call t f c =>
      (s.caller t).bind fun thread =>
        match f with
        | .decref =>
            if s.spare c = 0 then
              none
            else
              some ({ s with spare := Function.update s.spare c (s.spare c - 1) }.goto t thread
                (.called .decref c))
        | _ => some (s.goto t thread (.called f c))
  | .unlist t c =>
      (s.caller t).bind fun thread =>
        if s.listed c = true ∧ s.dead c = true then
          some ({ s with listed := Function.update s.listed c false }.goto t thread
            (.called .decref c))
        else
          none
  | .go t outcome =>
      (s.threads.held t).bind fun thread =>
        if ∀ l, thread.place.wants = some l → s.Free l then s.advance t thread outcome else none
  | .setReachable r => some { s with reachable := r }

def machine : Machine ConnLocks Action where
  initial := {}
  step := step

/-! ## Who waits for whom -/

def mutexes (s : ConnLocks) : Mutexes Nat ConnMutex where
  holds t l := ∃ thread, s.threads.held t = some thread ∧ thread.holds l = true
  wants t := (s.threads.held t).bind fun thread => thread.place.wants

/-- The two mutexes of a connection change their order when it dies. -/
def rank (dead : Nat → Bool) : ConnMutex → Nat
  | .users => 0
  | .conn c => if dead c then 2 else 1
  | .refs c => if dead c then 1 else 2

/-- `got_pdu` runs for live connections, and the last reference is that of a dead one. -/
def Proper (dead : Nat → Bool) : ConnPlace → Prop
  | .gotPdu c | .adding c | .added c | .refused c true => dead c = false
  | .last c => dead c = true
  | .refused _ false | .refusedLast _ => False
  | .entering | .between | .called .. | .sending _ => True

structure Inv (s : ConnLocks) : Prop where
  reachable : s.reachable = true
  counted : ∀ c, s.refno c =
    (s.listed c).toNat + s.spare c + s.threads.tally fun thread => thread.place.owns c
  listed : ∀ c, s.dead c = false → s.listed c = true
  proper : ∀ t thread, s.threads.held t = some thread → Proper s.dead thread.place
  outside : ∀ t thread, s.threads.held t = some thread → thread.place = .entering →
    thread.users = false

variable {s next : ConnLocks} {t c : Nat} {thread : ConnThread}

/-- Each thread waits for a mutex of a higher rank than those it has. -/
theorem Inv.ordered (inv : Inv s) : s.mutexes.Ordered (rank s.dead) := by
  intro t l l' held wanted
  rcases held with ⟨thread, found, holds⟩
  rcases Option.bind_eq_some_iff.mp wanted with ⟨_, again, wants⟩
  cases found.symm.trans again
  have proper := inv.proper t thread found
  unfold ConnThread.holds at holds
  rw [Bool.or_eq_true] at holds
  rcases holds with users | holds
  · -- the mutex of the users comes first
    rw [Bool.and_eq_true, decide_eq_true_eq] at users
    rcases users with ⟨users, rfl⟩
    cases l' with
    | users =>
        have entering : thread.place = .entering := by
          cases place : thread.place with
          | entering => rfl
          | called f => cases f <;> simp [place, ConnPlace.wants] at wants
          | _ => simp [place, ConnPlace.wants] at wants
        rw [inv.outside t thread found entering] at users
        contradiction
    | conn c | refs c =>
        simp only [rank]
        split <;> decide
  · cases place : thread.place with
    | entering | between | called | sending =>
        rw [place] at holds
        contradiction
    | adding | added =>
        rw [place] at wants
        contradiction
    | gotPdu c =>
        rw [place] at holds wants proper
        cases of_decide_eq_true holds
        cases wants
        have alive : s.dead c = false := proper
        simp [rank, alive]
    | refused c own =>
        rw [place] at holds wants proper
        cases of_decide_eq_true holds
        cases wants
        cases own with
        | false => contradiction
        | true =>
            have alive : s.dead c = false := proper
            simp [rank, alive]
    | last c =>
        rw [place] at holds wants proper
        cases of_decide_eq_true holds
        cases wants
        have dead : s.dead c = true := proper
        simp [rank, dead]
    | refusedLast =>
        rw [place] at proper
        contradiction

/-! ## A step -/

theorem Proper.die {dead : Nat → Bool} {place : ConnPlace} (proper : Proper dead place)
    (unlocked : place.holds (.conn c) = false) : Proper (Function.update dead c true) place := by
  have other {d : Nat} (alive : dead d = false)
      (apart : decide (ConnMutex.conn c = .conn d) = false) :
      Function.update dead c true d = false := by
    have differs : d ≠ c := fun same => of_decide_eq_false apart (same ▸ rfl)
    rw [Function.update_of_ne differs, alive]
  cases place with
  | entering | between | called | sending => trivial
  | gotPdu | adding | added => exact other proper unlocked
  | refused d own =>
      cases own with
      | false => contradiction
      | true => exact other proper unlocked
  | last d =>
      have dead : dead d = true := proper
      by_cases here : d = c
      · exact here ▸ Function.update_self ..
      · exact (Function.update_of_ne here _ _).trans dead
  | refusedLast => contradiction

theorem Free.place (free : s.Free l) (found : s.threads.held t = some thread) :
    thread.place.holds l = false := by
  have member : t ∈ s.threads.keys := (s.threads.mem_keys t).mpr (by simp [found])
  have none := free t member
  rw [found, Option.any_some, ConnThread.holds, Bool.or_eq_false_iff] at none
  exact none.2

/-- A connection dies while nobody has its `m_`. -/
theorem Inv.die (inv : Inv s) (free : s.Free (.conn c)) : Inv (s.die c) where
  reachable := inv.reachable
  counted := inv.counted
  listed d alive := by
    apply inv.listed
    change Function.update s.dead c true d = false at alive
    by_cases here : d = c
    · rw [here, Function.update_self] at alive
      contradiction
    · rwa [Function.update_of_ne here] at alive
  proper t thread found := (inv.proper t thread found).die (free.place found)
  outside := inv.outside

/-- The references are counted, wherever they are. -/
theorem Inv.moved (inv : Inv s) {v : Option ConnThread} {refno spare : Nat → Nat}
    {listed : Nat → Bool} (owned : ∀ d, s.dead d = false → listed d = true)
    (proper : ∀ thread, v = some thread →
      Proper s.dead thread.place ∧ (thread.place = .entering → thread.users = false))
    (counted : ∀ d, refno d + (s.listed d).toNat + s.spare d +
        ((s.threads.held t).any fun thread => thread.place.owns d).toNat =
      s.refno d + (listed d).toNat + spare d +
        (v.any fun thread => thread.place.owns d).toNat) :
    Inv { s with refno, spare, listed, threads := s.threads.set t v } where
  reachable := inv.reachable
  counted d := by
    have before := inv.counted d
    have tally := s.threads.tally_set t v fun thread => thread.place.owns d
    have change := counted d
    dsimp only
    omega
  listed := owned
  proper u thread found := by
    rcases Holders.held_set found with ⟨_, here⟩ | ⟨_, there⟩
    · exact (proper thread here).1
    · exact inv.proper u thread there
  outside u thread found := by
    rcases Holders.held_set found with ⟨_, here⟩ | ⟨_, there⟩
    · exact (proper thread here).2
    · exact inv.outside u thread there

/-- A function returns to where it was called from. -/
def ConnThread.returned (thread : ConnThread) : Option ConnThread :=
  if thread.users then some { thread with place := .between } else none

theorem done_eq (s : ConnLocks) (t : Nat) (thread : ConnThread) :
    s.done t thread = { s with threads := s.threads.set t (ConnThread.returned thread) } := by
  unfold done ConnThread.returned
  split <;> rfl

theorem returned_proper {dead : Nat → Bool} {after : ConnThread}
    (returned : ConnThread.returned thread = some after) :
    Proper dead after.place ∧ (after.place = .entering → after.users = false) := by
  unfold ConnThread.returned at returned
  split at returned
  · cases returned
    constructor
    · trivial
    · intro entering
      contradiction
  · contradiction

theorem returned_owns (thread : ConnThread) (d : Nat) :
    ((ConnThread.returned thread).any fun thread => thread.place.owns d) = false := by
  unfold ConnThread.returned
  split <;> rfl

/-- A thread that has no reference in hand returns. -/
theorem Inv.done (inv : Inv s) (found : s.threads.held t = some thread)
    (bare : ∀ d, thread.place.owns d = false) : Inv (s.done t thread) := by
  rw [done_eq]
  apply inv.moved inv.listed
  · exact fun _ returned => returned_proper returned
  · intro d
    rw [found, Option.any_some, bare d, returned_owns]

/-- A thread that has no reference in hand goes to where it needs none. -/
theorem Inv.goto (inv : Inv s) {place : ConnPlace} (found : s.threads.held t = some thread)
    (bare : ∀ d, thread.place.owns d = false) (proper : Proper s.dead place)
    (inside : place ≠ .entering) (after : ∀ d, place.owns d = false) :
    Inv (s.goto t thread place) := by
  apply inv.moved inv.listed
  · intro _ same
    cases same
    exact ⟨proper, fun entering => absurd entering inside⟩
  · intro d
    rw [found, Option.any_some, Option.any_some, bare d, after d]

/-- The last reference is given up when the connection is dead. -/
theorem Inv.drop (inv : Inv s) {last : ConnPlace} (found : s.threads.held t = some thread)
    (owns : ∀ d, thread.place.owns d = decide (d = c))
    (proper : s.dead c = true → Proper s.dead last)
    (inside : last ≠ .entering) (after : ∀ d, last.owns d = false)
    (taken : s.drop t thread c last = some next) : Inv next := by
  unfold ConnLocks.drop at taken
  split at taken
  · contradiction
  · next some =>
      cases taken
      have counted (d : Nat) : Function.update s.refno c (s.refno c - 1) d + (s.listed d).toNat +
          s.spare d + (decide (d = c)).toNat = s.refno d + (s.listed d).toNat + s.spare d := by
        by_cases here : d = c
        · subst here
          simp only [Function.update_self, decide_true, Bool.toNat_true]
          omega
        · simp [here]
      split
      · next empty =>
          change Function.update s.refno c (s.refno c - 1) c = 0 at empty
          rw [Function.update_self] at empty
          have unlisted : s.listed c = false := by
            have before := inv.counted c
            have own : s.threads.tally (fun thread => thread.place.owns c) ≠ 0 :=
              Holders.tally_pos found ((owns c).trans (decide_eq_true rfl))
            by_contra listed
            rw [Bool.not_eq_false] at listed
            rw [listed, Bool.toNat_true] at before
            omega
          have dead : s.dead c = true := by
            by_contra alive
            rw [Bool.not_eq_true] at alive
            exact Bool.false_ne_true (unlisted.symm.trans (inv.listed c alive))
          apply inv.moved inv.listed
          · intro _ same
            cases same
            exact ⟨proper dead, fun entering => absurd entering inside⟩
          · intro d
            rw [found, Option.any_some, Option.any_some, owns d, after d]
            exact counted d
      · rw [done_eq]
        apply inv.moved inv.listed
        · exact fun _ returned => returned_proper returned
        · intro d
          rw [found, Option.any_some, owns d, returned_owns]
          exact counted d

/-- The section of a function that begins with its first mutex. -/
theorem Inv.first (inv : Inv s) {f : ConnCall} {outcome : Outcome}
    (found : s.threads.held t = some thread) (place : thread.place = .called f c)
    (free : ∀ l, thread.place.wants = some l → s.Free l)
    (taken : s.first t thread c outcome f = some next) : Inv next := by
  have bare (other : f ≠ .decref) (d : Nat) : thread.place.owns d = false := by
    rw [place]
    cases f <;> first | rfl | contradiction
  cases f with
  | incref =>
      cases taken
      rw [done_eq]
      apply inv.moved inv.listed
      · exact fun _ returned => returned_proper returned
      · intro d
        rw [found, Option.any_some, bare (by simp) d, returned_owns]
        by_cases here : d = c
        · subst here
          simp only [Function.update_self]
          omega
        · simp [here]
  | decref =>
      have owns (d : Nat) : thread.place.owns d = decide (d = c) := by
        rw [place]
        exact decide_eq_decide.mpr eq_comm
      have last (dead : s.dead c = true) : Proper s.dead (.last c) := dead
      exact inv.drop found owns last (by simp) (fun _ => rfl) taken
  | ref | isdead =>
      cases taken
      exact inv.done found (bare (by simp))
  | closeconn =>
      cases taken
      have unlocked : s.Free (.conn c) := free _ (by rw [place]; rfl)
      exact (inv.die unlocked).done found (bare (by simp))
  | send =>
      have unlocked : s.Free (.conn c) := free _ (by rw [place]; rfl)
      simp only [ConnLocks.first] at taken
      split at taken
      · cases taken
        exact inv.done found (bare (by simp))
      · cases outcome with
        | done | pdu =>
            cases taken
            exact inv.done found (bare (by simp))
        | waits =>
            cases taken
            exact inv.goto found (bare (by simp)) trivial (by simp) (fun _ => rfl)
        | failed =>
            cases taken
            exact (inv.die unlocked).goto found (bare (by simp)) trivial (by simp) (fun _ => rfl)
  | writeCb =>
      have unlocked : s.Free (.conn c) := free _ (by rw [place]; rfl)
      simp only [ConnLocks.first] at taken
      split at taken
      · contradiction
      · split at taken
        · cases taken
          exact (inv.die unlocked).done found (bare (by simp))
        · cases taken
          exact inv.done found (bare (by simp))
  | readCb =>
      have unlocked : s.Free (.conn c) := free _ (by rw [place]; rfl)
      simp only [ConnLocks.first] at taken
      split at taken
      · cases taken
        exact inv.done found (bare (by simp))
      · next alive =>
          rw [Bool.not_eq_true] at alive
          cases outcome with
          | done | waits =>
              cases taken
              exact inv.done found (bare (by simp))
          | failed =>
              cases taken
              exact (inv.die unlocked).done found (bare (by simp))
          | pdu =>
              cases taken
              split
              · exact inv.goto found (bare (by simp)) alive (by simp) (fun _ => rfl)
              · exact inv.done found (bare (by simp))

theorem Inv.advance (inv : Inv s) {outcome : Outcome} (found : s.threads.held t = some thread)
    (free : ∀ l, thread.place.wants = some l → s.Free l)
    (taken : s.advance t thread outcome = some next) : Inv next := by
  have proper := inv.proper t thread found
  unfold ConnLocks.advance at taken
  cases place : thread.place with
  | entering =>
      rw [place] at taken
      cases taken
      apply inv.moved inv.listed
      · intro _ same
        cases same
        exact ⟨trivial, fun entering => nomatch entering⟩
      · intro d
        rw [found, Option.any_some, Option.any_some, place]
        rfl
  | between =>
      rw [place] at taken
      contradiction
  | called f c =>
      rw [place] at taken
      exact inv.first found place free taken
  | last c =>
      rw [place] at taken
      cases taken
      exact inv.done found (fun d => by rw [place]; rfl)
  | sending c =>
      rw [place] at taken
      cases taken
      exact inv.goto found (fun d => by rw [place]; rfl) trivial (by simp) (fun _ => rfl)
  | gotPdu c =>
      rw [place] at taken proper
      cases taken
      apply inv.moved inv.listed
      · intro _ same
        cases same
        exact ⟨proper, fun entering => nomatch entering⟩
      · intro d
        rw [found, Option.any_some, Option.any_some, place]
        by_cases here : d = c
        · subst here
          simp [ConnPlace.owns]
          omega
        · simp [ConnPlace.owns, here, Ne.symm here]
  | adding c =>
      rw [place] at taken proper
      dsimp only at taken
      have owns (d : Nat) : thread.place.owns d = decide (c = d) := by rw [place]; rfl
      split at taken
      · cases taken
        apply inv.moved inv.listed
        · intro _ same
          cases same
          exact ⟨proper, fun entering => nomatch entering⟩
        · intro d
          rw [found, Option.any_some, Option.any_some, owns d]
          rfl
      · cases taken
        apply inv.moved inv.listed
        · intro _ same
          cases same
          exact ⟨proper, fun entering => nomatch entering⟩
        · intro d
          rw [found, Option.any_some, Option.any_some, owns d]
          by_cases here : d = c
          · subst here
            simp [ConnPlace.owns]
            omega
          · simp [ConnPlace.owns, here, Ne.symm here]
  | added c =>
      rw [place] at taken
      dsimp only at taken
      rw [if_pos inv.reachable] at taken
      cases taken
      exact inv.done found (fun d => by rw [place]; rfl)
  | refused c own =>
      rw [place] at taken proper
      cases own with
      | false => contradiction
      | true =>
          have alive : s.dead c = false := proper
          have owns (d : Nat) : thread.place.owns d = decide (d = c) := by
            rw [place]
            exact decide_eq_decide.mpr eq_comm
          -- the reference that the listener has is not given up yet
          have impossible (dead : s.dead c = true) : Proper s.dead (.refusedLast c) :=
            Bool.false_ne_true (alive.symm.trans dead)
          exact inv.drop found owns impossible (by simp) (fun _ => rfl) taken
  | refusedLast c =>
      rw [place] at proper
      contradiction

theorem caller_outside {thread : ConnThread} (caller : s.caller t = some thread) (d : Nat) :
    ((s.threads.held t).any fun thread => thread.place.owns d) = false := by
  unfold ConnLocks.caller at caller
  split at caller
  · next none => rw [none]; rfl
  · next found =>
      rw [found]
      split at caller
      · next between =>
          rw [Option.any_some, between]
          rfl
      · contradiction

/-- `set_reachable(false)` is not called. -/
def StaysReachable (_ : ConnLocks) (action : Action) : Prop :=
  action ≠ .setReachable false

theorem Inv.step (inv : Inv s) {action : Action} (stays : StaysReachable s action)
    (taken : s.step action = some next) : Inv next := by
  cases action with
  | enter t =>
      simp only [ConnLocks.step] at taken
      split at taken
      · next outside =>
          cases taken
          apply inv.moved inv.listed
          · intro _ same
            cases same
            exact ⟨trivial, fun _ => rfl⟩
          · intro d
            rw [outside]
            rfl
      · contradiction
  | leave t =>
      simp only [ConnLocks.step] at taken
      split at taken
      · next between =>
          cases taken
          apply inv.moved inv.listed
          · intro _ same
            contradiction
          · intro d
            rw [between]
            rfl
      · contradiction
  | call t f c =>
      rcases Option.bind_eq_some_iff.mp taken with ⟨thread, caller, called⟩
      have goto (other : f ≠ .decref) : Inv (s.goto t thread (.called f c)) := by
        apply inv.moved inv.listed
        · intro _ same
          cases same
          exact ⟨trivial, fun entering => nomatch entering⟩
        · intro d
          rw [caller_outside caller d, Option.any_some]
          cases f <;> first | rfl | contradiction
      cases f with
      | decref =>
          dsimp only at called
          split at called
          · contradiction
          · next some =>
              cases called
              apply inv.moved inv.listed
              · intro _ same
                cases same
                exact ⟨trivial, fun entering => nomatch entering⟩
              · intro d
                rw [caller_outside caller d, Option.any_some]
                by_cases here : d = c
                · subst here
                  simp [ConnPlace.owns]
                  omega
                · simp [ConnPlace.owns, here, Ne.symm here]
      | incref | ref | isdead | closeconn | send | writeCb | readCb =>
          cases called
          exact goto (by simp)
  | unlist t c =>
      rcases Option.bind_eq_some_iff.mp taken with ⟨thread, caller, unlisted⟩
      split at unlisted
      · next last =>
          cases unlisted
          apply inv.moved
          · intro d alive
            by_cases here : d = c
            · subst here
              exact absurd (alive.symm.trans last.2) Bool.false_ne_true
            · exact (Function.update_of_ne here _ _).trans (inv.listed d alive)
          · intro _ same
            cases same
            exact ⟨trivial, fun entering => nomatch entering⟩
          · intro d
            rw [caller_outside caller d, Option.any_some]
            by_cases here : d = c
            · subst here
              simp [ConnPlace.owns, last.1]
              omega
            · simp [ConnPlace.owns, here, Ne.symm here]
      · contradiction
  | go t outcome =>
      rcases Option.bind_eq_some_iff.mp taken with ⟨thread, found, went⟩
      split at went
      · next free => exact inv.advance found free went
      · contradiction
  | setReachable r =>
      cases taken
      cases r with
      | false => exact absurd rfl stays
      | true => exact ⟨rfl, inv.counted, inv.listed, inv.proper, inv.outside⟩

theorem inv_initial : Inv {} where
  reachable := rfl
  counted _ := rfl
  listed _ _ := rfl
  proper _ _ found := nomatch found
  outside _ _ found := nomatch found

theorem rank_le (dead : Nat → Bool) (l : ConnMutex) : rank dead l ≤ 2 := by
  cases l with
  | users => exact Nat.zero_le 2
  | conn c | refs c =>
      simp only [rank]
      split <;> decide

/-- The threads never wait for each other, nor a thread for itself: whoever waits for a mutex,
waits in the end for a thread that can go on. -/
theorem never_deadlocked (reachable : machine.ReachableUnder StaysReachable s) (t : Nat) :
    ¬ Relation.TransGen s.mutexes.WaitsFor t t ∧
      ∃ u, Relation.ReflTransGen s.mutexes.WaitsFor t u ∧ ¬ s.mutexes.Blocked u := by
  have inv := reachable.invariant Inv inv_initial fun _ _ _ _ inv stays taken =>
    inv.step stays taken
  have ordered := inv.ordered
  constructor
  · exact ordered.acyclic t
  · exact ordered.goes_on (rank_le s.dead) t

/-- The listener asks for `isdead` while a PDU arrives. -/
def askedEarly : List Action :=
  [.call 0 .readCb 0, .go 0 .pdu, .call 1 .isdead 0]

theorem never_deadlocked_askedEarly :
    ∃ s, machine.ReachableUnder StaysReachable s ∧ s.mutexes.WaitsFor 1 0 ∧
      ¬ Relation.TransGen s.mutexes.WaitsFor 1 1 ∧
      ∃ u, Relation.ReflTransGen s.mutexes.WaitsFor 1 u ∧ ¬ s.mutexes.Blocked u := by
  have run : (machine.run machine.initial askedEarly).map
      (fun s => (s.threads.held 0, s.threads.held 1)) =
      some (some ⟨false, .gotPdu 0⟩, some ⟨false, .called .isdead 0⟩) := by decide +kernel
  rcases Option.map_eq_some_iff.mp run with ⟨s, taken, threads⟩
  rcases Prod.mk.inj threads with ⟨first, second⟩
  have reachable : machine.ReachableUnder StaysReachable s := by
    apply Machine.ReachableUnder.initial.run _ taken
    intro action member _
    have calls : ∀ action ∈ askedEarly, action ≠ .setReachable false := by decide
    exact calls action member
  have waits : s.mutexes.WaitsFor 1 0 := by
    refine ⟨.conn 0, ?_, _, first, rfl⟩
    simp only [mutexes, second]
    rfl
  exact ⟨s, reachable, waits, never_deadlocked reachable 1⟩

/-- Between two PDUs the server becomes unreachable for a moment, and `got_pdu` gives up the
reference of the job. -/
def unreachableMoment : List Action :=
  [.call 0 .readCb 0, .go 0 .pdu, .go 0 .done, .go 0 .done, .setReachable false, .go 0 .done,
    .go 0 .done, .setReachable true, .call 0 .readCb 0, .go 0 .pdu, .call 1 .decref 0, .go 1 .done]

/-- The job gives up the last reference of a connection that is not dead, and `read_cb` and
`decref` wait for each other. -/
theorem unreachableMoment_deadlocks :
    ∃ s, machine.Reachable s ∧ Relation.TransGen s.mutexes.WaitsFor 0 0 := by
  have run : (machine.run machine.initial unreachableMoment).map
      (fun s => (s.threads.held 0, s.threads.held 1)) =
      some (some ⟨false, .gotPdu 0⟩, some ⟨false, .last 0⟩) := by decide +kernel
  rcases Option.map_eq_some_iff.mp run with ⟨s, taken, threads⟩
  rcases Prod.mk.inj threads with ⟨first, second⟩
  have loop : s.mutexes.WaitsFor 0 1 := by
    refine ⟨.refs 0, ?_, _, second, rfl⟩
    simp only [mutexes, first]
    rfl
  have job : s.mutexes.WaitsFor 1 0 := by
    refine ⟨.conn 0, ?_, _, first, rfl⟩
    simp only [mutexes, second]
    rfl
  exact ⟨s, Machine.reachable_of_run taken, .tail (.single loop) job⟩

end ConnLocks

end YfsRpc.Rpc
