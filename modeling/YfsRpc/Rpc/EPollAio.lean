import Mathlib.Data.BitVec
import YfsRpc.Foundation.Component
import YfsRpc.Rpc.SelectScan

/-! # The two back ends of the poll manager

`SelectAIO` keeps two sets of descriptors, and `EPollAIO` an array of flags beside the
interest list of the kernel. Both answer the calls of `aio_mgr`, and both do what a
table of the watched directions says, except for `is_watched`: `EPollAIO` looks at the
bits of a flag that no direction uses.
-/

namespace YfsRpc.Rpc

def AnyFlag.bits : AnyFlag → BitVec 32
  | .none => 0x0
  | .rdonly => 0x1
  | .wronly => 0x10
  | .rdwr => 0x11
  | .mask => ~~~0x11

/-! ## `EPollAIO` -/

def epollin : BitVec 32 := 0x1
def epollout : BitVec 32 := 0x4
def epollet : BitVec 32 := 0x80000000

inductive EpollOp
  | add
  | mod
  | del
  deriving DecidableEq

/-- What a descriptor is registered for in an interest list. -/
abbrev Registered := Nat → Option (BitVec 32)

/-- A descriptor is added once, and changed or deleted when it is there. -/
def epollCtl (registered : Registered) (op : EpollOp) (fd : Nat) (events : BitVec 32) :
    Option Registered :=
  match op, registered fd with
  | .add, none => some (Function.update registered fd (some events))
  | .mod, some _ => some (Function.update registered fd (some events))
  | .del, some _ => some (Function.update registered fd none)
  | _, _ => none

section

variable {registered : Registered} {fd : Nat} {events old : BitVec 32}

theorem epollCtl_add (absent : registered fd = none) :
    epollCtl registered .add fd events = some (Function.update registered fd (some events)) := by
  unfold epollCtl
  rw [absent]

theorem epollCtl_mod (present : registered fd = some old) :
    epollCtl registered .mod fd events = some (Function.update registered fd (some events)) := by
  unfold epollCtl
  rw [present]

theorem epollCtl_del (present : registered fd = some old) :
    epollCtl registered .del fd events = some (Function.update registered fd none) := by
  unfold epollCtl
  rw [present]

end

structure EPollAio where
  fdstatus : Nat → BitVec 32
  /-- the interest list of `pollfd_` -/
  registered : Registered

namespace EPollAio

/-- The constructor. -/
def init : EPollAio where
  fdstatus _ := 0
  registered _ := none

/-- `ev.events`, as `watch_fd` and `unwatch_fd` build it. -/
def events (status : BitVec 32) : BitVec 32 :=
  let events := epollet
  let events := if status &&& AnyFlag.rdonly.bits ≠ 0 then events ||| epollin else events
  if status &&& AnyFlag.wronly.bits ≠ 0 then events ||| epollout else events

/-- `op` in `watch_fd`. -/
def watchOp (status : BitVec 32) : EpollOp := if status ≠ 0 then .mod else .add

/-- `op` in `unwatch_fd`. -/
def unwatchOp (status : BitVec 32) : EpollOp := if status ≠ 0 then .mod else .del

/-- A failed assertion has no result. -/
def watchFd (aio : EPollAio) (fd : Nat) (flag : AnyFlag) : Option EPollAio :=
  if fd < maxPollFds then
    let op := watchOp (aio.fdstatus fd)
    let status := aio.fdstatus fd ||| flag.bits
    if flag = .rdwr ∧ events status ≠ epollet ||| epollin ||| epollout then
      none
    else
      (epollCtl aio.registered op fd (events status)).map fun registered =>
        { fdstatus := Function.update aio.fdstatus fd status, registered := registered }
  else
    none

def unwatchFd (aio : EPollAio) (fd : Nat) (flag : AnyFlag) : Option (EPollAio × Bool) :=
  if fd < maxPollFds then
    let status := aio.fdstatus fd &&& ~~~flag.bits
    let op := unwatchOp status
    if flag = .rdwr ∧ op ≠ .del then
      none
    else
      (epollCtl aio.registered op fd (events status)).map fun registered =>
        ({ fdstatus := Function.update aio.fdstatus fd status, registered := registered },
          decide (op = .del))
  else
    none

def isWatched (aio : EPollAio) (fd : Nat) (flag : AnyFlag) : Option Bool :=
  if fd < maxPollFds then
    some (decide (aio.fdstatus fd &&& AnyFlag.mask.bits = flag.bits))
  else
    none

/-- `unwatch_fd` answers, and `watch_fd` does not. -/
def component : Component EPollAio AioCall (Option Bool) where
  initial := init
  call aio
    | .watch fd flag => (aio.watchFd fd flag).map fun aio => (aio, none)
    | .unwatch fd flag => (aio.unwatchFd fd flag).map fun (aio, gone) => (aio, some gone)

end EPollAio

/-! ## `SelectAIO` -/

namespace SelectAio

def isWatched (aio : SelectAio) (fd : Nat) : AnyFlag → Bool
  | .rdonly => fd ∈ aio.rfds
  | .wronly => fd ∈ aio.wfds
  | _ => fd ∈ aio.rfds ∧ fd ∈ aio.wfds

def component (pipefd : Nat) : Component SelectAio AioCall (Option Bool) where
  initial := init pipefd
  call aio
    | .watch fd flag =>
        if fd < fdSetsize then some (aio.watchFd fd flag.watches, none) else none
    | .unwatch fd flag =>
        if fd < fdSetsize then
          flag.unwatches.map fun flag =>
            let (aio, gone) := aio.unwatchFd fd flag
            (aio, some gone)
        else
          none

end SelectAio

/-! ## What is watched -/

/-- The flags that name directions. -/
def PollFlag.any : PollFlag → AnyFlag
  | .rdonly => .rdonly
  | .wronly => .wronly
  | .rdwr => .rdwr

theorem AnyFlag.unwatches_eq_some {any : AnyFlag} {flag : PollFlag} :
    any.unwatches = some flag ↔ any = flag.any := by
  cases any <;> cases flag <;> decide

/-- The directions in which a descriptor is watched. -/
structure Interest where
  reads : Bool
  writes : Bool
  deriving DecidableEq

namespace Interest

def nothing : Interest where
  reads := false
  writes := false

def watch (interest : Interest) (flag : PollFlag) : Interest where
  reads := interest.reads || flag.reads
  writes := interest.writes || flag.writes

def unwatch (interest : Interest) (flag : PollFlag) : Interest where
  reads := interest.reads && !flag.reads
  writes := interest.writes && !flag.writes

def includes (interest : Interest) (flag : PollFlag) : Bool :=
  (interest.reads || !flag.reads) && (interest.writes || !flag.writes)

theorem eq_nothing_iff (interest : Interest) :
    interest = nothing ↔ ∀ flag, interest.includes flag = false := by
  rcases interest with ⟨reads, writes⟩
  constructor
  · intro same flag
    rw [same]
    cases flag <;> rfl
  · intro none
    have read := none .rdonly
    have write := none .wronly
    simp only [includes, PollFlag.reads, PollFlag.writes] at read write
    cases reads <;> cases writes <;> simp_all [nothing]

end Interest

/-- A descriptor that both back ends can watch. -/
def Watchable (pipefd fd : Nat) : Prop := fd < maxPollFds ∧ fd ≠ pipefd

instance (pipefd fd : Nat) : Decidable (Watchable pipefd fd) :=
  inferInstanceAs (Decidable (_ ∧ _))

/-- The calls that name directions, and unwatch what is watched. -/
def watches (pipefd : Nat) : Component (Nat → Interest) AioCall (Option Bool) where
  initial _ := .nothing
  call table
    | .watch fd flag =>
        if Watchable pipefd fd then
          flag.unwatches.map fun flag =>
            (Function.update table fd ((table fd).watch flag), none)
        else
          none
    | .unwatch fd flag =>
        if Watchable pipefd fd ∧ table fd ≠ .nothing then
          flag.unwatches.map fun flag =>
            let left := (table fd).unwatch flag
            (Function.update table fd left, some (decide (left = .nothing)))
        else
          none

/-- What the specification allows: the flag names directions, and the table changes in
one place. -/
theorem watches_call {pipefd : Nat} {table after : Nat → Interest} {call : AioCall}
    {answer : Option Bool} (answered : (watches pipefd).call table call = some (after, answer)) :
    ∃ fd flag, Watchable pipefd fd ∧
      ((call = .watch fd (PollFlag.any flag) ∧ answer = none ∧
          after = Function.update table fd ((table fd).watch flag)) ∨
        (call = .unwatch fd (PollFlag.any flag) ∧ table fd ≠ .nothing ∧
          answer = some (decide ((table fd).unwatch flag = .nothing)) ∧
          after = Function.update table fd ((table fd).unwatch flag))) := by
  cases call with
  | watch fd any =>
      simp only [watches] at answered
      split at answered
      · next watchable =>
          rcases Option.map_eq_some_iff.mp answered with ⟨flag, named, same⟩
          rcases Prod.mk.inj same with ⟨rfl, rfl⟩
          rw [AnyFlag.unwatches_eq_some.mp named]
          exact ⟨fd, flag, watchable, Or.inl ⟨rfl, rfl, rfl⟩⟩
      · contradiction
  | unwatch fd any =>
      simp only [watches] at answered
      split at answered
      · next allowed =>
          rcases Option.map_eq_some_iff.mp answered with ⟨flag, named, same⟩
          rcases Prod.mk.inj same with ⟨rfl, rfl⟩
          rw [AnyFlag.unwatches_eq_some.mp named]
          exact ⟨fd, flag, allowed.1, Or.inr ⟨rfl, allowed.2, rfl, rfl⟩⟩
      · contradiction

/-! ## `SelectAIO` does what the table says -/

namespace SelectAio

variable {aio : SelectAio} {pipefd fd other : Nat} {flag : PollFlag} {table : Nat → Interest}

def interest (aio : SelectAio) (fd : Nat) : Interest where
  reads := fd ∈ aio.rfds
  writes := fd ∈ aio.wfds

/-- The pipe is in the sets, and not in the table. -/
def Represents (pipefd : Nat) (aio : SelectAio) (table : Nat → Interest) : Prop :=
  ∀ fd, fd ≠ pipefd → aio.interest fd = table fd

theorem interest_watchFd (aio : SelectAio) (fd : Nat) (flag : PollFlag) :
    (aio.watchFd fd flag).interest =
      Function.update aio.interest fd ((aio.interest fd).watch flag) := by
  funext other
  by_cases here : other = fd
  · rw [here, Function.update_self]
    cases flag <;> simp [interest, watchFd, Interest.watch, PollFlag.reads, PollFlag.writes]
  · rw [Function.update_of_ne here]
    cases flag <;> simp [interest, watchFd, PollFlag.reads, PollFlag.writes, here]

theorem interest_unwatchFd (aio : SelectAio) (fd : Nat) (flag : PollFlag) :
    (aio.unwatchFd fd flag).1.interest =
      Function.update aio.interest fd ((aio.interest fd).unwatch flag) := by
  funext other
  unfold interest
  rw [rfds_unwatchFd, wfds_unwatchFd]
  by_cases here : other = fd
  · rw [here, Function.update_self]
    cases flag <;> simp [clear, Interest.unwatch, PollFlag.reads, PollFlag.writes]
  · rw [Function.update_of_ne here]
    cases flag <;> simp [clear, PollFlag.reads, PollFlag.writes, here]

theorem unwatchFd_answer (aio : SelectAio) (fd : Nat) (flag : PollFlag) :
    (aio.unwatchFd fd flag).2 = decide ((aio.interest fd).unwatch flag = .nothing) := by
  cases flag <;>
    simp [SelectAio.unwatchFd, interest, clear, Interest.unwatch, Interest.nothing,
      PollFlag.reads, PollFlag.writes]

theorem isWatched_any (aio : SelectAio) (fd : Nat) (flag : PollFlag) :
    aio.isWatched fd flag.any = (aio.interest fd).includes flag := by
  cases flag <;>
    simp [SelectAio.isWatched, PollFlag.any, interest, Interest.includes, PollFlag.reads,
      PollFlag.writes]

/-- A change in one place is seen through the representation. -/
theorem Represents.update {interest : Interest} {changed : SelectAio}
    (related : aio.Represents pipefd table)
    (change : changed.interest = Function.update aio.interest fd interest) :
    changed.Represents pipefd (Function.update table fd interest) := by
  intro other differs
  rw [change]
  by_cases here : other = fd
  · rw [here, Function.update_self, Function.update_self]
  · rw [Function.update_of_ne here, Function.update_of_ne here]
    exact related other differs

theorem implements (pipefd : Nat) :
    (component pipefd).Implements (watches pipefd) (Represents pipefd) where
  initial := by
    intro fd differs
    simp [component, watches, interest, init, Interest.nothing, differs]
  call {aio table after call answer} related answered := by
    rcases watches_call answered with ⟨fd, flag, watchable, watch | unwatch⟩
    · rcases watch with ⟨rfl, rfl, rfl⟩
      have fits : fd < fdSetsize := watchable.1.trans (by decide)
      refine ⟨aio.watchFd fd flag, ?_, ?_⟩
      · cases flag <;> exact if_pos fits
      · rw [← related fd watchable.2]
        exact related.update (interest_watchFd aio fd flag)
    · rcases unwatch with ⟨rfl, -, rfl, rfl⟩
      have fits : fd < fdSetsize := watchable.1.trans (by decide)
      rw [← related fd watchable.2]
      refine ⟨(aio.unwatchFd fd flag).1, ?_, related.update (interest_unwatchFd aio fd flag)⟩
      rw [← unwatchFd_answer]
      cases flag <;> exact if_pos fits

end SelectAio

/-! ## `EPollAIO` does what the table says -/

namespace EPollAio

variable {aio : EPollAio} {fd other : Nat} {flag : PollFlag} {table : Nat → Interest}

/-- `fdstatus_` for the watched directions. -/
def status (interest : Interest) : BitVec 32 :=
  (if interest.reads then 0x1 else 0) ||| (if interest.writes then 0x10 else 0)

/-- What the kernel knows of the watched directions. -/
def registration (interest : Interest) : Option (BitVec 32) :=
  if interest = .nothing then none else some (events (status interest))

theorem status_watch (interest : Interest) (flag : PollFlag) :
    status interest ||| flag.any.bits = status (interest.watch flag) := by
  rcases interest with ⟨reads, writes⟩
  cases reads <;> cases writes <;> cases flag <;> rfl

theorem status_unwatch (interest : Interest) (flag : PollFlag) :
    status interest &&& ~~~flag.any.bits = status (interest.unwatch flag) := by
  rcases interest with ⟨reads, writes⟩
  cases reads <;> cases writes <;> cases flag <;> rfl

theorem watchOp_status (interest : Interest) :
    watchOp (status interest) = if interest = .nothing then .add else .mod := by
  rcases interest with ⟨reads, writes⟩
  cases reads <;> cases writes <;> decide

theorem unwatchOp_status (interest : Interest) :
    unwatchOp (status interest) = if interest = .nothing then .del else .mod := by
  rcases interest with ⟨reads, writes⟩
  cases reads <;> cases writes <;> decide

/-- A watched direction has no bit in the mask. -/
theorem status_masked (interest : Interest) (flag : PollFlag) :
    status interest &&& AnyFlag.mask.bits ≠ flag.any.bits := by
  rcases interest with ⟨reads, writes⟩
  cases reads <;> cases writes <;> cases flag <;> decide

theorem watch_ne_nothing (interest : Interest) (flag : PollFlag) :
    interest.watch flag ≠ .nothing := by
  rcases interest with ⟨reads, writes⟩
  cases reads <;> cases writes <;> cases flag <;> decide

theorem unwatch_rdwr (interest : Interest) : interest.unwatch .rdwr = .nothing := by
  rcases interest with ⟨reads, writes⟩
  cases reads <;> cases writes <;> rfl

structure Represents (aio : EPollAio) (table : Nat → Interest) : Prop where
  fdstatus : ∀ fd, aio.fdstatus fd = status (table fd)
  registered : ∀ fd, aio.registered fd = registration (table fd)

/-- The array and the interest list change in one place. -/
theorem Represents.update (related : aio.Represents table) (fd : Nat) (interest : Interest) :
    Represents
      { fdstatus := Function.update aio.fdstatus fd (status interest)
        registered := Function.update aio.registered fd (registration interest) }
      (Function.update table fd interest) where
  fdstatus other := by
    dsimp only
    by_cases here : other = fd
    · rw [here, Function.update_self, Function.update_self]
    · rw [Function.update_of_ne here, Function.update_of_ne here]
      exact related.fdstatus other
  registered other := by
    dsimp only
    by_cases here : other = fd
    · rw [here, Function.update_self, Function.update_self]
    · rw [Function.update_of_ne here, Function.update_of_ne here]
      exact related.registered other

/-- A descriptor is added when it comes into the table. -/
theorem Represents.epollCtl_watch (related : aio.Represents table) (fd : Nat) (flag : PollFlag) :
    epollCtl aio.registered (watchOp (status (table fd))) fd
        (events (status ((table fd).watch flag))) =
      some (Function.update aio.registered fd (registration ((table fd).watch flag))) := by
  have known := related.registered fd
  rw [registration] at known
  rw [watchOp_status, registration, if_neg (watch_ne_nothing _ _)]
  by_cases fresh : table fd = .nothing
  · rw [if_pos fresh] at known
    rw [if_pos fresh, epollCtl_add known]
  · rw [if_neg fresh] at known
    rw [if_neg fresh, epollCtl_mod known]

/-- A descriptor is deleted when it leaves the table. -/
theorem Represents.epollCtl_unwatch (related : aio.Represents table)
    (watched : table fd ≠ .nothing) (flag : PollFlag) :
    epollCtl aio.registered (unwatchOp (status ((table fd).unwatch flag))) fd
        (events (status ((table fd).unwatch flag))) =
      some (Function.update aio.registered fd (registration ((table fd).unwatch flag))) := by
  have known := related.registered fd
  rw [registration, if_neg watched] at known
  rw [unwatchOp_status, registration]
  by_cases gone : (table fd).unwatch flag = .nothing
  · rw [if_pos gone, if_pos gone, epollCtl_del known]
  · rw [if_neg gone, if_neg gone, epollCtl_mod known]

/-- The assertion of `watch_fd`. -/
theorem events_rdwr (interest : Interest) :
    events (status (interest.watch .rdwr)) = epollet ||| epollin ||| epollout := by
  rcases interest with ⟨reads, writes⟩
  cases reads <;> cases writes <;> decide

theorem Represents.watchFd (related : aio.Represents table) (fits : fd < maxPollFds)
    (flag : PollFlag) :
    ∃ next, aio.watchFd fd flag.any = some next ∧
      next.Represents (Function.update table fd ((table fd).watch flag)) := by
  refine ⟨_, ?_, related.update fd ((table fd).watch flag)⟩
  have asserted : ¬ (flag.any = .rdwr ∧
      events (status ((table fd).watch flag)) ≠ epollet ||| epollin ||| epollout) := by
    cases flag with
    | rdonly | wronly => exact fun both => absurd both.1 (by decide)
    | rdwr => exact fun both => both.2 (events_rdwr _)
  unfold EPollAio.watchFd
  rw [if_pos fits, related.fdstatus fd]
  dsimp only
  rw [status_watch, if_neg asserted, related.epollCtl_watch fd flag, Option.map_some]

theorem Represents.unwatchFd (related : aio.Represents table) (fits : fd < maxPollFds)
    (watched : table fd ≠ .nothing) (flag : PollFlag) :
    ∃ next, aio.unwatchFd fd flag.any =
        some (next, decide ((table fd).unwatch flag = .nothing)) ∧
      next.Represents (Function.update table fd ((table fd).unwatch flag)) := by
  refine ⟨_, ?_, related.update fd ((table fd).unwatch flag)⟩
  have deleted : unwatchOp (status ((table fd).unwatch flag)) = .del ↔
      (table fd).unwatch flag = .nothing := by
    rw [unwatchOp_status]
    split
    · next gone => exact iff_of_true rfl gone
    · next kept => exact iff_of_false (by decide) kept
  have asserted : ¬ (flag.any = .rdwr ∧
      unwatchOp (status ((table fd).unwatch flag)) ≠ .del) := by
    cases flag with
    | rdonly | wronly => exact fun both => absurd both.1 (by decide)
    | rdwr => exact fun both => both.2 (deleted.mpr (unwatch_rdwr _))
  unfold EPollAio.unwatchFd
  rw [if_pos fits, related.fdstatus fd]
  dsimp only
  rw [status_unwatch, if_neg asserted, related.epollCtl_unwatch watched flag, Option.map_some,
    decide_eq_decide.mpr deleted]

theorem implements (pipefd : Nat) : component.Implements (watches pipefd) Represents where
  initial := {
    fdstatus _ := (by decide : (0 : BitVec 32) = status .nothing)
    registered _ := rfl }
  call {aio table after call answer} related answered := by
    rcases watches_call answered with ⟨fd, flag, watchable, watch | unwatch⟩
    · rcases watch with ⟨rfl, rfl, rfl⟩
      rcases related.watchFd watchable.1 flag with ⟨next, taken, related⟩
      exact ⟨next, congrArg (Option.map _) taken, related⟩
    · rcases unwatch with ⟨rfl, watched, rfl, rfl⟩
      rcases related.unwatchFd watchable.1 watched flag with ⟨next, taken, related⟩
      exact ⟨next, congrArg (Option.map _) taken, related⟩

/-- `is_watched` finds no flag that names a direction. -/
theorem Represents.isWatched (related : aio.Represents table) (fits : fd < maxPollFds)
    (flag : PollFlag) : aio.isWatched fd flag.any = some false := by
  unfold EPollAio.isWatched
  rw [if_pos fits, related.fdstatus fd, decide_eq_false (status_masked _ flag)]

end EPollAio

/-! ## The back ends beside each other -/

/-- After the calls, both back ends have given the same answers, and agree on what is
watched. -/
def BackEndsAgree (pipefd : Nat) (calls : List AioCall) : Prop :=
  ∃ select epoll answers,
    (SelectAio.component pipefd).run (SelectAio.init pipefd) calls = some (select, answers) ∧
    EPollAio.component.run EPollAio.init calls = some (epoll, answers) ∧
    ∀ fd, Watchable pipefd fd → ∀ flag : PollFlag,
      epoll.isWatched fd flag.any = some (select.isWatched fd flag.any)

/-- Both back ends answer what the table says, and `EPollAIO` takes everything for
unwatched. -/
theorem backEnds_run {pipefd : Nat} {calls : List AioCall} {table : Nat → Interest}
    {answers : List (Option Bool)}
    (proper : (watches pipefd).run (watches pipefd).initial calls = some (table, answers)) :
    ∃ select epoll,
      (SelectAio.component pipefd).run (SelectAio.init pipefd) calls = some (select, answers) ∧
      EPollAio.component.run EPollAio.init calls = some (epoll, answers) ∧
      ∀ fd, Watchable pipefd fd → ∀ flag : PollFlag,
        select.isWatched fd flag.any = (table fd).includes flag ∧
        epoll.isWatched fd flag.any = some false := by
  have selects := SelectAio.implements pipefd
  have epolls := EPollAio.implements pipefd
  rcases selects.run selects.initial proper with ⟨select, selected, related⟩
  rcases epolls.run epolls.initial proper with ⟨epoll, polled, represents⟩
  refine ⟨select, epoll, selected, polled, fun fd watchable flag => ⟨?_, ?_⟩⟩
  · rw [SelectAio.isWatched_any, related fd watchable.2]
  · exact represents.isWatched watchable.1 flag

/-- The back ends agree when nothing is left watched. -/
theorem backEndsAgree_iff {pipefd : Nat} {calls : List AioCall} {table : Nat → Interest}
    {answers : List (Option Bool)}
    (proper : (watches pipefd).run (watches pipefd).initial calls = some (table, answers)) :
    BackEndsAgree pipefd calls ↔ ∀ fd, Watchable pipefd fd → table fd = .nothing := by
  rcases backEnds_run proper with ⟨select, epoll, selected, polled, watched⟩
  constructor
  · rintro ⟨select', epoll', answers', selected', polled', agree⟩ fd watchable
    rw [selected] at selected'
    rw [polled] at polled'
    rcases Prod.mk.inj (Option.some.inj selected') with ⟨rfl, -⟩
    rcases Prod.mk.inj (Option.some.inj polled') with ⟨rfl, -⟩
    rw [Interest.eq_nothing_iff]
    intro flag
    have same := agree fd watchable flag
    rw [(watched fd watchable flag).1, (watched fd watchable flag).2] at same
    exact (Option.some.inj same).symm
  · intro nothing
    refine ⟨select, epoll, answers, selected, polled, fun fd watchable flag => ?_⟩
    rw [(watched fd watchable flag).1, (watched fd watchable flag).2,
      (Interest.eq_nothing_iff _).mp (nothing fd watchable) flag]

/-- Both directions are given up one after the other. -/
def comesAndGoes : List AioCall :=
  [.watch 4 .rdwr, .watch 5 .rdonly, .unwatch 4 .rdonly, .unwatch 5 .rdwr, .unwatch 4 .wronly]

theorem backEndsAgree_comesAndGoes : BackEndsAgree 3 comesAndGoes := by
  have proper : ((watches 3).run (watches 3).initial comesAndGoes).isSome := by decide
  rcases Option.isSome_iff_exists.mp proper with ⟨⟨table, answers⟩, taken⟩
  have nothing : ((watches 3).run (watches 3).initial comesAndGoes).all fun final =>
      ∀ fd < maxPollFds, final.1 fd = .nothing := by decide +kernel
  rw [taken] at nothing
  exact (backEndsAgree_iff taken).mpr fun fd watchable =>
    of_decide_eq_true nothing fd watchable.1

theorem watched_disagree : ¬ BackEndsAgree 3 [.watch 4 .rdonly] := by
  have proper : ((watches 3).run (watches 3).initial [.watch 4 .rdonly]).isSome := by decide
  rcases Option.isSome_iff_exists.mp proper with ⟨⟨table, answers⟩, taken⟩
  have polled : (EPollAio.component.run EPollAio.init [.watch 4 .rdonly]).map
      (fun final => final.1.isWatched 4 .rdonly) = some (some false) := by decide
  have selected : ((SelectAio.component 3).run (SelectAio.init 3) [.watch 4 .rdonly]).map
      (fun final => final.1.isWatched 4 .rdonly) = some true := by decide
  rcases Option.map_eq_some_iff.mp polled with ⟨⟨epoll, _⟩, polled, unwatched⟩
  rcases Option.map_eq_some_iff.mp selected with ⟨⟨select, _⟩, selected, watched⟩
  rintro ⟨_, _, _, selected', polled', agree⟩
  cases selected.symm.trans selected'
  cases polled.symm.trans polled'
  have same := agree 4 (by decide) .rdonly
  rw [PollFlag.any] at same
  dsimp only at unwatched watched
  rw [unwatched, watched] at same
  contradiction

end YfsRpc.Rpc
