import YfsRpc.Foundation.OrderedMap
import YfsRpc.Rpc.ConnRefs

/-! # The collection of dead connections

`process_accept` looks through `conns_` for dead connections that nobody else refers to
before it enters the new one. It erases an element and then advances the iterator that
denoted it.
-/

namespace YfsRpc.Rpc

/-- `tcpsconn` with the connections there are. -/
structure TcpsConn where
  conns : OrderedMap Nat
  table : ConnTable
  known : ∀ e ∈ conns.entries, e.2 < table.created

/-- `conns_` in the loop of `process_accept`. -/
structure AcceptGc where
  conns : OrderedMap Nat
  table : ConnTable
  /-- the iterator, which is `none` at the end -/
  i : Option Nat
  /-- history: the elements whose connection was looked at -/
  visited : List Nat := []
  /-- history: the elements whose reference was dropped -/
  dropped : List Nat := []

namespace AcceptGc

/-- The body of the loop. -/
def body (s : AcceptGc) (k : Nat) : Option AcceptGc := do
  let c ← s.conns.deref k
  let s := { s with table := s.table.use c, visited := s.visited ++ [k] }
  if s.table.dead c = true ∧ s.table.refno c = 1 then
    let table ← s.table.decref c
    some { s with table, dropped := s.dropped ++ [k], conns := s.conns.erase k }
  else
    some s

/-- The loop, which looks at `fuel - 1` elements at most. -/
def loop : Nat → AcceptGc → Option AcceptGc
  | 0, _ => none
  | fuel + 1, s =>
      match s.i with
      | none => some s
      | some k => do
          let s ← s.body k
          let i ← s.conns.next k
          loop fuel { s with i }

end AcceptGc

namespace TcpsConn

/-- `s1` is the descriptor that `accept` returned. -/
def processAccept (fuel : Nat) (s : TcpsConn) (s1 : Nat) : Option AcceptGc := do
  let ch := s.table.created
  let table := s.table.create
  let gc ← AcceptGc.loop fuel { conns := s.conns, table, i := s.conns.begin }
  some { gc with conns := gc.conns.set s1 ch }

/-- The connection is dead and has one reference. -/
def Collectable (s : TcpsConn) (c : Nat) : Prop := s.table.dead c = true ∧ s.table.refno c = 1

instance (s : TcpsConn) (c : Nat) : Decidable (s.Collectable c) :=
  inferInstanceAs (Decidable (_ ∧ _))

/-- The elements that are collected. -/
def garbage (s : TcpsConn) : List (Nat × Nat) := s.conns.entries.filter fun e => s.Collectable e.2

/-- Each element was visited once, the collectable ones have lost their reference and are
gone, and the new connection is entered. -/
structure Collected (s : TcpsConn) (s1 : Nat) (after : AcceptGc) : Prop where
  visited : after.visited = s.conns.keys
  dropped : after.dropped = s.garbage.map Prod.fst
  refno : ∀ c, c < s.table.created →
    after.table.refno c + (s.garbage.map Prod.snd).count c = s.table.refno c
  conns : after.conns.entries = insertAscending Prod.fst (s1, s.table.created)
    ((s.conns.entries.filter fun e => ¬ s.Collectable e.2).filter fun e => e.1 != s1)

/-- The loop ends, and never uses an iterator whose element is gone. -/
def CollectsExactly (s : TcpsConn) (s1 : Nat) : Prop :=
  ∃ fuel after, s.processAccept fuel s1 = some after ∧ s.Collected s1 after

end TcpsConn

namespace AcceptGc

variable {s after : AcceptGc} {front rest : List (Nat × Nat)} {k c : Nat}

/-- An element whose connection stays is only looked at. -/
theorem body_kept (found : s.conns.deref k = some c)
    (kept : ¬ (s.table.dead c = true ∧ s.table.refno c = 1)) :
    s.body k = some { s with table := s.table.use c, visited := s.visited ++ [k] } := by
  unfold body
  rw [found, Option.bind_eq_bind, Option.bind_some]
  exact if_neg kept

/-- The element of a connection that is collected is gone when the iterator is advanced. -/
theorem body_collected (found : s.conns.deref k = some c)
    (collectable : s.table.dead c = true ∧ s.table.refno c = 1) (done : s.body k = some after) :
    after.conns.next k = none := by
  unfold body at done
  rw [found, Option.bind_eq_bind, Option.bind_some] at done
  rcases Option.bind_eq_some_iff.mp ((if_pos collectable).symm.trans done) with ⟨table, -, same⟩
  cases same
  exact s.conns.next_erase k

/-- While no connection is collectable the loop visits the elements that are left and
changes nothing. -/
theorem loop_kept (split : s.conns.entries = front ++ rest)
    (here : s.i = (rest.map Prod.fst).head?)
    (kept : ∀ e ∈ rest, ¬ (s.table.dead e.2 = true ∧ s.table.refno e.2 = 1)) :
    ∃ after, loop (rest.length + 1) s = some after ∧ after.conns = s.conns ∧
      after.table.refno = s.table.refno ∧ after.dropped = s.dropped ∧
      after.visited = s.visited ++ rest.map Prod.fst := by
  induction rest generalizing s front with
  | nil =>
      refine ⟨s, ?_, rfl, rfl, rfl, (List.append_nil _).symm⟩
      unfold loop
      rw [here]
      rfl
  | cons e rest induction =>
      rcases e with ⟨k, c⟩
      have looked := body_kept (OrderedMap.deref_split split) (kept (k, c) List.mem_cons_self)
      have moved := OrderedMap.next_split split
      rcases @induction { s with
          table := s.table.use c
          visited := s.visited ++ [k]
          i := (rest.map Prod.fst).head? } (front ++ [(k, c)])
          (by rw [List.append_assoc]; exact split) rfl
          (fun e member => kept e (List.mem_cons_of_mem _ member)) with
        ⟨after, done, conns, refno, dropped, visited⟩
      refine ⟨after, ?_, conns, refno, dropped, ?_⟩
      · rw [List.length_cons, loop, here]
        change (s.body k).bind _ = _
        rw [looked, Option.bind_some]
        dsimp only
        rw [moved]
        exact done
      · rw [visited, List.map_cons, List.append_assoc]
        rfl

/-- A loop that ends has met no collectable connection. -/
theorem loop_some {fuel : Nat} (split : s.conns.entries = front ++ rest)
    (here : s.i = (rest.map Prod.fst).head?) (done : loop fuel s = some after) :
    ∀ e ∈ rest, ¬ (s.table.dead e.2 = true ∧ s.table.refno e.2 = 1) := by
  induction rest generalizing s front fuel with
  | nil => exact fun e member => nomatch member
  | cons e rest induction =>
      rcases e with ⟨k, c⟩
      cases fuel with
      | zero => contradiction
      | succ fuel =>
          have found := OrderedMap.deref_split split
          rw [loop, here] at done
          rcases Option.bind_eq_some_iff.mp done with ⟨looked, body, moved⟩
          rcases Option.bind_eq_some_iff.mp moved with ⟨i, next, rest'⟩
          by_cases collectable : s.table.dead c = true ∧ s.table.refno c = 1
          · rw [body_collected found collectable body] at next
            contradiction
          · rw [body_kept found collectable] at body
            cases body
            rw [OrderedMap.next_split split] at next
            cases next
            intro e member
            rcases List.mem_cons.mp member with rfl | later
            · exact collectable
            · exact @induction { s with
                table := s.table.use c
                visited := s.visited ++ [k]
                i := (rest.map Prod.fst).head? } (front ++ [(k, c)]) fuel
                (by rw [List.append_assoc]; exact split) rfl rest' e later

end AcceptGc

namespace TcpsConn

variable {s : TcpsConn} {s1 : Nat}

theorem refno_create (s : TcpsConn) {c : Nat} (known : c < s.table.created) :
    s.table.create.refno c = s.table.refno c :=
  Function.update_of_ne (Nat.ne_of_lt known) ..

/-- The new connection does not matter to what is collected. -/
theorem collectable_create (s : TcpsConn) {e : Nat × Nat} (member : e ∈ s.conns.entries) :
    s.table.create.dead e.2 = true ∧ s.table.create.refno e.2 = 1 ↔ s.Collectable e.2 := by
  unfold Collectable
  rw [s.refno_create (s.known e member)]
  rfl

theorem collectsExactly_of_none (none : ∀ e ∈ s.conns.entries, ¬ s.Collectable e.2) :
    s.CollectsExactly s1 := by
  rcases @AcceptGc.loop_kept
      { conns := s.conns, table := s.table.create, i := s.conns.begin } [] s.conns.entries rfl rfl
      (fun e member => mt (s.collectable_create member).mp (none e member)) with
    ⟨gc, done, conns, refno, dropped, visited⟩
  have nothing : s.garbage = [] :=
    List.filter_eq_nil_iff.mpr fun e member => by simpa using none e member
  refine ⟨_, _, Option.bind_eq_some_iff.mpr ⟨gc, done, rfl⟩, visited, ?_, ?_, ?_⟩
  · rw [nothing]
    exact dropped
  · intro c known
    rw [nothing]
    exact (congrFun refno c).trans (s.refno_create known)
  · have all : (s.conns.entries.filter fun e => ¬ s.Collectable e.2) = s.conns.entries :=
      List.filter_eq_self.mpr fun e member => decide_eq_true (none e member)
    rw [all]
    dsimp only
    rw [conns]
    rfl

theorem none_of_collectsExactly (exactly : s.CollectsExactly s1) :
    ∀ e ∈ s.conns.entries, ¬ s.Collectable e.2 := by
  rcases exactly with ⟨fuel, after, done, -⟩
  intro e member
  rcases Option.bind_eq_some_iff.mp done with ⟨gc, looped, -⟩
  have kept := @AcceptGc.loop_some
    { conns := s.conns, table := s.table.create, i := s.conns.begin } gc [] s.conns.entries fuel
    rfl rfl looped e member
  exact mt (s.collectable_create member).mpr kept

/-- The loop collects the dead connections, and uses no iterator whose element is gone,
only where there is nothing to collect. -/
theorem collectsExactly_iff (s : TcpsConn) (s1 : Nat) :
    s.CollectsExactly s1 ↔ ∀ e ∈ s.conns.entries, ¬ s.Collectable e.2 :=
  ⟨none_of_collectsExactly, collectsExactly_of_none⟩

/-- The descriptors 4 and 5, the first of a dead connection. -/
def oneDead : TcpsConn where
  conns := ⟨[(4, 0), (5, 1)], by unfold StrictlyAscending; decide⟩
  table := { created := 2, refno := fun _ => 1, dead := fun c => c == 0 }
  known := by decide

theorem oneDead_uncollected : ¬ oneDead.CollectsExactly 6 := fun exactly =>
  none_of_collectsExactly exactly (4, 0) List.mem_cons_self (by decide)

end TcpsConn

end YfsRpc.Rpc
