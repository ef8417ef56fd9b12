import Mathlib.Data.List.Induction
import Mathlib.Data.List.Nodup

/-! # Linearizability

An object is specified by what its operations do one at a time. Concurrent calls of it are
linearizable when some order of the operations that took effect explains every result and
keeps real time: a call that returned before another one began comes before it.
-/

namespace YfsRpc

universe u v w x

variable {σ : Type u} {Op : Type v} {Res : Type w} {κ : Type x}

/-- An operation may have several outcomes, or none while it has to wait. -/
structure SharedObject (σ : Type u) (Op : Type v) (Res : Type w) where
  initial : σ
  effect : σ → Op → Res → σ → Prop

namespace SharedObject

/-- Operations that are executed one after the other. -/
inductive Sequential (object : SharedObject σ Op Res) : List (Op × Res) → σ → Prop
  | nil : Sequential object [] object.initial
  | snoc {calls : List (Op × Res)} {state next : σ} {op : Op} {res : Res}
      (before : Sequential object calls state) (taken : object.effect state op res next) :
      Sequential object (calls ++ [(op, res)]) next

/-- What the last call does. -/
theorem Sequential.last {object : SharedObject σ Op Res} {calls : List (Op × Res)} {next : σ}
    {op : Op} {res : Res} (sequential : object.Sequential (calls ++ [(op, res)]) next) :
    ∃ state, object.Sequential calls state ∧ object.effect state op res next := by
  generalize whole : calls ++ [(op, res)] = all at sequential
  cases sequential with
  | nil => exact absurd whole (List.append_ne_nil_of_right_ne_nil _ (List.cons_ne_nil _ _))
  | snoc before taken =>
      rcases List.append_inj' whole rfl with ⟨rfl, ends⟩
      cases ends
      exact ⟨_, before, taken⟩

/-- Some state is reached by the first calls. -/
theorem Sequential.front {object : SharedObject σ Op Res} {calls later : List (Op × Res)}
    {final : σ} (sequential : object.Sequential (calls ++ later) final) :
    ∃ state, object.Sequential calls state := by
  induction later using List.reverseRecOn generalizing final with
  | nil =>
      rw [List.append_nil] at sequential
      exact ⟨final, sequential⟩
  | append_singleton rest call induction =>
      rw [← List.append_assoc] at sequential
      rcases sequential.last with ⟨_, before, _⟩
      exact induction before

/-- The abstract object does what the other one does, seen through the three maps. -/
structure Abstracts {σ' : Type*} {Op' : Type*} {Res' : Type*} (abstract : SharedObject σ' Op' Res')
    (object : SharedObject σ Op Res) (view : σ → σ') (op : Op → Op') (res : Res → Res') :
    Prop where
  initial : view object.initial = abstract.initial
  effect : ∀ state call result next, object.effect state call result next →
    abstract.effect (view state) (op call) (res result) (view next)

theorem Sequential.abstract {σ' : Type*} {Op' : Type*} {Res' : Type*}
    {abstract : SharedObject σ' Op' Res'} {object : SharedObject σ Op Res} {view : σ → σ'}
    {op : Op → Op'} {res : Res → Res'} (abstracts : abstract.Abstracts object view op res)
    {calls : List (Op × Res)} {state : σ} (sequential : object.Sequential calls state) :
    abstract.Sequential (calls.map (Prod.map op res)) (view state) := by
  induction sequential with
  | nil =>
      rw [abstracts.initial]
      exact Sequential.nil
  | snoc before taken induction =>
      rw [List.map_append]
      exact induction.snoc (abstracts.effect _ _ _ _ taken)

end SharedObject

/-- What is seen of the calls from outside; `κ` tells them apart. -/
inductive CallEvent (κ : Type x) (Op : Type v) (Res : Type w)
  | invoke (k : κ) (op : Op)
  | respond (k : κ) (res : Res)
  deriving DecidableEq

def CallEvent.map {Op' : Type*} {Res' : Type*} (op : Op → Op') (res : Res → Res') :
    CallEvent κ Op Res → CallEvent κ Op' Res'
  | invoke k call => .invoke k (op call)
  | respond k result => .respond k (res result)

def CallEvent.invoked? : CallEvent κ Op Res → Option κ
  | invoke k _ => some k
  | respond _ _ => none

def CallEvent.responded? : CallEvent κ Op Res → Option κ
  | invoke _ _ => none
  | respond k _ => some k

/-- Every call begins once, and returns at most once, after it began. -/
structure WellFormed (history : List (CallEvent κ Op Res)) : Prop where
  invokedOnce : (history.filterMap CallEvent.invoked?).Nodup
  respondedOnce : (history.filterMap CallEvent.responded?).Nodup
  begun : ∀ k res, .respond k res ∈ history →
    ∃ op, [.invoke k op, .respond k res].Sublist history

namespace WellFormed

variable {history : List (CallEvent κ Op Res)} {k : κ} {op : Op} {res : Res}

/-- A call begins with one operation. -/
theorem invoke_unique (wellFormed : WellFormed history) {op' : Op}
    (first : .invoke k op ∈ history) (second : .invoke k op' ∈ history) : op = op' := by
  have once := wellFormed.invokedOnce
  clear wellFormed
  have begun {op : Op} {events : List (CallEvent κ Op Res)} (found : .invoke k op ∈ events) :
      k ∈ events.filterMap CallEvent.invoked? := List.mem_filterMap.mpr ⟨_, found, rfl⟩
  induction history with
  | nil => contradiction
  | cons event rest induction =>
      rcases List.mem_cons.mp first with rfl | left
      · rcases List.mem_cons.mp second with same | right
        · cases same
          rfl
        · exact absurd (begun right) (List.nodup_cons.mp once).1
      · rcases List.mem_cons.mp second with rfl | right
        · exact absurd (begun left) (List.nodup_cons.mp once).1
        · have shorter := once.sublist ((List.sublist_cons_self event rest).filterMap _)
          exact induction left right shorter

theorem nil : WellFormed ([] : List (CallEvent κ Op Res)) :=
  ⟨List.nodup_nil, List.nodup_nil, nofun⟩

theorem invoke (wellFormed : WellFormed history) (fresh : ∀ op, .invoke k op ∉ history) :
    WellFormed (history ++ [.invoke k op]) where
  invokedOnce := by
    rw [List.filterMap_append]
    apply wellFormed.invokedOnce.append (List.nodup_singleton k)
    apply List.disjoint_singleton.mpr
    intro member
    rcases List.mem_filterMap.mp member with ⟨event, found, same⟩
    cases event with
    | invoke k' op' =>
        cases same
        exact fresh op' found
    | respond => cases same
  respondedOnce := by
    rw [List.filterMap_append]
    exact wellFormed.respondedOnce.append List.nodup_nil (List.disjoint_nil_right _)
  begun := by
    intro k' res' member
    rcases List.mem_append.mp member with old | new
    · rcases wellFormed.begun k' res' old with ⟨op', before⟩
      exact ⟨op', before.trans (List.sublist_append_left _ _)⟩
    · cases List.mem_singleton.mp new

theorem respond (wellFormed : WellFormed history) (fresh : ∀ res, .respond k res ∉ history)
    (begun : .invoke k op ∈ history) : WellFormed (history ++ [.respond k res]) where
  invokedOnce := by
    rw [List.filterMap_append]
    exact wellFormed.invokedOnce.append List.nodup_nil (List.disjoint_nil_right _)
  respondedOnce := by
    rw [List.filterMap_append]
    apply wellFormed.respondedOnce.append (List.nodup_singleton k)
    apply List.disjoint_singleton.mpr
    intro member
    rcases List.mem_filterMap.mp member with ⟨event, found, same⟩
    cases event with
    | invoke => cases same
    | respond k' res' =>
        cases same
        exact fresh res' found
  begun := by
    intro k' res' member
    rcases List.mem_append.mp member with old | new
    · rcases wellFormed.begun k' res' old with ⟨op', before⟩
      exact ⟨op', before.trans (List.sublist_append_left _ _)⟩
    · cases List.mem_singleton.mp new
      have earlier : [CallEvent.invoke k op].Sublist history := List.singleton_sublist.mpr begun
      exact ⟨op, earlier.append (List.Sublist.refl _)⟩

end WellFormed

/-- The order explains the history. It has all calls that have returned, and others that
took effect already. -/
structure Linearizes (object : SharedObject σ Op Res) (history : List (CallEvent κ Op Res))
    (order : List (κ × Op × Res)) (state : σ) : Prop where
  legal : object.Sequential (order.map Prod.snd) state
  once : (order.map Prod.fst).Nodup
  invoked : ∀ k op res, (k, op, res) ∈ order → .invoke k op ∈ history
  answered : ∀ k res, .respond k res ∈ history → ∃ op, (k, op, res) ∈ order
  realTime : ∀ k res k' op, [.respond k res, .invoke k' op].Sublist history →
    k' ∈ order.map Prod.fst → [k, k'].Sublist (order.map Prod.fst)

namespace Linearizes

variable {object : SharedObject σ Op Res} {history : List (CallEvent κ Op Res)}
  {order : List (κ × Op × Res)} {state next : σ} {k : κ} {op : Op} {res : Res}

theorem initial (object : SharedObject σ Op Res) :
    Linearizes object ([] : List (CallEvent κ Op Res)) [] object.initial where
  legal := .nil
  once := List.nodup_nil
  invoked := nofun
  answered := nofun
  realTime := nofun

/-- A pair of events in a history with one more event is an old pair or ends with it. -/
theorem pair_sublist_snoc {α : Type*} {list : List α} {first second last : α}
    (pair : [first, second].Sublist (list ++ [last])) :
    [first, second].Sublist list ∨ (second = last ∧ first ∈ list) := by
  rcases List.sublist_append_iff.mp pair with ⟨front, back, split, early, late⟩
  rcases List.sublist_singleton.mp late with rfl | rfl
  · left
    rw [List.append_nil] at split
    rw [split]
    exact early
  · right
    have same : [first] ++ [second] = front ++ [last] := split
    rcases List.append_inj' same rfl with ⟨rfl, ends⟩
    exact ⟨(List.cons.inj ends).1, List.singleton_sublist.mp early⟩

/-- A call that has not taken effect begins. -/
theorem invoke (linear : Linearizes object history order state)
    (fresh : k ∉ order.map Prod.fst) :
    Linearizes object (history ++ [.invoke k op]) order state where
  legal := linear.legal
  once := linear.once
  invoked := by
    intro k' op' res' member
    exact List.mem_append_left _ (linear.invoked k' op' res' member)
  answered := by
    intro k' res' member
    rcases List.mem_append.mp member with old | new
    · exact linear.answered k' res' old
    · cases List.mem_singleton.mp new
  realTime := by
    intro first res' second op' pair member
    rcases pair_sublist_snoc pair with old | ⟨same, _⟩
    · exact linear.realTime first res' second op' old member
    · cases same
      exact absurd member fresh

/-- A call that has begun takes effect. -/
theorem commit (linear : Linearizes object history order state)
    (fresh : k ∉ order.map Prod.fst) (begun : .invoke k op ∈ history)
    (taken : object.effect state op res next) :
    Linearizes object history (order ++ [(k, op, res)]) next where
  legal := by
    rw [List.map_append]
    exact linear.legal.snoc taken
  once := by
    rw [List.map_append]
    exact linear.once.append (List.nodup_singleton k) (List.disjoint_singleton.mpr fresh)
  invoked := by
    intro k' op' res' member
    rcases List.mem_append.mp member with old | new
    · exact linear.invoked k' op' res' old
    · cases List.mem_singleton.mp new
      exact begun
  answered := by
    intro k' res' member
    rcases linear.answered k' res' member with ⟨op', found⟩
    exact ⟨op', List.mem_append_left _ found⟩
  realTime := by
    intro first res' second op' pair member
    rw [List.map_append] at member ⊢
    rcases List.mem_append.mp member with old | new
    · have before := linear.realTime first res' second op' pair old
      exact before.trans (List.sublist_append_left _ _)
    · -- the call that returned has taken effect before
      have returned : .respond first res' ∈ history := pair.subset List.mem_cons_self
      rcases linear.answered first res' returned with ⟨_, found⟩
      have earlier : [first].Sublist (order.map Prod.fst) :=
        List.singleton_sublist.mpr (List.mem_map_of_mem found)
      rw [List.mem_singleton.mp new]
      exact earlier.append (List.Sublist.refl [k])

/-- A call that has taken effect returns its result. -/
theorem respond (linear : Linearizes object history order state)
    (taken : (k, op, res) ∈ order) :
    Linearizes object (history ++ [.respond k res]) order state where
  legal := linear.legal
  once := linear.once
  invoked := by
    intro k' op' res' member
    exact List.mem_append_left _ (linear.invoked k' op' res' member)
  answered := by
    intro k' res' member
    rcases List.mem_append.mp member with old | new
    · exact linear.answered k' res' old
    · cases List.mem_singleton.mp new
      exact ⟨op, taken⟩
  realTime := by
    intro first res' second op' pair member
    rcases pair_sublist_snoc pair with old | ⟨same, _⟩
    · exact linear.realTime first res' second op' old member
    · cases same

/-- What returned before another call began, which returned as well, is before it in the order. -/
theorem ordered (linear : Linearizes object history order state)
    (wellFormed : WellFormed history) {k' : κ} {op' : Op} {res' : Res}
    (pair : [CallEvent.respond k res, .invoke k' op'].Sublist history)
    (invoked : .invoke k op ∈ history) (returned : .respond k' res' ∈ history) :
    ∃ before between after,
      order = (before ++ (k, op, res) :: between) ++ (k', op', res') :: after := by
  have begun : .invoke k' op' ∈ history := pair.subset (by simp)
  have answered : .respond k res ∈ history := pair.subset List.mem_cons_self
  have entry {k : κ} {op : Op} {res : Res} (invoked : .invoke k op ∈ history)
      (answered : .respond k res ∈ history) : (k, op, res) ∈ order := by
    rcases linear.answered k res answered with ⟨other, member⟩
    rw [wellFormed.invoke_unique invoked (linear.invoked k other res member)]
    exact member
  have first := entry invoked answered
  have second := entry begun returned
  have keys := linear.realTime k res k' op' pair (List.mem_map_of_mem second)
  rcases List.sublist_map_iff.mp keys with ⟨entries, within, same⟩
  rcases List.map_eq_cons_iff.mp same.symm with ⟨x, rest, rfl, isFirst, others⟩
  rcases List.map_eq_singleton_iff.mp others with ⟨y, rfl, isSecond⟩
  have equal := List.inj_on_of_nodup_map linear.once
  rw [equal (within.subset (by simp)) first isFirst,
    equal (within.subset (by simp)) second isSecond] at within
  rcases List.cons_sublist_iff.mp within with ⟨front, back, rfl, early, late⟩
  rcases List.append_of_mem early with ⟨before, left, rfl⟩
  rcases List.append_of_mem (List.singleton_sublist.mp late) with ⟨right, after, rfl⟩
  exact ⟨before, left ++ right, after, by simp⟩

/-- What stands before a call in the order did not begin after the call had returned. -/
theorem began (linear : Linearizes object history order state) {earlier later : List (κ × Op × Res)}
    (split : order = earlier ++ (k, op, res) :: later) {k' : κ} {op' : Op} {res' : Res}
    (member : (k', op', res') ∈ earlier) :
    .invoke k' op' ∈ history ∧
      ∀ r, ¬ [CallEvent.respond k r, .invoke k' op'].Sublist history := by
  have ordered : (k', op', res') ∈ order := by
    rw [split]
    exact List.mem_append_left _ member
  refine ⟨linear.invoked k' op' res' ordered, fun r pair => ?_⟩
  have keys := linear.realTime k r k' op' pair (List.mem_map_of_mem ordered)
  have once := linear.once
  rw [split, List.map_append, List.map_cons] at keys once
  have apart := List.disjoint_of_nodup_append once
  have early : k' ∈ earlier.map Prod.fst := List.mem_map_of_mem (f := Prod.fst) member
  rcases List.cons_sublist_iff.mp keys with ⟨front, back, cut, first, second⟩
  have second := List.singleton_sublist.mp second
  rcases List.append_eq_append_iff.mp cut with ⟨middle, rfl, behind⟩ | ⟨middle, longer, rfl⟩
  · -- the later part begins before the cut, so the other call stands behind it
    exact apart early (behind ▸ List.mem_append_right _ second)
  · exact apart (longer ▸ List.mem_append_left _ first) List.mem_cons_self

/-- An order that explains the history also explains what the abstract object sees of it. -/
theorem abstract {σ' : Type*} {Op' : Type*} {Res' : Type*} {abstract : SharedObject σ' Op' Res'}
    {view : σ → σ'} {ops : Op → Op'} {results : Res → Res'}
    (abstracts : abstract.Abstracts object view ops results)
    (linear : Linearizes object history order state) :
    Linearizes abstract (history.map (CallEvent.map ops results))
      (order.map (Prod.map id (Prod.map ops results))) (view state) := by
  have calls : (order.map (Prod.map id (Prod.map ops results))).map Prod.snd =
      (order.map Prod.snd).map (Prod.map ops results) := by simp
  have keys : (order.map (Prod.map id (Prod.map ops results))).map Prod.fst =
      order.map (Prod.fst (β := Op × Res)) := by simp
  refine ⟨?_, ?_, ?_, ?_, ?_⟩
  · rw [calls]
    exact linear.legal.abstract abstracts
  · rw [keys]
    exact linear.once
  · intro k op' res' member
    rcases List.mem_map.mp member with ⟨⟨key, op, res⟩, found, same⟩
    cases same
    exact List.mem_map.mpr ⟨_, linear.invoked key op res found, rfl⟩
  · intro k res' member
    rcases List.mem_map.mp member with ⟨event, found, same⟩
    cases event with
    | invoke => cases same
    | respond key res =>
        cases same
        rcases linear.answered k res found with ⟨op, taken⟩
        exact ⟨ops op, List.mem_map.mpr ⟨_, taken, rfl⟩⟩
  · intro first res' second op' pair member
    rw [keys] at member ⊢
    rcases List.sublist_map_iff.mp pair with ⟨events, old, same⟩
    rcases List.map_eq_cons_iff.mp same.symm with ⟨response, rest, rfl, isResponse, others⟩
    rcases List.map_eq_singleton_iff.mp others with ⟨invocation, rfl, isInvocation⟩
    cases response with
    | invoke => cases isResponse
    | respond key res =>
        cases isResponse
        cases invocation with
        | respond => cases isInvocation
        | invoke key' op =>
            cases isInvocation
            exact linear.realTime first res second op old member

end Linearizes

end YfsRpc
