import YfsRpc.Rpc.Isolation
import YfsRpc.Rpc.RawSystem

/-! # At most once across instances

Each instance remembers only what it executed itself. A request that is not a `bind` names
the instance that its client was bound to, and only that one accepts it, so that no two
instances execute it.
-/

namespace YfsRpc.Rpc

/-- What is distinct in each list, and apart between any two, is distinct in all of them. -/
theorem nodup_filter_flatMap {α : Type u} {β : Type v} {κ : Type w} {list : List α}
    {parts : α → List β} {p : β → Bool} {key : β → κ}
    (each : ∀ x ∈ list, ((parts x).map key).Nodup)
    (apart : list.Pairwise fun first second =>
      ∀ r ∈ parts first, ∀ r' ∈ parts second, p r = true → p r' = true → key r ≠ key r') :
    (((list.flatMap parts).filter p).map key).Nodup := by
  induction list with
  | nil => exact List.nodup_nil
  | cons x rest induction =>
      rcases List.pairwise_cons.mp apart with ⟨first, later⟩
      rcases List.forall_mem_cons.mp each with ⟨here, others⟩
      rw [List.flatMap_cons, List.filter_append, List.map_append]
      apply List.Nodup.append
      · exact here.sublist (List.filter_sublist.map key)
      · exact induction others later
      · intro k left right
        rcases List.mem_map.mp left with ⟨r, member, same⟩
        rcases List.mem_map.mp right with ⟨r', member', same'⟩
        rcases List.mem_filter.mp member with ⟨inside, holds⟩
        rcases List.mem_filter.mp member' with ⟨found, holds'⟩
        rcases List.mem_flatMap.mp found with ⟨y, later, inside'⟩
        exact first y later r inside r' inside' holds holds' (same.trans same'.symm)

/-- No two executions of one instance are for the same key. -/
theorem Server.History.finished_keys {ι : Type} {issued : ι → List Request}
    {news : List (Nat × Nat)} {begun : List Request} {finished : List Execution}
    (history : History issued news begun finished) :
    (finished.map fun ex => ex.req.key).Nodup := by
  have keys : (begun.map Request.key).Nodup := by
    rw [history.keys]
    exact history.news_nodup
  have once : ((finished.map Execution.req).map Request.key).Nodup := by
    apply (List.nodup_map_iff_inj_on history.once).mpr
    intro r left r' right same
    rcases List.mem_map.mp left with ⟨ex, executed, rfl⟩
    rcases List.mem_map.mp right with ⟨ex', executed', rfl⟩
    exact List.inj_on_of_nodup_map keys (history.returned ex executed)
      (history.returned ex' executed') same
  rwa [List.map_map] at once

namespace Instances

variable {ι σ Local : Type}

/-- The instance that a step ends, as it was at its end. -/
def replaced (s : Instances ι σ Local) : Action ι σ → List (Server ι σ Local)
  | .restart .. => [s.system.server]
  | .run _ => []

/-- The machine that remembers the instances that are gone. -/
abbrev lineage [DecidableEq ι] (nonce : ι → Nat) (service : Service σ Local) (srvNonce : Nat) :
    Machine (Instances ι σ Local × List (Server ι σ Local)) (Action ι σ) :=
  (machine nonce service srvNonce).recording replaced

/-- No instance draws 0, and no client runs out of xids. -/
def Regular (s : Instances ι σ Local) : Action ι σ → Prop
  | .restart drawn _ => drawn ≠ 0
  | .run action => System.FewCalls s.system action

instance (s : Instances ι σ Local) : ∀ action, Decidable (Regular s action)
  | .restart drawn _ => inferInstanceAs (Decidable (drawn ≠ 0))
  | .run action => inferInstanceAs (Decidable (System.FewCalls s.system action))

/-- The instances that are gone, and the current one. -/
def servers (s : Instances ι σ Local) (gone : List (Server ι σ Local)) :
    List (Server ι σ Local) :=
  gone ++ [s.system.server]

/-- What any instance executed. -/
def finished (s : Instances ι σ Local) (gone : List (Server ι σ Local)) : List Execution :=
  (s.servers gone).flatMap (·.finished)

/-- What the handlers other than that of `bind` were called for. -/
def begun (s : Instances ι σ Local) (gone : List (Server ι σ Local)) : List Request :=
  ((s.servers gone).flatMap (·.begun)).filter fun r => r.proc ≠ RpcConst.bind

/-! ## The invariant -/

def Produced (s : Instances ι σ Local) (gone : List (Server ι σ Local)) (req : Request)
    (ret : Int) (payload : List UInt8) : Prop :=
  { req, ret, payload } ∈ s.finished gone

/-- Each instance that is gone keeps to itself what it executed. -/
structure Gone (nonce : ι → Nat) (s : Instances ι σ Local) (server : Server ι σ Local) : Prop where
  inv : server.Inv nonce s.system.issued
  matched : server.Matches
  known : server.nonce ∈ s.past

structure Descent (nonce : ι → Nat) (s : Instances ι σ Local) (gone : List (Server ι σ Local)) :
    Prop where
  clients : ∀ c, (s.system.clients c).Inv (nonce c) (s.Produced gone)
  replies : ∀ m ∈ s.system.replies, Genuine (s.finished gone) m.answer
  server : s.system.server.Inv nonce s.system.issued
  kept : ∀ server ∈ gone, Gone nonce s server
  apart : (gone.map (·.nonce)).Nodup
  fresh : s.system.server.nonce ∉ s.past
  traced : s.system.Traced nonce
  nonces : NoncesNonzero s
  matched : s.system.server.Matches

variable {nonce : ι → Nat} {service : Service σ Local} {srvNonce : Nat}
  {s next : Instances ι σ Local} {gone : List (Server ι σ Local)} {action : Action ι σ}

theorem Descent.issued (descent : Descent nonce s gone) : Issued nonce s.system.issued where
  cltNonce c := (descent.clients c).nonce
  xidRep c r member := ((descent.clients c).xidRep r member).1
  unique c := (descent.clients c).unique

/-- What the current instance executed was executed. -/
theorem finished_current (s : Instances ι σ Local) (gone : List (Server ι σ Local)) :
    s.system.server.finished ⊆ s.finished gone := by
  intro ex executed
  apply List.mem_flatMap.mpr
  exact ⟨s.system.server, List.mem_append_right _ (List.mem_singleton_self _), executed⟩

theorem finished_subset {system : System ι σ Local} (gone : List (Server ι σ Local))
    (more : s.system.server.finished ⊆ system.server.finished) :
    s.finished gone ⊆ { s with system }.finished gone := by
  intro ex executed
  rcases List.mem_flatMap.mp executed with ⟨server, member, found⟩
  rcases List.mem_append.mp member with old | current
  · exact List.mem_flatMap.mpr ⟨server, List.mem_append_left _ old, found⟩
  · rw [List.mem_singleton.mp current] at found
    exact finished_current { s with system } gone (more found)

theorem finished_restart {service : σ} :
    Instances.finished { system := { s.system with server := { nonce := srvNonce, service } }
                         past := s.system.server.nonce :: s.past }
      (gone ++ [s.system.server]) = s.finished gone := by
  simp [finished, servers]

variable [DecidableEq ι]

omit [DecidableEq ι] in
/-- A request packed for an instance with nonce 0 comes to no check. -/
theorem checked_of_traced (traced : s.system.Traced nonce) (nonces : NoncesNonzero s) :
    Checked s action := by
  cases action with
  | restart => trivial
  | run action =>
      cases action with
      | dispatch id choice isdead =>
          intro t current _ other zero
          have issued := (traced.server.threads id t current).1
          rcases (traced.clients _).packed t.req issued other with ⟨m, sent, _, sender, _⟩
          exact absurd (sender.trans zero) (nonces.2 m sent)
      | call | transmit | gotReply | finish | bind | cancel | gotRequest => trivial

theorem descent_initial (small : srvNonce < 2 ^ 31) (nonzero : srvNonce ≠ 0) :
    Descent nonce (machine nonce service srvNonce).initial [] where
  clients c := Client.initial_inv (nonce c) _
  replies := nofun
  server := Server.initial_inv nonce _ _ _
  kept := nofun
  apart := List.nodup_nil
  fresh := nofun
  traced := initial_traced small
  nonces := ⟨nonzero, nofun⟩
  matched := ⟨nofun, nofun⟩

/-- What the clients, the network and the current instance keep. -/
structure Kept (nonce : ι → Nat) (s : Instances ι σ Local) (gone : List (Server ι σ Local))
    (system : System ι σ Local) : Prop where
  clients : ∀ c, (system.clients c).Inv (nonce c) ({ s with system }.Produced gone)
  replies : ∀ m ∈ system.replies, Genuine ({ s with system }.finished gone) m.answer
  server : system.server.Inv nonce system.issued
  issued : ∀ c, s.system.issued c ⊆ system.issued c
  nonce : system.server.nonce = s.system.server.nonce

/-- A client takes a step that keeps its invariant. -/
theorem Descent.setClient (descent : Descent nonce s gone) {c : ι} {cl : Client}
    (kept : cl.Inv (nonce c) (s.Produced gone))
    (grown : (s.system.clients c).issued ⊆ cl.issued) :
    Kept nonce s gone (s.system.setClient c cl) where
  clients := System.forall_setClient (fun other cl => cl.Inv (nonce other) (s.Produced gone))
    kept descent.clients
  replies := descent.replies
  server := descent.server.mono (System.issued_setClient grown)
  issued := System.issued_setClient grown
  nonce := rfl

theorem Descent.run (descent : Descent nonce s gone) (distinct : Function.Injective nonce)
    (nonzero : ∀ c, nonce c ≠ 0) {action : System.Action ι} {system : System ι σ Local}
    (few : System.FewCalls s.system action)
    (stepped : System.Stepped nonce service s.system action system) : Kept nonce s gone system := by
  have same (c : ι) : s.system.issued c ⊆ s.system.issued c := List.Subset.refl _
  cases stepped with
  | call c proc payload cl done =>
      apply descent.setClient ((descent.clients c).call1 few done)
      rcases Client.call1_eq done with ⟨_, _, rfl⟩
      exact List.subset_append_left _ _
  | transmit c number serial createTime ca current =>
      exact ⟨descent.clients, descent.replies, descent.server, same, rfl⟩
  | gotReply c m sent dest =>
      subst dest
      have cause := (descent.traced.replies m sent).1
      have genuine := descent.replies m sent
      have own := descent.clients m.dest
      have range := own.range _ cause
      rw [← genuine.xid] at range
      apply descent.setClient (own.gotPdu range ?_)
      · rw [Client.issued_gotPdu]
        exact List.Subset.refl _
      · intro r member same valid
        rw [own.unique r member _ cause (same.trans genuine.xid)]
        exact genuine.result valid
  | finish c number cl done =>
      apply descent.setClient ((descent.clients c).finish done)
      rcases Client.finish_eq (descent.clients c) done with ⟨_, _, rfl⟩
      exact List.Subset.refl _
  | bind c ret cl done =>
      apply descent.setClient ((descent.clients c).bind done)
      rcases Client.bind_eq done with ⟨_, _, _, rfl⟩
      exact List.Subset.refl _
  | cancel c => exact descent.setClient (descent.clients c).cancel (List.Subset.refl _)
  | gotRequest id conn req server sent done =>
      have kept := descent.server.gotPdu (descent.traced.requests conn req sent) done
      rcases Server.gotPdu_eq done with ⟨_, rfl⟩
      have more : s.finished gone ⊆ Instances.finished { s with system := { s.system with
          server := { s.system.server with
            threads := Function.update s.system.server.threads id
              (some { conn, req, pc := .received }) } } } gone :=
        finished_subset gone (List.Subset.refl _)
      refine ⟨?_, ?_, kept, same, rfl⟩
      · exact fun c => (descent.clients c).mono fun _ _ _ produced => more produced
      · exact fun m sent => (descent.replies m sent).mono more
  | dispatch id choice isdead server sent t current done =>
      have more : s.finished gone ⊆ Instances.finished { s with system := { s.system with
          server, replies := s.system.replies ++ sent.toList } } gone :=
        finished_subset gone done.finished_subset
      refine ⟨?_, ?_, ?_, same, done.nonce_eq⟩
      · exact fun c => (descent.clients c).mono fun _ _ _ produced => more produced
      · intro m member
        rcases List.mem_append.mp member with old | new
        · exact (descent.replies m old).mono more
        · have genuine := (descent.server.sent current done m (by simpa using new)).2
          exact genuine.mono fun _ executed => more (finished_current s gone executed)
      · exact descent.server.dispatched descent.issued distinct nonzero current done

theorem Descent.step (descent : Descent nonce s gone) (distinct : Function.Injective nonce)
    (nonzero : ∀ c, nonce c ≠ 0) (regular : Regular s action)
    (taken : step nonce service s action = some next) :
    Descent nonce next (gone ++ s.replaced action) := by
  have own : Server.DistinctNonces nonce := fun _ _ same _ => distinct same
  have traced := traced_step descent.traced own taken
  have matched := matches_step descent.matched
    (checked_of_traced descent.traced descent.nonces) taken
  cases action with
  | run action =>
      have drawn : NonzeroRestart s (.run action) := trivial
      have nonces := nonzero_step descent.traced descent.nonces drawn taken
      rcases Option.map_eq_some_iff.mp taken with ⟨system, stepped, rfl⟩
      have kept := descent.run distinct nonzero regular (System.step_cases stepped)
      rw [replaced, List.append_nil]
      exact {
        clients := kept.clients
        replies := kept.replies
        server := kept.server
        kept := fun server member =>
          have before := descent.kept server member
          ⟨before.inv.mono kept.issued, before.matched, before.known⟩
        apart := descent.apart
        fresh := kept.nonce ▸ descent.fresh
        traced
        nonces
        matched }
  | restart drawn state =>
      have positive : NonzeroRestart s (.restart drawn state) := regular
      have nonces := nonzero_step descent.traced descent.nonces positive taken
      simp only [Instances.step] at taken
      split at taken
      · next new =>
          cases taken
          change Descent nonce _ (gone ++ [s.system.server])
          constructor
          · intro c
            apply (descent.clients c).mono
            intro _ _ _ produced
            unfold Produced
            rw [finished_restart]
            exact produced
          · intro m sent
            rw [finished_restart]
            exact descent.replies m sent
          · exact Server.initial_inv nonce _ _ _
          · intro server member
            rcases List.mem_append.mp member with old | last
            · have before := descent.kept server old
              exact ⟨before.inv, before.matched, List.mem_cons_of_mem _ before.known⟩
            · rw [List.mem_singleton.mp last]
              exact ⟨descent.server, descent.matched, List.mem_cons_self ..⟩
          · rw [List.map_append]
            apply List.Nodup.append descent.apart (List.nodup_singleton _)
            intro n old last
            rcases List.mem_map.mp old with ⟨server, member, same⟩
            have known := (descent.kept server member).known
            rw [same, List.mem_singleton.mp last] at known
            exact descent.fresh known
          · rw [List.mem_cons, not_or]
            exact new.2
          · exact traced
          · exact nonces
          · exact matched
      · contradiction

theorem reachable_descent (distinct : Function.Injective nonce) (nonzero : ∀ c, nonce c ≠ 0)
    (small : srvNonce < 2 ^ 31) (positive : srvNonce ≠ 0)
    {r : Instances ι σ Local × List (Server ι σ Local)}
    (reachable : (lineage nonce service srvNonce).ReachableUnder (fun r => Regular r.1) r) :
    Descent nonce r.1 r.2 := by
  apply reachable.invariant (fun r => Descent nonce r.1 r.2) (descent_initial small positive)
  intro r action after _ descent regular taken
  rcases Option.map_eq_some_iff.mp taken with ⟨next, stepped, rfl⟩
  exact descent.step distinct nonzero regular stepped

/-! ## Executed once -/

omit [DecidableEq ι] in
/-- Of two different instances at most one executed a request. -/
theorem Descent.disjoint (descent : Descent nonce s gone) (distinct : Function.Injective nonce) :
    (s.servers gone).Pairwise fun first second =>
      ∀ r ∈ first.begun, ∀ r' ∈ second.begun, r.proc ≠ RpcConst.bind →
        r'.proc ≠ RpcConst.bind → r.key ≠ r'.key := by
  have all (server : Server ι σ Local) (member : server ∈ s.servers gone) :
      server.Inv nonce s.system.issued ∧ server.Matches := by
    rcases List.mem_append.mp member with old | current
    · exact ⟨(descent.kept server old).inv, (descent.kept server old).matched⟩
    · rw [List.mem_singleton.mp current]
      exact ⟨descent.server, descent.matched⟩
  have apart : ((s.servers gone).map (·.nonce)).Nodup := by
    rw [servers, List.map_append]
    apply List.Nodup.append descent.apart (List.nodup_singleton _)
    intro n old last
    rcases List.mem_map.mp old with ⟨server, member, same⟩
    have known := (descent.kept server member).known
    rw [same, List.mem_singleton.mp last] at known
    exact descent.fresh known
  apply (List.pairwise_map.mp apart).imp_of_mem
  intro first second member member' differs r begun r' begun' other other' same
  rcases (all first member).1.history.known r begun with ⟨c, issued⟩
  rcases (all second member').1.history.known r' begun' with ⟨c', issued'⟩
  rw [Request.key, Request.key, Prod.mk.injEq, descent.issued.cltNonce c r issued,
    descent.issued.cltNonce c' r' issued'] at same
  cases distinct same.1
  cases descent.issued.unique c r issued r' issued' same.2
  have left := (all first member).2.begun r begun other
  have right := (all second member').2.begun r begun' other
  exact differs (left.symm.trans right)

omit [DecidableEq ι] in
theorem Descent.server_inv (descent : Descent nonce s gone) {server : Server ι σ Local}
    (member : server ∈ s.servers gone) : server.Inv nonce s.system.issued := by
  rcases List.mem_append.mp member with old | current
  · exact (descent.kept server old).inv
  · rw [List.mem_singleton.mp current]
    exact descent.server

omit [DecidableEq ι] in
theorem Descent.begun_once (descent : Descent nonce s gone)
    (distinct : Function.Injective nonce) : ((s.begun gone).map Request.key).Nodup := by
  apply nodup_filter_flatMap
  · intro server member
    have history := (descent.server_inv member).history
    rw [history.keys]
    exact history.news_nodup
  · refine (descent.disjoint distinct).imp fun apart r begun r' begun' other other' => ?_
    exact apart r begun r' begun' (of_decide_eq_true other) (of_decide_eq_true other')

omit [DecidableEq ι] in
theorem Descent.finished_once (descent : Descent nonce s gone)
    (distinct : Function.Injective nonce) :
    (((s.finished gone).filter fun ex => ex.req.proc ≠ RpcConst.bind).map
      fun ex => ex.req.key).Nodup := by
  apply nodup_filter_flatMap
  · exact fun server member => (descent.server_inv member).history.finished_keys
  · apply (descent.disjoint distinct).imp_of_mem
    intro first second member member' apart ex executed ex' executed' other other'
    have begun := (descent.server_inv member).history.returned ex executed
    have begun' := (descent.server_inv member').history.returned ex' executed'
    exact apart ex.req begun ex'.req begun' (of_decide_eq_true other) (of_decide_eq_true other')

/-- A call that returns a result, `bind` apart, was executed by one instance, once, and
returns what this execution produced. -/
theorem returned_once_ever (distinct : Function.Injective nonce) (nonzero : ∀ c, nonce c ≠ 0)
    (small : srvNonce < 2 ^ 31) (positive : srvNonce ≠ 0)
    (reachable : (lineage nonce service srvNonce).ReachableUnder (fun r => Regular r.1) (s, gone))
    {c : ι} {ret : Return} (returned : ret ∈ (s.system.clients c).returned)
    (other : ret.req.proc ≠ RpcConst.bind) (valid : 0 ≤ ret.ret) :
    ((s.finished gone).filter fun ex => ex.req.key = ret.req.key) =
      [{ req := ret.req, ret := ret.ret, payload := ret.payload }] := by
  have descent := reachable_descent distinct nonzero small positive reachable
  rcases (descent.clients c).returned ret returned with ⟨issued, result⟩
  have executed := result valid
  -- what has the same key is the same request, and so is not a `bind`
  have unbound (ex : Execution) (member : ex ∈ s.finished gone)
      (same : ex.req.key = ret.req.key) : ex.req.proc ≠ RpcConst.bind := by
    rcases List.mem_flatMap.mp member with ⟨server, found, inside⟩
    have history := (descent.server_inv found).history
    rcases history.known _ (history.returned ex inside) with ⟨c', issued'⟩
    rw [Request.key, Request.key, Prod.mk.injEq, descent.issued.cltNonce c' _ issued',
      descent.issued.cltNonce c _ issued] at same
    cases distinct same.1
    rw [descent.issued.unique c _ issued' _ issued same.2]
    exact other
  have once := filter_key_eq (descent.finished_once distinct)
    (List.mem_filter.mpr ⟨executed, decide_eq_true other⟩)
  rw [List.filter_filter] at once
  rw [← once]
  apply List.filter_congr
  intro ex member
  by_cases same : ex.req.key = ret.req.key
  · simp [same, unbound ex member same]
  · simp [same]

open YfsRpc.Rpc.System (echo echoConn bindRequest)

def echoLineage : Machine (Instances Unit Unit (List UInt8) × List (Server Unit Unit (List UInt8)))
    (Action Unit Unit) :=
  lineage (fun _ => 5) echo 9

/-- The first instance executes the request and is replaced; the second one gets it again
and refuses it, and the call returns with the reply of the first one. -/
def replacedBetween : List (Action Unit Unit) :=
  bindThenCall 9 [0, 0, 0, 9] ++ serve (echoRequest 9) ++
    [.restart 10 (), .run (.gotRequest 0 echoConn (echoRequest 9)), .run (.dispatch 0 0 false),
      .run (.dispatch 0 0 false),
      .run (.gotReply () {
        dest := ()
        answer := { cause := echoRequest 9, reply := { xid := 2, ret := 0, payload := [1] } }
        nonce := 9 }),
      .run (.finish () 2)]

theorem replacedBetween_reachable :
    ∃ s gone, echoLineage.ReachableUnder (fun r => Regular r.1) (s, gone) ∧
      s.system.server.nonce = 10 ∧ s.begun gone = [echoRequest 9] ∧
      (s.system.clients ()).returned.drop 1 =
        [{ req := echoRequest 9, ret := 0, payload := [1] }] := by
  have run : ((echoLineage.restrict fun r => Regular r.1).run echoLineage.initial
      replacedBetween).map (fun r => (r.1.system.server.nonce, r.1.begun r.2,
        (r.1.system.clients ()).returned.drop 1)) =
      some (10, [echoRequest 9], [{ req := echoRequest 9, ret := 0, payload := [1] }]) := by
    decide +kernel
  rcases Option.map_eq_some_iff.mp run with ⟨⟨s, gone⟩, taken, values⟩
  rcases Prod.mk.inj values with ⟨drawn, values⟩
  rcases Prod.mk.inj values with ⟨begun, returned⟩
  exact ⟨s, gone, Machine.reachableUnder_of_run taken, drawn, begun, returned⟩

end Instances

/-! ## Replies in memory -/

/-- The system whose current instance has its replies in memory, and the nonces of the
instances before it. -/
structure RawInstances (ι σ Local : Type) where
  system : RawSystem ι σ Local
  past : List Nat := []

namespace RawInstances

variable {ι σ Local : Type}

/-- What one sees through the pointers of the current instance. -/
def view (s : RawInstances ι σ Local) : Instances ι σ Local where
  system := s.system.view
  past := s.past

variable [DecidableEq ι]

/-- An action, and the block that the handler which returns gets for its reply. -/
def step (nonce : ι → Nat) (service : Service σ Local) (s : RawInstances ι σ Local) :
    Instances.Action ι σ × Nat → Option (RawInstances ι σ Local)
  | (.run action, block) => (s.system.step nonce service (action, block)).map fun system =>
      { s with system }
  | (.restart srvNonce state, _) =>
      if srvNonce < 2 ^ 31 ∧ srvNonce ≠ s.system.server.nonce ∧ srvNonce ∉ s.past then
        some {
          system := { s.system with server := { nonce := srvNonce, service := state } }
          past := s.system.server.nonce :: s.past }
      else
        none

def machine (nonce : ι → Nat) (service : Service σ Local) (srvNonce : Nat) :
    Machine (RawInstances ι σ Local) (Instances.Action ι σ × Nat) where
  initial := { system := (RawSystem.machine nonce service srvNonce).initial }
  step := step nonce service

/-- The machine that remembers what the instances that are gone showed. -/
abbrev lineage (nonce : ι → Nat) (service : Service σ Local) (srvNonce : Nat) :
    Machine (RawInstances ι σ Local × List (Server ι σ Local)) (Instances.Action ι σ × Nat) :=
  (machine nonce service srvNonce).recording fun s action => s.view.replaced action.1

/-- A check frees no buffer that is being sent. -/
def Delivered (s : RawInstances ι σ Local) : Instances.Action ι σ × Nat → Prop
  | (.run action, block) => s.system.Delivered (action, block)
  | (.restart .., _) => True

/-- No instance draws 0, no client runs out of xids, and no reply is freed while it is being
sent. -/
def Careful (s : RawInstances ι σ Local) (action : Instances.Action ι σ × Nat) : Prop :=
  s.view.Regular action.1 ∧ s.Delivered action

instance (s : RawInstances ι σ Local) : ∀ action, Decidable (Delivered s action)
  | (.run action, block) => inferInstanceAs (Decidable (s.system.Delivered (action, block)))
  | (.restart .., _) => instDecidableTrue

instance (s : RawInstances ι σ Local) (action : Instances.Action ι σ × Nat) :
    Decidable (Careful s action) :=
  inferInstanceAs (Decidable (_ ∧ _))

variable {nonce : ι → Nat} {service : Service σ Local} {srvNonce : Nat}
  {s next : RawInstances ι σ Local} {gone : List (Server ι σ Local)}

theorem careful_step {action : Instances.Action ι σ × Nat} (kept : s.system.server.Kept)
    (careful : s.Careful action) (taken : s.step nonce service action = some next) :
    next.system.server.Kept ∧ s.view.Regular action.1 ∧
      s.view.step nonce service action.1 = some next.view := by
  rcases action with ⟨action, block⟩
  cases action with
  | run action =>
      rcases Option.map_eq_some_iff.mp taken with ⟨system, stepped, rfl⟩
      have after := RawSystem.kept_step kept careful.2 stepped
      exact ⟨after, careful.1,
        Option.map_eq_some_iff.mpr ⟨_, RawSystem.step_view kept after stepped, rfl⟩⟩
  | restart drawn state =>
      simp only [step] at taken
      split at taken
      · next admitted =>
          cases taken
          have admitted' : drawn < 2 ^ 31 ∧ drawn ≠ s.view.system.server.nonce ∧
              drawn ∉ s.view.past := admitted
          refine ⟨RawServer.kept_initial drawn state, careful.1, ?_⟩
          simp only [Instances.step, if_pos admitted']
          rfl
      · contradiction

theorem recorded_view
    (reachable : (lineage nonce service srvNonce).ReachableUnder (fun r => Careful r.1) (s, gone)) :
    (Instances.lineage nonce service srvNonce).ReachableUnder (fun r => Instances.Regular r.1)
      (s.view, gone) := by
  refine Machine.ReachableUnder.recorded_view (fun s => s.system.server.Kept) view Prod.fst
    ?_ ?_ ?_ reachable
  · exact RawServer.kept_initial srvNonce service.initial
  · rfl
  · exact fun _ _ _ kept careful taken => careful_step kept careful taken

/-- A call that returns a result, `bind` apart, was executed by one instance, once, and
returns what this execution produced. -/
theorem returned_by_one_instance (distinct : Function.Injective nonce)
    (nonzero : ∀ c, nonce c ≠ 0) (small : srvNonce < 2 ^ 31) (positive : srvNonce ≠ 0)
    (reachable : (lineage nonce service srvNonce).ReachableUnder (fun r => Careful r.1) (s, gone))
    {c : ι} {ret : Return} (returned : ret ∈ (s.system.clients c).returned)
    (other : ret.req.proc ≠ RpcConst.bind) (valid : 0 ≤ ret.ret) :
    ((s.view.finished gone).filter fun ex => ex.req.key = ret.req.key) =
      [{ req := ret.req, ret := ret.ret, payload := ret.payload }] :=
  Instances.returned_once_ever distinct nonzero small positive (recorded_view reachable) returned
    other valid

open YfsRpc.Rpc.Instances (echoRequest replacedBetween)

theorem returned_by_one_instance_replacedBetween :
    ∃ s gone, (lineage (fun _ : Unit => 5) YfsRpc.Rpc.System.echo 9).ReachableUnder
        (fun r => Careful r.1) (s, gone) ∧ s.system.server.nonce = 10 ∧
      ((s.view.finished gone).filter fun ex => ex.req.key = (echoRequest 9).key) =
        [{ req := echoRequest 9, ret := 0, payload := [1] }] := by
  let machine := lineage (fun _ : Unit => 5) YfsRpc.Rpc.System.echo 9
  have run : ((machine.restrict fun r => Careful r.1).run machine.initial
      (replacedBetween.zipIdx)).map (fun r => (r.1.system.server.nonce,
        (r.1.system.clients ()).returned.drop 1)) =
      some (10, [{ req := echoRequest 9, ret := 0, payload := [1] }]) := by
    decide +kernel
  rcases Option.map_eq_some_iff.mp run with ⟨⟨s, gone⟩, taken, values⟩
  rcases Prod.mk.inj values with ⟨drawn, returned⟩
  have reachable := Machine.reachableUnder_of_run taken
  have member : { req := echoRequest 9, ret := 0, payload := [1] } ∈
      (s.system.clients ()).returned := List.mem_of_mem_drop (returned ▸ List.mem_singleton_self _)
  exact ⟨s, gone, reachable, drawn, returned_by_one_instance
    (Function.injective_of_subsingleton _) (fun _ => by decide) (by decide) (by decide) reachable
    member (by decide) (by decide)⟩

end RawInstances

end YfsRpc.Rpc
