import YfsRpc.Rpc.RawSafety

/-! # The system with the reply buffers in memory

The clients and the network are those of the system whose replies are values; the server
sends what its blocks hold. As long as no check frees a buffer that is being sent, every run
is one of the system of values.
-/

namespace YfsRpc.Rpc

namespace RawServer

variable {ι σ Local : Type} {s next : RawServer ι σ Local} {id : Nat} {t : RawThread ι Local}

/-! ## A step of `dispatch` under the view -/

theorem view_goto (s : RawServer ι σ Local) (id : Nat) (t : RawThread ι Local)
    (pc : RawPc ι Local) :
    (s.goto id t pc).view = s.view.goto id (t.view s.shows) (pc.view s.shows t.conn) :=
  viewWith_goto ..

theorem check_view (service : Service σ Local) (s : RawServer ι σ Local) (id : Nat)
    (t : RawThread ι Local) :
    (s.check service id t).view = s.view.check service id (t.view s.shows) := by
  have shown : (s.check service id t).shows = s.shows := by
    unfold check
    split
    · rfl
    · split
      · rfl
      · split <;> rfl
  unfold view
  rw [shown]
  unfold check Server.check
  change (if t.req.srvNonce ≠ 0 ∧ t.req.srvNonce ≠ s.nonce then _ else _ :
    RawServer ι σ Local).viewWith _ = if t.req.srvNonce ≠ 0 ∧ t.req.srvNonce ≠ s.nonce then _ else _
  split
  · exact viewWith_goto ..
  · change (if t.req.proc ≠ RpcConst.bind ∧ ¬ service.registered t.req.proc then _ else _ :
      RawServer ι σ Local).viewWith _ =
        if t.req.proc ≠ RpcConst.bind ∧ ¬ service.registered t.req.proc then _ else _
    split
    · exact viewWith_exit ..
    · change (if t.req.cltNonce ≠ 0 then _ else _ : RawServer ι σ Local).viewWith _ =
        if t.req.cltNonce ≠ 0 then _ else _
      split
      · exact viewWith_goto ..
      · exact viewWith_invoke ..

theorem saveConn_view (s : RawServer ι σ Local) (id : Nat) (t : RawThread ι Local) :
    (s.saveConn id t).view = s.view.saveConn id (t.view s.shows) :=
  viewWith_goto ..

/-- What is freed is pointed to by nobody afterwards. -/
theorem view_of_freed (kept : Kept next) {buffers : List Nat}
    (heap : next.heap = (s.free buffers).heap) : next.view = next.viewWith s.shows := by
  apply viewWith_congr
  intro b refers
  have lives := kept.live b refers
  rw [heap] at lives
  have spared : b ∉ buffers := fun freed => lives (if_pos freed)
  unfold shows
  rw [heap]
  exact congrArg (Option.getD · default) (if_neg spared)

theorem classify_view {service : Service σ Local} (kept : Kept next)
    (done : s.classify service id t = some next) :
    s.view.classify service id (t.view s.shows) = some next.view := by
  have updates (buffers : List Nat) (updated : List (ReplyT Nat)) :
      s.view.updateWindow t.req.cltNonce (updated.map (ReplyT.map s.shows)) =
        ((s.free buffers).updateWindow t.req.cltNonce updated).viewWith s.shows :=
    (viewWith_updateWindow s.shows (s.free buffers) t.req.cltNonce updated).symm
  cases result : checkduplicateAndUpdate (s.replyWindow t.req.cltNonce) t.req.xid t.req.xidRep with
  | mk stat updated =>
      have viewed : checkduplicateAndUpdate (s.view.replyWindow (t.view s.shows).req.cltNonce)
          (t.view s.shows).req.xid (t.view s.shows).req.xidRep =
            (stat.map s.shows, updated.map (ReplyT.map s.shows)) := by
        have mapped := checkduplicateAndUpdate_map (f := s.shows)
          (s.replyWindow t.req.cltNonce) t.req.xid t.req.xidRep
        rw [result] at mapped
        exact mapped
      simp only [classify, result] at done
      simp only [Server.classify, viewed]
      cases stat with
      | new =>
          cases done
          rw [view_of_freed kept rfl, viewWith_invoke]
          exact congrArg (fun v : Server ι σ Local => some ({ v with
            news := v.news ++ [t.req.key] }.invoke service id (t.view s.shows))) (updates _ updated)
      | inprogress =>
          cases done
          rw [view_of_freed kept rfl, viewWith_exit]
          exact congrArg (fun v : Server ι σ Local => some (v.exit id)) (updates _ updated)
      | done buffer =>
          cases buffer with
          | none => contradiction
          | some b1 =>
              cases done
              rw [view_of_freed kept rfl, viewWith_goto]
              exact congrArg (fun v : Server ι σ Local => some (v.goto id (t.view s.shows)
                (.sending t.conn (s.shows b1)))) (updates _ updated)
      | forgotten =>
          cases done
          rw [view_of_freed kept rfl, viewWith_goto]
          exact congrArg (fun v : Server ι σ Local => some (v.goto id (t.view s.shows)
            (.sending t.conn (Server.refuse t.req RpcConst.atmostonceFailure)))) (updates _ updated)

/-- A block that was free is not pointed to before the reply is packed into it. -/
theorem finishHandler_view (kept : Kept s) {ret : Int} {payload : List UInt8} {block : Nat}
    (done : s.finishHandler id t ret payload block = some next) :
    s.view.finishHandler id (t.view s.shows) ret payload = next.view := by
  unfold finishHandler at done
  dsimp only at done
  split at done
  · next free =>
      have same : s.viewWith next.shows = s.view := by
        apply viewWith_congr
        intro b refers
        have differs : b ≠ block := fun same => kept.live b refers (same ▸ free)
        cases done
        exact congrArg (Option.getD · default) (Function.update_of_ne differs _ s.heap)
      have packed : next.shows block =
          { cause := t.req, reply := { xid := t.req.xid, ret, payload } } := by
        cases done
        exact congrArg (Option.getD · default) (Function.update_self block _ s.heap)
      unfold view
      generalize next.shows = f at same packed ⊢
      cases done
      rw [viewWith_goto]
      change s.view.finishHandler id (t.view s.shows) ret payload =
        Server.goto { s.viewWith f with finished := s.finished ++ [_] } id _ (.replying (f block))
      rw [same, packed]
      rfl
  · contradiction

theorem handle_view {service : Service σ Local} {h : Running Local} {choice block : Nat}
    (kept : Kept s) (done : s.handle service id t h choice block = some next) :
    s.view.handle service id (t.view s.shows) h choice = some next.view := by
  unfold handle at done
  unfold Server.handle
  cases h with
  | rpcbind =>
      simp only at done ⊢
      split at done
      · next valid =>
          have accepted : (Server.rpcbind s.view.nonce (t.view s.shows).req.payload).1 ≥ 0 ∨
              (Server.rpcbind s.view.nonce (t.view s.shows).req.payload).1 =
                RpcConst.unmarshalArgsFailure := valid
          rw [if_pos accepted]
          exact congrArg some (finishHandler_view kept done)
      · contradiction
  | user l =>
      have service_view : s.view.service = s.service := rfl
      cases resumed : service.resume s.service l choice with
      | none =>
          simp only [resumed] at done
          contradiction
      | some result =>
          rcases result with ⟨state, later | ⟨ret, payload⟩⟩
          · simp only [resumed] at done
            simp only [service_view, resumed]
            cases done
            exact congrArg some
              (view_goto { s with service := state } id t (.handling (.user later))).symm
          · simp only [resumed] at done
            simp only [service_view, resumed]
            split at done
            · next valid =>
                have entered : Kept { s with service := state } :=
                  ⟨kept.ascending, kept.live, kept.single, kept.home, kept.own, kept.tracked⟩
                simp only [if_pos valid]
                exact congrArg some (finishHandler_view entered done)
            · contradiction

theorem record_view (kept : Kept s) (held : s.threads.held id = some t) {b1 : Nat}
    (place : t.pc = .replying b1) :
    s.view.record id (t.view s.shows) (s.shows b1) = (s.record id t b1).view := by
  rcases Option.ne_none_iff_exists'.mp
    (kept.live b1 (Or.inr ⟨id, t, held, by rw [place]; rfl⟩)) with ⟨a, packed⟩
  have shown : (s.heap b1).toList = [s.shows b1] := by
    unfold shows
    rw [packed]
    rfl
  unfold record Server.record
  by_cases positive : t.req.cltNonce > 0
  · have tracked : (t.view s.shows).req.cltNonce > 0 := positive
    rw [if_pos positive, if_pos tracked]
    have goes := view_goto { s.updateWindow t.req.cltNonce
      (addReply t.req.xid b1 (s.replyWindow t.req.cltNonce)) with
        recorded := s.recorded ++ (s.heap b1).toList } id t (.choosing b1)
    refine Eq.trans ?_ goes.symm
    refine congrArg (fun v : Server ι σ Local => v.goto id (t.view s.shows)
      (.choosing (s.shows b1))) ?_
    change { s.view.updateWindow t.req.cltNonce (addReply t.req.xid (s.shows b1)
        ((s.replyWindow t.req.cltNonce).map (ReplyT.map s.shows))) with
          recorded := s.recorded ++ [s.shows b1] : Server ι σ Local } =
      { (s.updateWindow t.req.cltNonce _).viewWith s.shows with
          recorded := s.recorded ++ (s.heap b1).toList }
    rw [viewWith_updateWindow, addReply_map, shown]
    rfl
  · have untracked : ¬ (t.view s.shows).req.cltNonce > 0 := positive
    rw [if_neg positive, if_neg untracked]
    exact (viewWith_goto s.shows s id t (.choosing b1)).symm

theorem chooseConn_view [DecidableEq ι] {b1 : Nat} {isdead : Bool}
    (done : s.chooseConn id t b1 isdead = some next) :
    s.view.chooseConn id (t.view s.shows) (s.shows b1) isdead = some next.view := by
  have conns : s.view.conns (t.view s.shows).req.cltNonce = s.conns t.req.cltNonce := rfl
  have conn : (t.view s.shows).conn = t.conn := rfl
  unfold chooseConn at done
  unfold Server.chooseConn
  rw [conns, conn]
  split at done
  · next dead =>
      rcases Option.map_eq_some_iff.mp done with ⟨c, latest, rfl⟩
      rw [if_pos dead, latest]
      exact congrArg some (view_goto s id t (.sending c b1)).symm
  · next alive =>
      cases done
      rw [if_neg alive]
      exact congrArg some (view_goto s id t (.sending t.conn b1)).symm

/-- The same step, with the same message, is one of the server of values. -/
theorem dispatch_view [DecidableEq ι] {service : Service σ Local} {choice block : Nat}
    {isdead : Bool} {sent : Option (Message ι)} (kept : Kept s) (after : Kept next)
    (done : s.dispatch service id choice isdead block = some (next, sent)) :
    s.view.dispatch service id choice isdead = some (next.view, sent) := by
  unfold dispatch at done
  unfold Server.dispatch
  cases held : s.threads.held id with
  | none =>
      rw [held] at done
      contradiction
  | some t =>
      have current : s.view.threads id = some (t.view s.shows) := by
        change (s.threads.held id).map _ = _
        rw [held]
        rfl
      rw [held] at done
      rw [current]
      have viewed {pc : RawPc ι Local} (place : t.pc = pc) :
          (t.view s.shows).pc = pc.view s.shows t.conn := by
        rw [← place]
        rfl
      cases place : t.pc with
      | received =>
          simp only [place] at done
          cases done
          simp only [viewed place, RawPc.view, check_view]
      | saving =>
          simp only [place] at done
          cases done
          simp only [viewed place, RawPc.view, saveConn_view]
      | checking =>
          simp only [place] at done
          rcases Option.map_eq_some_iff.mp done with ⟨_, stepped, same⟩
          cases same
          simp only [viewed place, RawPc.view, classify_view after stepped, Option.map_some]
      | handling h =>
          simp only [place] at done
          rcases Option.map_eq_some_iff.mp done with ⟨_, stepped, same⟩
          cases same
          simp only [viewed place, RawPc.view, handle_view kept stepped, Option.map_some]
      | replying b1 =>
          simp only [place] at done
          cases done
          simp only [viewed place, RawPc.view, record_view kept held place]
      | choosing b1 =>
          simp only [place] at done
          rcases Option.map_eq_some_iff.mp done with ⟨_, stepped, same⟩
          cases same
          simp only [viewed place, RawPc.view, chooseConn_view stepped, Option.map_some]
      | sending c b1 =>
          simp only [place] at done
          rcases Option.map_eq_some_iff.mp done with ⟨a, reads, same⟩
          have shown : s.shows b1 = a := by
            unfold shows
            rw [reads]
            rfl
          simp only [viewed place, RawPc.view, shown]
          split at same
          · cases same
            rw [view_of_freed after rfl, viewWith_exit]
            rfl
          · cases same
            exact congrArg (fun v => some (v, _)) (viewWith_exit s.shows s id).symm
      | refusing a =>
          simp only [place] at done
          cases done
          simp only [viewed place, RawPc.view]
          exact congrArg (fun v => some (v, _)) (viewWith_exit s.shows s id).symm

theorem gotPdu_view {conn : Conn ι} {req : Request} (done : s.gotPdu id conn req = some next) :
    s.view.gotPdu id conn req = some next.view := by
  unfold gotPdu at done
  split at done
  · contradiction
  · next free =>
      cases done
      have idle : s.view.threads id = none := by
        change (s.threads.held id).map _ = none
        rw [free]
        rfl
      unfold Server.gotPdu
      rw [idle]
      have filled : Function.update s.view.threads id (some { conn, req, pc := .received }) =
          fun other => ((s.threads.set id (some { conn, req, pc := .received })).held other).map
            (RawThread.view s.shows) :=
        funext fun other => (Function.apply_update (fun _ => Option.map (RawThread.view s.shows))
          s.threads.held id (some { conn, req, pc := .received }) other).symm
      exact congrArg (fun threads => some { s.view with threads }) filled

end RawServer

/-! ## The system -/

structure RawSystem (ι σ Local : Type) where
  clients : ι → Client
  server : RawServer ι σ Local
  requests : List (Conn ι × Request) := []
  replies : List (Message ι) := []

namespace RawSystem

variable {ι σ Local : Type}

/-- What one sees through the pointers of the server. -/
def view (s : RawSystem ι σ Local) : System ι σ Local where
  clients := s.clients
  server := s.server.view
  requests := s.requests
  replies := s.replies

section Step

variable [DecidableEq ι]

instance lawfulBEq_message : LawfulBEq (Message ι) := inferInstance

def setClient (s : RawSystem ι σ Local) (c : ι) (cl : Client) : RawSystem ι σ Local :=
  { s with clients := Function.update s.clients c cl }

/-- An action, and the block that the handler which returns gets for its reply. -/
def step (nonce : ι → Nat) (service : Service σ Local) (s : RawSystem ι σ Local) :
    System.Action ι × Nat → Option (RawSystem ι σ Local)
  | (.call c proc payload, _) =>
      ((s.clients c).call1 (nonce c) proc payload).map (s.setClient c)
  | (.transmit c number serial createTime, _) =>
      ((s.clients c).callers number).map fun ca =>
        { s with requests := s.requests ++ [({ client := c, serial, createTime }, ca.req)] }
  | (.gotReply c m, _) =>
      if m ∈ s.replies ∧ m.dest = c then
        some (s.setClient c ((s.clients c).gotPdu m.answer.reply))
      else
        none
  | (.finish c number, _) => ((s.clients c).finish number).map (s.setClient c)
  | (.bind c ret, _) => ((s.clients c).bind ret).map (s.setClient c)
  | (.cancel c, _) => some (s.setClient c (s.clients c).cancel)
  | (.gotRequest id conn req, _) =>
      if (conn, req) ∈ s.requests then
        (s.server.gotPdu id conn req).map fun server => { s with server }
      else
        none
  | (.dispatch id choice isdead, block) =>
      (s.server.dispatch service id choice isdead block).map fun (server, sent) =>
        { s with server, replies := s.replies ++ sent.toList }

/-- The instance of the server starts with the given nonce. -/
def machine (nonce : ι → Nat) (service : Service σ Local) (srvNonce : Nat) :
    Machine (RawSystem ι σ Local) (System.Action ι × Nat) where
  initial := {
    clients := fun _ => {}
    server := { nonce := srvNonce, service := service.initial } }
  step := step nonce service

/-- The client of a `call` issues fewer than 2^32 - 1 calls, this one included. -/
def FewCalls (s : RawSystem ι σ Local) (action : System.Action ι × Nat) : Prop :=
  s.view.FewCalls action.1

/-- A check frees no buffer that is being sent. -/
def Delivered (s : RawSystem ι σ Local) : System.Action ι × Nat → Prop
  | (.dispatch id _ _, _) => s.server.Delivered id
  | _ => True

/-- Few calls, and no reply that is freed while it is being sent. -/
def Careful (s : RawSystem ι σ Local) (action : System.Action ι × Nat) : Prop :=
  s.FewCalls action ∧ s.Delivered action

instance (s : RawSystem ι σ Local) (action : System.Action ι × Nat) :
    Decidable (FewCalls s action) := by
  unfold FewCalls
  infer_instance

instance (s : RawSystem ι σ Local) : ∀ action, Decidable (Delivered s action)
  | (.dispatch id _ _, _) => inferInstanceAs (Decidable (s.server.Delivered id))
  | (.call .., _) | (.transmit .., _) | (.gotReply .., _) | (.finish .., _) | (.bind .., _)
  | (.cancel _, _) | (.gotRequest .., _) => instDecidableTrue

instance (s : RawSystem ι σ Local) (action : System.Action ι × Nat) :
    Decidable (Careful s action) := by
  unfold Careful
  infer_instance

variable {nonce : ι → Nat} {service : Service σ Local} {srvNonce : Nat}
  {s next : RawSystem ι σ Local} {action : System.Action ι × Nat}

/-- Only `dispatch` changes who points to what. -/
theorem kept_step (kept : s.server.Kept) (delivered : s.Delivered action)
    (taken : s.step nonce service action = some next) : next.server.Kept := by
  rcases action with ⟨action, block⟩
  cases action with
  | gotRequest id conn req =>
      simp only [step] at taken
      split at taken
      · rcases Option.map_eq_some_iff.mp taken with ⟨server, done, rfl⟩
        exact kept.gotPdu done
      · contradiction
  | dispatch id choice isdead =>
      rcases Option.map_eq_some_iff.mp taken with ⟨⟨server, sent⟩, done, rfl⟩
      rcases RawServer.dispatch_heapStep done with ⟨t, held, heapStep⟩
      exact kept.heapStep held delivered heapStep
  | gotReply c m =>
      simp only [step] at taken
      split at taken
      · cases taken
        exact kept
      · contradiction
  | cancel c =>
      cases taken
      exact kept
  | call | transmit | finish | bind =>
      rcases Option.map_eq_some_iff.mp taken with ⟨_, _, rfl⟩
      exact kept

theorem step_view (kept : s.server.Kept) (after : next.server.Kept)
    (taken : s.step nonce service action = some next) :
    s.view.step nonce service action.1 = some next.view := by
  rcases action with ⟨action, block⟩
  cases action with
  | gotRequest id conn req =>
      simp only [step] at taken
      split at taken
      · next sent =>
          rcases Option.map_eq_some_iff.mp taken with ⟨server, done, rfl⟩
          have sent' : (conn, req) ∈ s.view.requests := sent
          simp only [System.step, if_pos sent']
          exact Option.map_eq_some_iff.mpr ⟨_, RawServer.gotPdu_view done, rfl⟩
      · contradiction
  | dispatch id choice isdead =>
      rcases Option.map_eq_some_iff.mp taken with ⟨⟨server, sent⟩, done, rfl⟩
      exact Option.map_eq_some_iff.mpr ⟨_, RawServer.dispatch_view kept after done, rfl⟩
  | gotReply c m =>
      simp only [step] at taken
      split at taken
      · next received =>
          cases taken
          have received' : m ∈ s.view.replies ∧ m.dest = c := received
          simp only [System.step, if_pos received']
          rfl
      · contradiction
  | cancel c =>
      cases taken
      rfl
  | call | transmit | finish | bind =>
      rcases Option.map_eq_some_iff.mp taken with ⟨_, done, rfl⟩
      exact Option.map_eq_some_iff.mpr ⟨_, done, rfl⟩

theorem careful_step (kept : s.server.Kept) (careful : s.Careful action)
    (taken : s.step nonce service action = some next) :
    next.server.Kept ∧ s.view.FewCalls action.1 ∧
      s.view.step nonce service action.1 = some next.view := by
  have after := kept_step kept careful.2 taken
  exact ⟨after, careful.1, step_view kept after taken⟩

/-- A run in which no reply is freed while it is being sent is one of the system of values. -/
theorem reachable_view (reachable : (machine nonce service srvNonce).ReachableUnder Careful s) :
    s.server.Kept ∧
      (System.machine nonce service srvNonce).ReachableUnder System.FewCalls s.view := by
  refine reachable.under_view (fun s => s.server.Kept) view Prod.fst ?_ ?_ ?_
  · exact RawServer.kept_initial srvNonce service.initial
  · rfl
  · exact fun _ _ _ kept careful taken => careful_step kept careful taken

end Step

end RawSystem

end YfsRpc.Rpc
