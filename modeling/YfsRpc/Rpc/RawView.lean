import YfsRpc.Rpc.RawServer

/-! # What the pointers show

A server with its reply buffers in memory shows one whose replies are values: each pointer
stands for what its block holds. A step that changes no block which is still pointed to is
a step of what is shown.
-/

namespace YfsRpc.Rpc

deriving instance Inhabited for Request, Reply, Answer

/-! ## Windows of pointers -/

section

variable {α β : Type} {f : α → β}

def ReplyT.map (f : α → β) (e : ReplyT α) : ReplyT β where
  xid := e.xid
  cbPresent := e.cbPresent
  buf := e.buf.map f

def RpcState.map (f : α → β) : RpcState α → RpcState β
  | .new => .new
  | .inprogress => .inprogress
  | .done b => .done (b.map f)
  | .forgotten => .forgotten

theorem answer_map (e : ReplyT α) : (e.map f).answer = e.answer.map f := by
  unfold ReplyT.answer
  change (if e.cbPresent then _ else _) = _
  split <;> rfl

theorem scan_map (xid xidRep : Nat) : ∀ rest before : List (ReplyT α),
    scan xid xidRep (before.map (ReplyT.map f)) (rest.map (ReplyT.map f)) =
      ((scan xid xidRep before rest).1.map (ReplyT.map f),
        (scan xid xidRep before rest).2.map (RpcState.map f))
  | [], _ => by simp [scan]
  | e :: rest, before => by
      have xid_map : (e.map f).xid = e.xid := rfl
      have first : (((before.map (ReplyT.map f)).head?).getD (e.map f)).xid =
          ((before.head?).getD e).xid := by
        cases before <;> rfl
      have appended : before.map (ReplyT.map f) ++ [e.map f] =
          (before ++ [e]).map (ReplyT.map f) := by simp
      rw [List.map_cons]
      unfold scan
      rw [first, xid_map]
      by_cases old : e.xid < xidRep
      · rw [if_pos old, if_pos old]
        exact scan_map xid xidRep rest before
      · rw [if_neg old, if_neg old]
        by_cases same : e.xid = xid
        · simp [same, answer_map]
        · rw [if_neg same, if_neg same]
          split
          · simp [RpcState.map]
          · rw [appended]
            exact scan_map xid xidRep rest (before ++ [e])

theorem insertAscending_map (e : ReplyT α) (window : List (ReplyT α)) :
    insertAscending ReplyT.xid (e.map f) (window.map (ReplyT.map f)) =
      (insertAscending ReplyT.xid e window).map (ReplyT.map f) := by
  induction window with
  | nil => rfl
  | cons first rest induction =>
      unfold insertAscending
      change (if first.xid > e.xid then _ else _) = _
      split
      · rfl
      · rw [List.map_cons, ← induction]

theorem checkduplicateAndUpdate_map (window : List (ReplyT α)) (xid xidRep : Nat) :
    checkduplicateAndUpdate (window.map (ReplyT.map f)) xid xidRep =
      ((checkduplicateAndUpdate window xid xidRep).1.map f,
        (checkduplicateAndUpdate window xid xidRep).2.map (ReplyT.map f)) := by
  have scanned := scan_map (f := f) xid xidRep window []
  unfold checkduplicateAndUpdate
  rw [List.map_nil] at scanned
  rw [scanned]
  rcases scan xid xidRep [] window with ⟨left, found⟩
  cases found with
  | none => exact congrArg (Prod.mk _) (insertAscending_map { xid } left)
  | some state => rfl

theorem addReply_map (xid : Nat) (b : α) (window : List (ReplyT α)) :
    addReply xid (f b) (window.map (ReplyT.map f)) =
      (addReply xid b window).map (ReplyT.map f) := by
  induction window with
  | nil => rfl
  | cons first rest induction =>
      unfold addReply
      change (if first.xid = xid then _ else _) = _
      split
      · rfl
      · rw [List.map_cons, ← induction]

end

/-! ## Threads and servers -/

variable {ι σ Local : Type}

def RawPc.view (f : Nat → Answer) (conn : Conn ι) : RawPc ι Local → Pc ι Local
  | .received => .received
  | .saving => .saving
  | .checking => .checking
  | .handling h => .handling h
  | .replying b1 => .replying (f b1)
  | .choosing b1 => .choosing (f b1)
  | .sending c b1 => .sending c (f b1)
  | .refusing a => .sending conn a

def RawThread.view (f : Nat → Answer) (t : RawThread ι Local) : Thread ι Local where
  conn := t.conn
  req := t.req
  pc := t.pc.view f t.conn

namespace RawServer

/-- What a pointer stands for; a block that is free holds nothing in particular. -/
def shows (s : RawServer ι σ Local) (b : Nat) : Answer := (s.heap b).getD default

def viewWith (f : Nat → Answer) (s : RawServer ι σ Local) : Server ι σ Local where
  nonce := s.nonce
  service := s.service
  replyWindow n := (s.replyWindow n).map (ReplyT.map f)
  conns := s.conns
  threads id := (s.threads.held id).map (RawThread.view f)
  news := s.news
  begun := s.begun
  finished := s.finished
  recorded := s.recorded

def view (s : RawServer ι σ Local) : Server ι σ Local := s.viewWith s.shows

/-- An entry or a thread points to the block. -/
def Refers (s : RawServer ι σ Local) (b : Nat) : Prop :=
  (∃ n, ∃ e ∈ s.replyWindow n, e.buf = some b) ∨
    ∃ id t, s.threads.held id = some t ∧ t.pc.buffer = some b

variable {s next : RawServer ι σ Local} {id : Nat} {t : RawThread ι Local} {f g : Nat → Answer}

theorem viewWith_congr (same : ∀ b, s.Refers b → f b = g b) : s.viewWith f = s.viewWith g := by
  have windows : (fun n => (s.replyWindow n).map (ReplyT.map f)) =
      fun n => (s.replyWindow n).map (ReplyT.map g) := by
    funext n
    apply List.map_congr_left
    intro e member
    unfold ReplyT.map
    congr 1
    cases held : e.buf with
    | none => rfl
    | some b => exact congrArg some (same b (Or.inl ⟨n, e, member, held⟩))
  have threads : (fun id => (s.threads.held id).map (RawThread.view f)) =
      fun id => (s.threads.held id).map (RawThread.view g) := by
    funext id
    cases held : s.threads.held id with
    | none => rfl
    | some t =>
        have known : ∀ b, t.pc.buffer = some b → f b = g b := fun b points =>
          same b (Or.inr ⟨id, t, held, points⟩)
        have pc : t.pc.view f t.conn = t.pc.view g t.conn := by
          cases place : t.pc with
          | replying b1 | choosing b1 | sending c b1 =>
              simp only [RawPc.view, known b1 (by rw [place]; rfl)]
          | received | saving | checking | handling | refusing => rfl
        simp only [Option.map_some, RawThread.view, pc]
  unfold viewWith
  rw [windows, threads]

theorem viewWith_goto (f : Nat → Answer) (s : RawServer ι σ Local) (id : Nat)
    (t : RawThread ι Local) (pc : RawPc ι Local) :
    (s.goto id t pc).viewWith f = (s.viewWith f).goto id (t.view f) (pc.view f t.conn) := by
  unfold viewWith goto Server.goto
  congr 1
  exact funext fun other =>
    Function.apply_update (fun _ => Option.map (RawThread.view f)) s.threads.held id _ other

theorem viewWith_exit (f : Nat → Answer) (s : RawServer ι σ Local) (id : Nat) :
    (s.exit id).viewWith f = (s.viewWith f).exit id := by
  unfold viewWith exit Server.exit
  congr 1
  exact funext fun other =>
    Function.apply_update (fun _ => Option.map (RawThread.view f)) s.threads.held id _ other

theorem viewWith_updateWindow (f : Nat → Answer) (s : RawServer ι σ Local) (n : Nat)
    (window : List (ReplyT Nat)) :
    (s.updateWindow n window).viewWith f =
      (s.viewWith f).updateWindow n (window.map (ReplyT.map f)) := by
  unfold viewWith updateWindow Server.updateWindow
  congr 1
  exact funext fun other =>
    Function.apply_update (fun _ => List.map (ReplyT.map f)) s.replyWindow n _ other

theorem viewWith_invoke (f : Nat → Answer) (service : Service σ Local)
    (s : RawServer ι σ Local) (id : Nat) (t : RawThread ι Local) :
    (s.invoke service id t).viewWith f = (s.viewWith f).invoke service id (t.view f) := by
  unfold invoke Server.invoke
  exact viewWith_goto f _ id t _

end RawServer

end YfsRpc.Rpc
