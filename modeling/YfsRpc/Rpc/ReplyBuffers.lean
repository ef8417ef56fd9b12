import YfsRpc.Foundation.Holders
import YfsRpc.Foundation.Machine
import YfsRpc.Rpc.Client
import YfsRpc.Rpc.ReplyWindow

/-! # The reply buffers of a server

A buffer that `dispatch` takes from its marshall object belongs to the thread, until
`add_reply` leaves it in the reply window. It is freed where its entry is trimmed, by
another thread, or with the whole window. Buffers are numbered in the order in which they
are taken; connections have no part in this and are left out.
-/

namespace YfsRpc.Rpc

/-- Where a thread is in `dispatch`. -/
inductive BufferPc
  /-- before the checks of the server instance and the procedure -/
  | received
  /-- before the window of an unknown client is created -/
  | creating
  /-- before `checkduplicate_and_update` -/
  | checking
  /-- in the handler -/
  | handling
  /-- before `add_reply` -/
  | replying (b : Nat)
  /-- before the end of `send`; a reply that is not a buffer of its own is `none` -/
  | sending (b : Option Nat)
  deriving DecidableEq

structure BufferThread where
  req : Request
  pc : BufferPc

structure ReplyBuffers where
  nonce : Nat
  /-- `reply_window_` -/
  replyWindow : Holders Nat (List (ReplyT Nat)) := .empty
  threads : Holders Nat BufferThread := .empty
  /-- how many buffers were taken -/
  taken : Nat := 0
  /-- how often each buffer was freed -/
  freed : Nat → Nat := fun _ => 0
  /-- history: the buffers passed to `add_reply` -/
  recorded : List Nat := []
  destroyed : Bool := false

/-- The buffers that the first loop of `checkduplicate_and_update` frees, with the iterator
between the two lists. -/
def scanFreed (xid xidRep : Nat) : List (ReplyT β) → List (ReplyT β) → List β
  | _, [] => []
  | before, e :: rest =>
      if e.xid < xidRep then
        e.buf.toList ++ scanFreed xid xidRep before rest
      else if e.xid = xid then
        []
      else if ((before.head?).getD e).xid > xid then
        []
      else
        scanFreed xid xidRep (before ++ [e]) rest

/-- How many entries hold the buffer. -/
def bufferCount (b : Nat) (window : List (ReplyT Nat)) : Nat :=
  window.countP fun e => e.buf == some b

namespace ReplyBuffers

inductive Action
  | gotPdu (id : Nat) (req : Request)
  | dispatch (id : Nat)
  /-- the destructor, once the pool of threads is deleted -/
  | destroy

def goto (s : ReplyBuffers) (id : Nat) (t : BufferThread) (pc : BufferPc) : ReplyBuffers :=
  { s with threads := s.threads.set id (some { t with pc }) }

def exit (s : ReplyBuffers) (id : Nat) : ReplyBuffers :=
  { s with threads := s.threads.set id none }

def free (s : ReplyBuffers) (buffers : List Nat) : ReplyBuffers :=
  { s with freed := fun b => s.freed b + buffers.count b }

/-- `reply_window_[clt_nonce]` -/
def window (s : ReplyBuffers) (cltNonce : Nat) : List (ReplyT Nat) :=
  (s.replyWindow.held cltNonce).getD []

def updateWindow (s : ReplyBuffers) (cltNonce : Nat) (window : List (ReplyT Nat)) :
    ReplyBuffers :=
  { s with replyWindow := s.replyWindow.set cltNonce (some window) }

def check (registered : Nat → Bool) (s : ReplyBuffers) (id : Nat) (t : BufferThread) :
    ReplyBuffers :=
  if t.req.srvNonce ≠ 0 ∧ t.req.srvNonce ≠ s.nonce then
    s.goto id t (.sending none)
  else if registered t.req.proc = false then
    s.exit id
  else if t.req.cltNonce ≠ 0 then
    s.goto id t .creating
  else
    s.goto id t .handling

def classify (s : ReplyBuffers) (id : Nat) (t : BufferThread) : ReplyBuffers :=
  let window := s.window t.req.cltNonce
  let (stat, updated) := checkduplicateAndUpdate window t.req.xid t.req.xidRep
  let s := (s.free (scanFreed t.req.xid t.req.xidRep [] window)).updateWindow
    t.req.cltNonce updated
  match stat with
  | .new => s.goto id t .handling
  | .inprogress => s.exit id
  | .done b => s.goto id t (.sending b)
  | .forgotten => s.goto id t (.sending none)

/-- `add_reply`, for clients that require at most once logic. -/
def record (s : ReplyBuffers) (id : Nat) (t : BufferThread) (b : Nat) : ReplyBuffers :=
  if t.req.cltNonce > 0 then
    { s.updateWindow t.req.cltNonce (addReply t.req.xid b (s.window t.req.cltNonce)) with
      recorded := s.recorded ++ [b] }.goto id t (.sending (some b))
  else
    s.goto id t (.sending (some b))

def dispatch (registered : Nat → Bool) (s : ReplyBuffers) (id : Nat) (t : BufferThread) :
    ReplyBuffers :=
  match t.pc with
  | .received => s.check registered id t
  | .creating => (s.updateWindow t.req.cltNonce (s.window t.req.cltNonce)).goto id t .checking
  | .checking => s.classify id t
  -- the handler has returned: `take_buf`
  | .handling => { s with taken := s.taken + 1 }.goto id t (.replying s.taken)
  | .replying b => s.record id t b
  | .sending b => if t.req.cltNonce = 0 then (s.free b.toList).exit id else s.exit id

/-- The entries that hold the buffer. -/
def stored (s : ReplyBuffers) (b : Nat) : Nat := s.replyWindow.total (bufferCount b)

def freeReplyWindow (s : ReplyBuffers) : ReplyBuffers :=
  { s with freed := fun b => s.freed b + s.stored b, replyWindow := .empty }

def step (registered : Nat → Bool) (s : ReplyBuffers) : Action → Option ReplyBuffers
  | .gotPdu id req =>
      if (s.threads.held id).isNone ∧ s.destroyed = false then
        some { s with threads := s.threads.set id (some { req, pc := .received }) }
      else
        none
  | .dispatch id => (s.threads.held id).map (s.dispatch registered id)
  | .destroy =>
      if s.threads.keys = ∅ ∧ s.destroyed = false then
        some { s.freeReplyWindow with destroyed := true }
      else
        none

def machine (registered : Nat → Bool) (nonce : Nat) : Machine ReplyBuffers Action where
  initial := { nonce }
  step := step registered

end ReplyBuffers

/-! ## The buffers of a window -/

section

variable {window : List (ReplyT Nat)} {xid xidRep b : Nat}

/-- Nothing is freed behind an entry that stays. -/
theorem scanFreed_stays (xid : Nat) : ∀ (rest before : List (ReplyT β)),
    (∀ e ∈ rest, xidRep ≤ e.xid) → scanFreed xid xidRep before rest = []
  | [], _, _ => rfl
  | e :: rest, before, stays => by
      have here : ¬ e.xid < xidRep := Nat.not_lt.mpr (stays e List.mem_cons_self)
      have later : ∀ e ∈ rest, xidRep ≤ e.xid := fun e member =>
        stays e (List.mem_cons_of_mem _ member)
      unfold scanFreed
      rw [if_neg here, scanFreed_stays xid rest (before ++ [e]) later]
      split <;> simp

/-- The loop frees the buffers of the acknowledged entries. -/
theorem scanFreed_eq : ∀ {window : List (ReplyT β)}, StrictlyAscending ReplyT.xid window →
    scanFreed xid xidRep [] window =
      (window.filter fun e => e.xid < xidRep).filterMap ReplyT.buf
  | [], _ => rfl
  | e :: rest, ascending => by
      rcases List.pairwise_cons.mp ascending with ⟨first, restAscending⟩
      unfold scanFreed
      by_cases old : e.xid < xidRep
      · rw [if_pos old, scanFreed_eq restAscending, List.filter_cons_of_pos (by simpa using old)]
        cases held : e.buf <;> simp [held]
      · have stays : ∀ z ∈ e :: rest, xidRep ≤ z.xid := by
          intro z member
          rcases List.mem_cons.mp member with rfl | later
          · omega
          · have larger := first z later
            omega
        have kept := scanFreed_stays xid (e :: rest) [] stays
        unfold scanFreed at kept
        have none : (e :: rest).filter (fun z => z.xid < xidRep) = [] := by
          simpa [List.filter_eq_nil_iff] using stays
        rw [kept, none]
        rfl

theorem mem_scanFreed (ascending : StrictlyAscending ReplyT.xid window) :
    b ∈ scanFreed xid xidRep [] window ↔ ∃ e ∈ window, e.xid < xidRep ∧ e.buf = some b := by
  simp only [scanFreed_eq ascending, List.mem_filterMap, List.mem_filter, decide_eq_true_eq,
    and_assoc]

@[simp] theorem bufferCount_nil : bufferCount b [] = 0 := rfl

theorem bufferCount_cons (e : ReplyT Nat) (rest : List (ReplyT Nat)) :
    bufferCount b (e :: rest) = bufferCount b rest + if e.buf = some b then 1 else 0 := by
  simp [bufferCount, List.countP_cons]

theorem count_filterMap_buf : ∀ (window : List (ReplyT Nat)),
    (window.filterMap ReplyT.buf).count b = bufferCount b window
  | [] => rfl
  | e :: rest => by
      rw [bufferCount_cons, ← count_filterMap_buf rest]
      cases held : e.buf with
      | none => simp [held]
      | some d => simp [held, List.count_cons]

theorem bufferCount_filter_add (p : ReplyT Nat → Bool) (window : List (ReplyT Nat)) :
    bufferCount b (window.filter p) + bufferCount b (window.filter fun e => !p e) =
      bufferCount b window :=
  (List.countP_eq_countP_filter_add window _ p).symm

/-- Buffers that leave the window are freed. -/
theorem bufferCount_check (b xid xidRep : Nat)
    (ascending : StrictlyAscending ReplyT.xid window) :
    bufferCount b (checkduplicateAndUpdate window xid xidRep).2 +
      (scanFreed xid xidRep [] window).count b = bufferCount b window := by
  have inserted : bufferCount b (insertAscending ReplyT.xid { xid } (trim xidRep window)) =
      bufferCount b (trim xidRep window) := by
    unfold bufferCount
    rw [(insertAscending_perm _ _ _).countP_eq]
    rfl
  have updated : bufferCount b (checkduplicateAndUpdate window xid xidRep).2 =
      bufferCount b (trim xidRep window) := by
    rw [checkduplicateAndUpdate_eq xid xidRep ascending]
    cases lookup (trim xidRep window) xid with
    | new => exact inserted
    | inprogress | done | forgotten => rfl
  have acknowledged : (fun e : ReplyT Nat => !decide (xidRep ≤ e.xid)) =
      fun e => decide (e.xid < xidRep) := by
    funext e
    simp only [← decide_not, Nat.not_le]
  rw [updated, scanFreed_eq ascending, count_filterMap_buf, ← acknowledged]
  exact bufferCount_filter_add _ window

theorem bufferCount_eq_zero : bufferCount b window = 0 ↔ ∀ e ∈ window, e.buf ≠ some b := by
  simp [bufferCount, List.countP_eq_zero]

theorem bufferCount_pos {e : ReplyT Nat} (member : e ∈ window) (held : e.buf = some b) :
    bufferCount b window ≠ 0 := fun zero => bufferCount_eq_zero.mp zero e member held

/-- Two entries that hold a buffer are one. -/
theorem eq_of_bufferCount {e d : ReplyT Nat} (once : bufferCount b window ≤ 1) (left : e ∈ window)
    (right : d ∈ window) (held : e.buf = some b) (held' : d.buf = some b) : e = d := by
  induction window with
  | nil => contradiction
  | cons first rest induction =>
      rw [bufferCount_cons] at once
      rcases List.mem_cons.mp left with rfl | leftRest <;>
        rcases List.mem_cons.mp right with rfl | rightRest
      · rfl
      · have later := bufferCount_pos rightRest held'
        rw [if_pos held] at once
        omega
      · have later := bufferCount_pos leftRest held
        rw [if_pos held'] at once
        omega
      · exact induction (by omega) leftRest rightRest

/-- `add_reply` stores the buffer in the place of the one in the entry. -/
theorem bufferCount_addReply (b d xid : Nat) (window : List (ReplyT Nat)) :
    bufferCount b (addReply xid d window) +
        ((window.find? fun e => e.xid = xid).elim 0 fun e => if e.buf = some b then 1 else 0) =
      bufferCount b window +
        ((window.find? fun e => e.xid = xid).elim 0 fun _ => if d = b then 1 else 0) := by
  induction window with
  | nil => rfl
  | cons first rest induction =>
      unfold addReply
      by_cases here : first.xid = xid
      · rw [if_pos here, List.find?_cons_of_pos (by simpa using here)]
        simp only [bufferCount_cons, Option.elim_some, Option.some.injEq]
        omega
      · rw [if_neg here, List.find?_cons_of_neg (by simpa using here)]
        simp only [bufferCount_cons]
        omega

end

end YfsRpc.Rpc
