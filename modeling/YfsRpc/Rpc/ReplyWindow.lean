import YfsRpc.Foundation.Ascending

/-! # The reply window of a client at the server

`reply_window_[clt_nonce]` remembers the requests a client has not acknowledged
yet, in ascending order of xid, with their replies as soon as these are known.
-/

namespace YfsRpc.Rpc

/-- `reply_t`; a null buffer is `none`. -/
structure ReplyT (β : Type) where
  xid : Nat
  cbPresent : Bool := false
  buf : Option β := none

/-- `rpcstate_t`, with the buffer that `DONE` hands out. -/
inductive RpcState (β : Type)
  | new
  | inprogress
  | done (b : Option β)
  | forgotten

variable {β : Type}

/-- What the loop answers at the entry for the xid. -/
def ReplyT.answer (e : ReplyT β) : RpcState β :=
  if e.cbPresent then .done e.buf else .inprogress

/-- The first loop of `checkduplicate_and_update`, with the iterator between the
two lists: the window it leaves, and what it returns if it returns. -/
def scan (xid xidRep : Nat) :
    List (ReplyT β) → List (ReplyT β) → List (ReplyT β) × Option (RpcState β)
  | before, [] => (before, none)
  | before, e :: rest =>
      -- delete the old forgotten replies
      if e.xid < xidRep then
        scan xid xidRep before rest
      else if e.xid = xid then
        (before ++ e :: rest, some e.answer)
      else if ((before.head?).getD e).xid > xid then
        (before ++ e :: rest, some .forgotten)
      else
        scan xid xidRep (before ++ [e]) rest

def checkduplicateAndUpdate (window : List (ReplyT β)) (xid xidRep : Nat) :
    RpcState β × List (ReplyT β) :=
  match scan xid xidRep [] window with
  | (window, some state) => (state, window)
  -- update the window if it is a new request
  | (window, none) => (.new, insertAscending ReplyT.xid { xid } window)

/-- Remember the reply in the first entry for the xid, if there still is one. -/
def addReply (xid : Nat) (b : β) : List (ReplyT β) → List (ReplyT β)
  | [] => []
  | e :: rest =>
      if e.xid = xid then
        { e with buf := some b, cbPresent := true } :: rest
      else
        e :: addReply xid b rest

/-! ## Trim, look up, insert -/

/-- The entries that are not acknowledged. -/
def trim (xidRep : Nat) (window : List (ReplyT β)) : List (ReplyT β) :=
  window.filter fun e => xidRep ≤ e.xid

/-- Look the xid up in a trimmed window. -/
def lookup (window : List (ReplyT β)) (xid : Nat) : RpcState β :=
  match window.find? fun e => e.xid = xid with
  | some e => e.answer
  | none =>
      match window with
      | [] => .new
      | first :: _ => if first.xid > xid then .forgotten else .new

/-- The loop of `checkduplicate_and_update` goes on for a new request only. -/
def RpcState.returned : RpcState β → Option (RpcState β)
  | .new => none
  | state => some state

theorem returned_answer (e : ReplyT β) : e.answer.returned = some e.answer := by
  unfold ReplyT.answer
  split <;> rfl

theorem mem_trim {xidRep : Nat} {window : List (ReplyT β)} {e : ReplyT β} :
    e ∈ trim xidRep window ↔ e ∈ window ∧ xidRep ≤ e.xid := by
  simp [trim]

theorem trim_ascending {window : List (ReplyT β)} (xidRep : Nat)
    (ascending : StrictlyAscending ReplyT.xid window) :
    StrictlyAscending ReplyT.xid (trim xidRep window) :=
  List.Pairwise.filter _ ascending

/-- Nothing is trimmed behind an entry that stays. -/
theorem trim_eq_self {window : List (ReplyT β)} {xidRep : Nat}
    (stays : ∀ e ∈ window, xidRep ≤ e.xid) : trim xidRep window = window :=
  List.filter_eq_self.mpr fun e member => decide_eq_true (stays e member)

/-- Behind entries that all have a smaller xid the loop finds the entry or runs
to the end: the first entry is not larger than the xid. -/
theorem scan_behind {xid xidRep : Nat} {first : ReplyT β} (small : first.xid < xid) :
    ∀ (rest before : List (ReplyT β)), (∀ e ∈ rest, xidRep ≤ e.xid) →
      scan xid xidRep (first :: before) rest =
        (first :: before ++ rest, (rest.find? fun e => e.xid = xid).map ReplyT.answer)
  | [], before, _ => by simp [scan]
  | e :: rest, before, stays => by
      have here : ¬ e.xid < xidRep := Nat.not_lt.mpr (stays e List.mem_cons_self)
      have later : ∀ e ∈ rest, xidRep ≤ e.xid := fun e member =>
        stays e (List.mem_cons_of_mem _ member)
      have front : ¬ first.xid > xid := by omega
      unfold scan
      rw [if_neg here]
      by_cases same : e.xid = xid
      · simp [same]
      · have continued := scan_behind small rest (before ++ [e]) later
        simp only [List.cons_append, List.append_assoc, List.nil_append] at continued
        simp [same, front, continued]

/-- The loop trims the window and looks the xid up in it. -/
theorem scan_eq {xid xidRep : Nat} :
    ∀ {window : List (ReplyT β)}, StrictlyAscending ReplyT.xid window →
      scan xid xidRep [] window =
        (trim xidRep window, (lookup (trim xidRep window) xid).returned)
  | [], _ => rfl
  | e :: rest, ascending => by
      rcases List.pairwise_cons.mp ascending with ⟨first, restAscending⟩
      by_cases old : e.xid < xidRep
      · have dropped : trim xidRep (e :: rest) = trim xidRep rest := by
          simp [trim, old]
        rw [dropped]
        unfold scan
        rw [if_pos old]
        exact scan_eq restAscending
      · have stays : ∀ z ∈ rest, xidRep ≤ z.xid := by
          intro z member
          have larger := first z member
          omega
        have kept : trim xidRep (e :: rest) = e :: rest := by
          apply trim_eq_self
          intro z member
          rcases List.mem_cons.mp member with rfl | later
          · omega
          · exact stays z later
        rw [kept]
        unfold scan
        rw [if_neg old]
        by_cases same : e.xid = xid
        · simp [same, lookup, returned_answer]
        · by_cases larger : e.xid > xid
          · have absent : rest.find? (fun e => e.xid = xid) = none := by
              simp only [List.find?_eq_none, decide_eq_true_eq]
              intro z member
              have further := first z member
              omega
            simp [same, larger, lookup, absent, RpcState.returned]
          · rw [if_neg same, if_neg (by simpa using larger), List.nil_append,
              scan_behind (by omega) rest [] stays]
            unfold lookup
            rw [List.find?_cons_of_neg (by simpa using same)]
            cases rest.find? (fun e => e.xid = xid) with
            | none => simp [larger, RpcState.returned]
            | some found => simp [returned_answer]

/-- Trim the window, look the xid up in it, and insert it if it is new. -/
theorem checkduplicateAndUpdate_eq {window : List (ReplyT β)} (xid xidRep : Nat)
    (ascending : StrictlyAscending ReplyT.xid window) :
    checkduplicateAndUpdate window xid xidRep =
      match lookup (trim xidRep window) xid with
      | .new => (.new, insertAscending ReplyT.xid { xid } (trim xidRep window))
      | state => (state, trim xidRep window) := by
  rw [checkduplicateAndUpdate, scan_eq ascending]
  cases lookup (trim xidRep window) xid <;> rfl

/-! ## What each classification says -/

theorem answer_ne_new (e : ReplyT β) : e.answer ≠ .new := by
  unfold ReplyT.answer
  split <;> nofun

/-- The answers for a trimmed window, and the windows they leave. -/
inductive Classified (trimmed : List (ReplyT β)) (xid : Nat) :
    RpcState β → List (ReplyT β) → Prop
  | known (e : ReplyT β) (member : e ∈ trimmed) (same : e.xid = xid) :
      Classified trimmed xid e.answer trimmed
  | forgotten (ne_nil : trimmed ≠ []) (larger : ∀ e ∈ trimmed, xid < e.xid) :
      Classified trimmed xid .forgotten trimmed
  | new (fresh : ∀ e ∈ trimmed, e.xid ≠ xid) (first : ∀ e ∈ trimmed.head?, e.xid < xid) :
      Classified trimmed xid .new (insertAscending ReplyT.xid { xid } trimmed)

theorem checkduplicateAndUpdate_classified {window : List (ReplyT β)} (xid xidRep : Nat)
    (ascending : StrictlyAscending ReplyT.xid window) :
    Classified (trim xidRep window) xid (checkduplicateAndUpdate window xid xidRep).1
      (checkduplicateAndUpdate window xid xidRep).2 := by
  have trimmed := trim_ascending xidRep ascending
  rw [checkduplicateAndUpdate_eq xid xidRep ascending]
  cases found : (trim xidRep window).find? (fun e => e.xid = xid) with
  | some e =>
      have same : e.xid = xid := by simpa using List.find?_some found
      have answered : lookup (trim xidRep window) xid = e.answer := by
        simp only [lookup, found]
      have known := Classified.known e (List.mem_of_find?_eq_some found) same
      rw [answered]
      cases state : e.answer with
      | new => exact absurd state (answer_ne_new e)
      | inprogress | done | forgotten =>
          rw [state] at known
          exact known
  | none =>
      have absent : ∀ e ∈ trim xidRep window, e.xid ≠ xid := by
        simpa [List.find?_eq_none] using found
      simp only [lookup, found]
      cases shape : trim xidRep window with
      | nil => exact Classified.new nofun nofun
      | cons first rest =>
          rw [shape] at absent trimmed
          have differs := absent first List.mem_cons_self
          by_cases larger : first.xid > xid
          · simp only [if_pos larger]
            apply Classified.forgotten (List.cons_ne_nil _ _)
            intro e member
            rcases List.mem_cons.mp member with rfl | later
            · exact larger
            · exact Nat.lt_trans larger ((List.pairwise_cons.mp trimmed).1 e later)
          · simp only [if_neg larger]
            apply Classified.new absent
            simp only [List.head?_cons, Option.mem_some_iff, forall_eq']
            omega

theorem Classified.ascending {trimmed window : List (ReplyT β)} {xid : Nat}
    {state : RpcState β} (classified : Classified trimmed xid state window)
    (ascending : StrictlyAscending ReplyT.xid trimmed) :
    StrictlyAscending ReplyT.xid window := by
  cases classified with
  | known | forgotten => exact ascending
  | new fresh _ => exact ascending.insertAscending fresh

/-- An entry of the new window was there before, or is the one for a new request. -/
theorem Classified.mem {trimmed window : List (ReplyT β)} {xid : Nat} {state : RpcState β}
    (classified : Classified trimmed xid state window) {e : ReplyT β} (member : e ∈ window) :
    e ∈ trimmed ∨ (e = { xid } ∧ state = .new) := by
  cases classified with
  | known | forgotten => exact Or.inl member
  | new fresh _ =>
      rcases (mem_insertAscending _ _ _ _).mp member with rfl | old
      · exact Or.inr ⟨rfl, rfl⟩
      · exact Or.inl old

theorem Classified.keeps {trimmed window : List (ReplyT β)} {xid : Nat} {state : RpcState β}
    (classified : Classified trimmed xid state window) {e : ReplyT β} (member : e ∈ trimmed) :
    e ∈ window := by
  cases classified with
  | known | forgotten => exact member
  | new fresh _ => exact (mem_insertAscending _ _ _ _).mpr (Or.inr member)

theorem Classified.ne_nil {trimmed window : List (ReplyT β)} {xid : Nat} {state : RpcState β}
    (classified : Classified trimmed xid state window) : window ≠ [] := by
  cases classified with
  | known e member => exact List.ne_nil_of_mem member
  | forgotten ne_nil => exact ne_nil
  | new => exact insertAscending_ne_nil _ _ _

/-- The entry for the xid answers the request. -/
theorem Classified.of_mem {trimmed window : List (ReplyT β)} {xid : Nat} {state : RpcState β}
    (classified : Classified trimmed xid state window)
    (ascending : StrictlyAscending ReplyT.xid trimmed) {e : ReplyT β} (member : e ∈ trimmed)
    (same : e.xid = xid) : state = e.answer := by
  cases classified with
  | known found present equal =>
      rw [ascending.eq_of_key member present (same.trans equal.symm)]
  | forgotten _ larger =>
      have behind := larger e member
      omega
  | new fresh _ => exact absurd same (fresh e member)

/-- A request is new if the trimmed window has no entry for it and does not
start behind it. -/
theorem Classified.of_new {trimmed window : List (ReplyT β)} {xid : Nat}
    (classified : Classified trimmed xid .new window) :
    window = insertAscending ReplyT.xid { xid } trimmed ∧
      (∀ e ∈ trimmed, e.xid ≠ xid) ∧ ∀ e ∈ trimmed.head?, e.xid < xid := by
  generalize state : RpcState.new = s at classified
  cases classified with
  | known e => exact absurd state.symm (answer_ne_new e)
  | forgotten => contradiction
  | new fresh first => exact ⟨rfl, fresh, first⟩

theorem Classified.of_forgotten {trimmed window : List (ReplyT β)} {xid : Nat}
    (classified : Classified trimmed xid .forgotten window) :
    trimmed ≠ [] ∧ ∀ e ∈ trimmed, xid < e.xid := by
  generalize state : RpcState.forgotten = s at classified
  cases classified with
  | known e =>
      unfold ReplyT.answer at state
      split at state <;> contradiction
  | forgotten ne_nil larger => exact ⟨ne_nil, larger⟩
  | new => contradiction

/-- The reply that is handed out is the one in the entry for the xid. -/
theorem Classified.of_done {trimmed window : List (ReplyT β)} {xid : Nat} {b : Option β}
    (classified : Classified trimmed xid (.done b) window) :
    ∃ e ∈ trimmed, e.xid = xid ∧ e.buf = b := by
  generalize state : RpcState.done b = s at classified
  cases classified with
  | known e member same =>
      refine ⟨e, member, same, ?_⟩
      unfold ReplyT.answer at state
      split at state
      · cases state
        rfl
      · contradiction
  | forgotten => contradiction
  | new => contradiction

theorem Classified.new_mem {trimmed window : List (ReplyT β)} {xid : Nat}
    (classified : Classified trimmed xid .new window) : ({ xid } : ReplyT β) ∈ window := by
  rw [classified.of_new.1]
  exact (mem_insertAscending _ _ _ _).mpr (Or.inl rfl)

/-! ## Recording a reply -/

theorem map_xid_addReply (xid : Nat) (b : β) (window : List (ReplyT β)) :
    (addReply xid b window).map ReplyT.xid = window.map ReplyT.xid := by
  induction window with
  | nil => rfl
  | cons e rest induction =>
      unfold addReply
      split
      · rfl
      · rw [List.map_cons, induction, List.map_cons]

theorem exists_xid_addReply {xid : Nat} {b : β} {window : List (ReplyT β)} {x : Nat} :
    (∃ e ∈ addReply xid b window, e.xid = x) ↔ ∃ e ∈ window, e.xid = x := by
  rw [← List.mem_map, map_xid_addReply, List.mem_map]

theorem addReply_ascending {window : List (ReplyT β)} (xid : Nat) (b : β)
    (ascending : StrictlyAscending ReplyT.xid window) :
    StrictlyAscending ReplyT.xid (addReply xid b window) := by
  apply List.pairwise_map.mp
  rw [map_xid_addReply]
  exact List.pairwise_map.mpr ascending

/-- The entry for the xid holds the reply; the others are as before. -/
theorem mem_addReply {window : List (ReplyT β)} {xid : Nat} {b : β} {e : ReplyT β}
    (ascending : StrictlyAscending ReplyT.xid window) (member : e ∈ addReply xid b window) :
    (e.xid ≠ xid ∧ e ∈ window) ∨ (e = { xid, cbPresent := true, buf := some b } ∧
      ∃ old ∈ window, old.xid = xid) := by
  induction window with
  | nil => contradiction
  | cons first rest induction =>
      rcases List.pairwise_cons.mp ascending with ⟨larger, restAscending⟩
      unfold addReply at member
      split at member
      · next same =>
          rcases List.mem_cons.mp member with rfl | later
          · right
            refine ⟨?_, first, List.mem_cons_self, same⟩
            rw [← same]
          · left
            have differs := larger e later
            exact ⟨by omega, List.mem_cons_of_mem _ later⟩
      · next differs =>
          rcases List.mem_cons.mp member with rfl | later
          · exact Or.inl ⟨differs, List.mem_cons_self⟩
          · rcases induction restAscending later with ⟨other, old⟩ | ⟨new, old, found, same⟩
            · exact Or.inl ⟨other, List.mem_cons_of_mem _ old⟩
            · exact Or.inr ⟨new, old, List.mem_cons_of_mem _ found, same⟩

theorem addReply_keeps {window : List (ReplyT β)} {xid : Nat} {b : β} {e : ReplyT β}
    (member : e ∈ window) (other : e.xid ≠ xid) : e ∈ addReply xid b window := by
  induction window with
  | nil => contradiction
  | cons first rest induction =>
      unfold addReply
      split
      · next same =>
          rcases List.mem_cons.mp member with rfl | later
          · contradiction
          · exact List.mem_cons_of_mem _ later
      · rcases List.mem_cons.mp member with rfl | later
        · exact List.mem_cons_self
        · exact List.mem_cons_of_mem _ (induction later)

/-! ## What a window remembers -/

/-- The xid has an entry, or the window starts behind it. -/
def Remembered (window : List (ReplyT β)) (x : Nat) : Prop :=
  (∃ e ∈ window, e.xid = x) ∨ (window ≠ [] ∧ ∀ e ∈ window, x < e.xid)

section

variable {window after : List (ReplyT β)} {x y xidRep : Nat} {state : RpcState β}

/-- A window that remembers the acknowledged xid still remembers after the trim what it
did before. -/
theorem Remembered.trim (remembered : Remembered window x)
    (acknowledged : xidRep ≠ 0 → Remembered window xidRep) :
    Remembered (trim xidRep window) x := by
  rcases remembered with ⟨e, member, rfl⟩ | ⟨ne_nil, larger⟩
  · by_cases stays : xidRep ≤ e.xid
    · exact Or.inl ⟨e, mem_trim.mpr ⟨member, stays⟩, rfl⟩
    · -- the entry goes, but the one for the acknowledged xid is behind it
      right
      rcases acknowledged (by omega) with ⟨f, present, same⟩ | ⟨_, beyond⟩
      · refine ⟨List.ne_nil_of_mem (mem_trim.mpr ⟨present, Nat.le_of_eq same.symm⟩), ?_⟩
        intro z found
        have kept := (mem_trim.mp found).2
        omega
      · have behind := beyond e member
        omega
  · right
    have stays : ∀ z ∈ window, xidRep ≤ z.xid → z ∈ Rpc.trim xidRep window :=
      fun z member kept => mem_trim.mpr ⟨member, kept⟩
    refine ⟨?_, fun z found => larger z (mem_trim.mp found).1⟩
    rcases List.exists_mem_of_ne_nil _ ne_nil with ⟨first, member⟩
    by_cases zero : xidRep = 0
    · exact List.ne_nil_of_mem (stays first member (by omega))
    · rcases acknowledged zero with ⟨f, present, same⟩ | ⟨_, beyond⟩
      · exact List.ne_nil_of_mem (stays f present (Nat.le_of_eq same.symm))
      · exact List.ne_nil_of_mem (stays first member (Nat.le_of_lt (beyond first member)))

theorem Remembered.classified (remembered : Remembered window x)
    (classified : Classified window y state after) : Remembered after x := by
  rcases remembered with ⟨e, member, rfl⟩ | ⟨ne_nil, larger⟩
  · exact Or.inl ⟨e, classified.keeps member, rfl⟩
  · refine Or.inr ⟨classified.ne_nil, fun z found => ?_⟩
    rcases classified.mem found with old | ⟨rfl, rfl⟩
    · exact larger z old
    · cases window with
      | nil => contradiction
      | cons first rest =>
          have small := classified.of_new.2.2 first rfl
          have beyond := larger first List.mem_cons_self
          exact Nat.lt_trans beyond small

/-- What is remembered is not new. -/
theorem Remembered.not_new (remembered : Remembered window x) :
    ¬ Classified window x .new after := by
  intro classified
  rcases remembered with ⟨e, member, same⟩ | ⟨ne_nil, larger⟩
  · exact classified.of_new.2.1 e member same
  · cases window with
    | nil => contradiction
    | cons first rest =>
        have small := classified.of_new.2.2 first rfl
        have beyond := larger first List.mem_cons_self
        omega

/-- A window that remembers something has no place for the xid 0. -/
theorem Remembered.zero_not_new (remembered : Remembered window x) :
    ¬ Classified window 0 .new after := by
  intro classified
  cases window with
  | nil =>
      rcases remembered with ⟨_, member, _⟩ | ⟨ne_nil, _⟩
      · contradiction
      · contradiction
  | cons first rest => exact absurd (classified.of_new.2.2 first rfl) (Nat.not_lt_zero _)

theorem Classified.remembered (classified : Classified window x state after) :
    Remembered after x := by
  cases classified with
  | known e member same => exact Or.inl ⟨e, member, same⟩
  | forgotten ne_nil larger => exact Or.inr ⟨ne_nil, larger⟩
  | new fresh first => exact Or.inl ⟨_, (Classified.new fresh first).new_mem, rfl⟩

theorem Remembered.addReply (remembered : Remembered window x) (b : β) :
    Remembered (addReply y b window) x := by
  rcases remembered with present | ⟨ne_nil, larger⟩
  · exact Or.inl (exists_xid_addReply.mpr present)
  · right
    refine ⟨?_, fun z found => ?_⟩
    · intro empty
      have mapped := map_xid_addReply y b window
      rw [empty] at mapped
      exact ne_nil (List.map_eq_nil_iff.mp mapped.symm)
    · have same : z.xid ∈ window.map ReplyT.xid := by
        rw [← map_xid_addReply y b]
        exact List.mem_map_of_mem found
      rcases List.mem_map.mp same with ⟨e, member, equal⟩
      exact equal ▸ larger e member

end

/-! ## The windows of all clients -/

section

variable {windows : Nat → List (ReplyT β)} {client xid xidRep n : Nat} {state : RpcState β}
  {window : List (ReplyT β)} {e : ReplyT β} {b : β}

theorem ascending_checked
    (classified : Classified (trim xidRep (windows client)) xid state window)
    (ascending : ∀ n, StrictlyAscending ReplyT.xid (windows n)) :
    ∀ n, StrictlyAscending ReplyT.xid (Function.update windows client window n) := by
  rw [Function.forall_update_iff windows fun _ window => StrictlyAscending ReplyT.xid window]
  exact ⟨classified.ascending (trim_ascending _ (ascending client)), fun n _ => ascending n⟩

/-- An entry after the duplicate check was there before, or it is the one for a new request. -/
theorem mem_checked (classified : Classified (trim xidRep (windows client)) xid state window)
    (member : e ∈ Function.update windows client window n) :
    e ∈ windows n ∨ (n = client ∧ e = { xid } ∧ state = .new) := by
  by_cases here : n = client
  · subst here
    rw [Function.update_self] at member
    rcases classified.mem member with old | new
    · exact Or.inl (mem_trim.mp old).1
    · exact Or.inr ⟨rfl, new⟩
  · rw [Function.update_of_ne here] at member
    exact Or.inl member

theorem ascending_recorded (ascending : ∀ n, StrictlyAscending ReplyT.xid (windows n)) :
    ∀ n, StrictlyAscending ReplyT.xid
      (Function.update windows client (addReply xid b (windows client)) n) := by
  rw [Function.forall_update_iff windows fun _ window => StrictlyAscending ReplyT.xid window]
  exact ⟨addReply_ascending _ _ (ascending client), fun n _ => ascending n⟩

/-- An entry after a reply was recorded is another one as before, or it holds the reply. -/
theorem mem_recorded (ascending : ∀ n, StrictlyAscending ReplyT.xid (windows n))
    (member : e ∈ Function.update windows client (addReply xid b (windows client)) n) :
    (e ∈ windows n ∧ (n, e.xid) ≠ (client, xid)) ∨
      (n = client ∧ e = { xid, cbPresent := true, buf := some b } ∧
        ∃ old ∈ windows client, old.xid = xid) := by
  by_cases here : n = client
  · subst here
    rw [Function.update_self] at member
    rcases mem_addReply (ascending n) member with ⟨other, old⟩ | new
    · exact Or.inl ⟨old, fun same => other (congrArg Prod.snd same)⟩
    · exact Or.inr ⟨rfl, new⟩
  · rw [Function.update_of_ne here] at member
    exact Or.inl ⟨member, fun same => here (congrArg Prod.fst same)⟩

end

end YfsRpc.Rpc
