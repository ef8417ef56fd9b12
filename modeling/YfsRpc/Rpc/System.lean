import YfsRpc.Foundation.Machine
import YfsRpc.Rpc.Server

/-! # Clients, a server and the network

Any number of clients call one server. The network remembers every message that
was ever sent and delivers any of them at any time, any number of times and in
any order, or never. A connection that breaks shows in that the client sends on
another one.
-/

namespace YfsRpc.Rpc

structure System (ι σ Local : Type) where
  clients : ι → Client
  server : Server ι σ Local
  requests : List (Conn ι × Request) := []
  replies : List (Message ι) := []

namespace System

variable {ι σ Local : Type}

inductive Action (ι : Type)
  /-- a thread enters `call1` -/
  | call (c : ι) (proc : Nat) (payload : List UInt8)
  /-- a call sends its request on a connection of the client -/
  | transmit (c : ι) (number serial createTime : Nat)
  | gotReply (c : ι) (m : Message ι)
  /-- `call1` returns, with the reply or after its last timeout -/
  | finish (c : ι) (number : Nat)
  /-- `bind` returns after a call that returned 0 -/
  | bind (c : ι) (ret : Return)
  | cancel (c : ι)
  | gotRequest (id : Nat) (conn : Conn ι) (req : Request)
  | dispatch (id choice : Nat) (isdead : Bool)

section Step

variable [DecidableEq ι]

instance lawfulBEq_request : LawfulBEq (Conn ι × Request) := inferInstance

def setClient (s : System ι σ Local) (c : ι) (cl : Client) : System ι σ Local :=
  { s with clients := Function.update s.clients c cl }

/-- `nonce` gives the `clt_nonce_` of each client. -/
def step (nonce : ι → Nat) (service : Service σ Local) (s : System ι σ Local) :
    Action ι → Option (System ι σ Local)
  | .call c proc payload => ((s.clients c).call1 (nonce c) proc payload).map (s.setClient c)
  | .transmit c number serial createTime =>
      ((s.clients c).callers number).map fun ca =>
        { s with requests := s.requests ++ [({ client := c, serial, createTime }, ca.req)] }
  | .gotReply c m =>
      if m ∈ s.replies ∧ m.dest = c then
        some (s.setClient c ((s.clients c).gotPdu m.answer.reply))
      else
        none
  | .finish c number => ((s.clients c).finish number).map (s.setClient c)
  | .bind c ret => ((s.clients c).bind ret).map (s.setClient c)
  | .cancel c => some (s.setClient c (s.clients c).cancel)
  | .gotRequest id conn req =>
      if (conn, req) ∈ s.requests then
        (s.server.gotPdu id conn req).map fun server => { s with server }
      else
        none
  | .dispatch id choice isdead =>
      (s.server.dispatch service id choice isdead).map fun (server, sent) =>
        { s with server, replies := s.replies ++ sent.toList }

/-- The instance of the server starts with the given nonce. -/
def machine (nonce : ι → Nat) (service : Service σ Local) (srvNonce : Nat) :
    Machine (System ι σ Local) (Action ι) where
  initial := {
    clients := fun _ => {}
    server := { nonce := srvNonce, service := service.initial } }
  step := step nonce service

/-- The client of a `call` issues fewer than 2^32 - 1 calls, this one included. -/
def FewCalls (s : System ι σ Local) : Action ι → Prop
  | .call c _ _ => (s.clients c).issued.length + 1 < 2 ^ 32 - 1
  | _ => True

instance (s : System ι σ Local) : ∀ action, Decidable (FewCalls s action)
  | .call c _ _ => Nat.decLt ((s.clients c).issued.length + 1) (2 ^ 32 - 1)
  | .transmit .. | .gotReply .. | .finish .. | .bind .. | .cancel _ | .gotRequest ..
  | .dispatch .. => instDecidableTrue

/-! ## What a step can do -/

inductive Stepped (nonce : ι → Nat) (service : Service σ Local) (s : System ι σ Local) :
    Action ι → System ι σ Local → Prop
  | call (c : ι) (proc : Nat) (payload : List UInt8) (cl : Client)
      (done : (s.clients c).call1 (nonce c) proc payload = some cl) :
      Stepped nonce service s (.call c proc payload) (s.setClient c cl)
  | transmit (c : ι) (number serial createTime : Nat) (ca : Caller)
      (current : (s.clients c).callers number = some ca) :
      Stepped nonce service s (.transmit c number serial createTime)
        { s with requests := s.requests ++ [({ client := c, serial, createTime }, ca.req)] }
  | gotReply (c : ι) (m : Message ι) (sent : m ∈ s.replies) (dest : m.dest = c) :
      Stepped nonce service s (.gotReply c m)
        (s.setClient c ((s.clients c).gotPdu m.answer.reply))
  | finish (c : ι) (number : Nat) (cl : Client)
      (done : (s.clients c).finish number = some cl) :
      Stepped nonce service s (.finish c number) (s.setClient c cl)
  | bind (c : ι) (ret : Return) (cl : Client) (done : (s.clients c).bind ret = some cl) :
      Stepped nonce service s (.bind c ret) (s.setClient c cl)
  | cancel (c : ι) :
      Stepped nonce service s (.cancel c) (s.setClient c (s.clients c).cancel)
  | gotRequest (id : Nat) (conn : Conn ι) (req : Request) (server : Server ι σ Local)
      (sent : (conn, req) ∈ s.requests) (done : s.server.gotPdu id conn req = some server) :
      Stepped nonce service s (.gotRequest id conn req) { s with server }
  | dispatch (id choice : Nat) (isdead : Bool) (server : Server ι σ Local)
      (sent : Option (Message ι)) (t : Thread ι Local) (current : s.server.threads id = some t)
      (done : Server.Dispatched service s.server id t server sent) :
      Stepped nonce service s (.dispatch id choice isdead)
        { s with server, replies := s.replies ++ sent.toList }

theorem step_cases {nonce : ι → Nat} {service : Service σ Local} {s next : System ι σ Local}
    {action : Action ι} (taken : step nonce service s action = some next) :
    Stepped nonce service s action next := by
  cases action with
  | call c proc payload =>
      rcases Option.map_eq_some_iff.mp taken with ⟨cl, done, rfl⟩
      exact .call c proc payload cl done
  | transmit c number serial createTime =>
      rcases Option.map_eq_some_iff.mp taken with ⟨ca, current, rfl⟩
      exact .transmit c number serial createTime ca current
  | gotReply c m =>
      simp only [step] at taken
      split at taken
      · next received =>
          cases taken
          exact .gotReply c m received.1 received.2
      · contradiction
  | finish c number =>
      rcases Option.map_eq_some_iff.mp taken with ⟨cl, done, rfl⟩
      exact .finish c number cl done
  | bind c ret =>
      rcases Option.map_eq_some_iff.mp taken with ⟨cl, done, rfl⟩
      exact .bind c ret cl done
  | cancel c =>
      cases taken
      exact .cancel c
  | gotRequest id conn req =>
      simp only [step] at taken
      split at taken
      · next sent =>
          rcases Option.map_eq_some_iff.mp taken with ⟨server, done, rfl⟩
          exact .gotRequest id conn req server sent done
      · contradiction
  | dispatch id choice isdead =>
      rcases Option.map_eq_some_iff.mp taken with ⟨⟨server, sent⟩, done, rfl⟩
      rcases Server.dispatch_cases done with ⟨t, current, stepped⟩
      exact .dispatch id choice isdead server sent t current stepped

@[simp] theorem setClient_self (s : System ι σ Local) (c : ι) (cl : Client) :
    (s.setClient c cl).clients c = cl :=
  Function.update_self _ _ _

theorem setClient_of_ne (s : System ι σ Local) (cl : Client) {c other : ι} (differs : other ≠ c) :
    (s.setClient c cl).clients other = s.clients other :=
  Function.update_of_ne differs _ _

/-- What holds of the client that changed, and of the others, holds of all. -/
theorem forall_setClient {s : System ι σ Local} {c : ι} {cl : Client} (p : ι → Client → Prop)
    (own : p c cl) (others : ∀ other, p other (s.clients other)) (other : ι) :
    p other ((s.setClient c cl).clients other) := by
  by_cases here : other = c
  · subst here
    rw [setClient_self]
    exact own
  · rw [setClient_of_ne s cl here]
    exact others other

/-- The issued requests of all clients. -/
def issued (s : System ι σ Local) (c : ι) : List Request := (s.clients c).issued

theorem issued_setClient {s : System ι σ Local} {c : ι} {cl : Client}
    (grown : (s.clients c).issued ⊆ cl.issued) (other : ι) :
    s.issued other ⊆ (s.setClient c cl).issued other :=
  forall_setClient (fun other cl => s.issued other ⊆ cl.issued) grown
    (fun _ => List.Subset.refl _) other

end Step

end System

end YfsRpc.Rpc
