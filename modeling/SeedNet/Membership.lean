import SeedNet.OpenNetwork

/-! # Who can join a network

Nodes of different networks share one underlay: each node has a network secret of its own, and a seed is what the
members of a network have in common.  Noise binds a handshake to the secret (`Snow.BindsSecret`): messages B and C are
accepted only from an end that has the same one.

`only_members`: in every run in which no messages B and C are forged, a node has sessions with members of its own
network only, and handles only their messages. -/

namespace SeedNet

open Run (exec Along)
open Snow (WroteA WroteB InitiatorEnd)

variable {S : Snow}

/-- The ends of a handshake have one network secret, and see each other's static keys. -/
structure Snow.BindsSecret (S : Snow) (publicKey : Bytes32 → Bytes32) : Prop where
  messageB : ∀ secret key (state : S.HandshakeState) msgA secret' key' (state' : S.HandshakeState) msgB,
    WroteA secret key state msgA → WroteB secret' key' state' msgB → ∀ payload s m s' t,
      S.readMessage state msgB = .ok (payload, s) → S.writeMessage s [] = .ok (m, s') → intoTransport s' = .ok t →
        secret = secret' ∧ t.remoteStatic = publicKey key'
  messageC : ∀ secret key (state : S.HandshakeState) msgB secret' key' msgC (t' : SecureTransport S),
    WroteB secret key state msgB → InitiatorEnd secret' key' msgC t' → ∀ payload s t,
      S.readMessage state msgC = .ok (payload, s) → intoTransport s = .ok t →
        secret = secret' ∧ t.remoteStatic = publicKey key'

def Origin.isMessageB : Origin S → Bool
  | .messageB => true
  | _ => false

/-- A node sends genuine datagrams, whichever loop sends them. -/
theorem Node.Honest.genuine_loop {blake3 : Blake3} {n : Node S} {networkSecret key : Bytes32}
    (h : n.Honest networkSecret key) {a : LoopAction S} {d : Datagram S} (hd : d ∈ (n.loopStep blake3 a).out) :
    d.Genuine networkSecret key := by
  have hsealed {e : Engine (SecureTransport S)} {sends : List Send} (hd : d ∈ (e.transmit sends).2) :
      d.Genuine networkSecret key := by
    obtain ⟨ts, nonce, msg, ho, hs⟩ := Engine.mem_transmit hd
    unfold Datagram.Genuine
    rw [ho]
    exact hs
  cases a with
  | task a => exact h.genuine hd
  | tunPacket | healthcheck => exact hsealed hd
  | relayFlag | stunAddr => cases hd

namespace OpenNetwork

variable {ι : Type} [DecidableEq ι] {blake3 : Blake3} {w : OpenNetwork ι S} {publicKey : Bytes32 → Bytes32}

/-- The network that the node `x` belongs to. -/
def secret (w : OpenNetwork ι S) (x : ι) : Bytes32 := (w.node x).networkSecret

/-- The peer is a node of the same network. -/
def Member (w : OpenNetwork ι S) (x : ι) (peer : PeerId) : Prop := ∃ y, w.peerId y = peer ∧ w.secret y = w.secret x

/-- Messages B and C that are accepted were sent by nodes. -/
def Written (w : OpenNetwork ι S) : ι × LoopAction S → Prop
  | (x, .task (.receive a)) => ∀ r ∈ (w.node x).pendingResponders.lookup a.fromAddr.socketAddr,
    (r.1.finish a.data).isOk → ∃ p ∈ w.sent, p.2.bytes = a.data ∧ p.2.origin.isMessageC = true
  | (x, .task (.attempt id _ _)) => ∀ attempt ∈ (w.node x).attempts.lookup id, ∀ data ∈ attempt.inbox,
    (attempt.answer data).isOk → ∃ p ∈ w.sent, p.2.bytes = data ∧ p.2.origin.isMessageB = true
  | _ => True

/-- Every node has sessions with members, and every datagram was written by its sender. -/
structure Closed (publicKey : Bytes32 → Bytes32) (w : OpenNetwork ι S) : Prop where
  honest : ∀ x, (w.node x).Honest (w.secret x) (w.staticKey x)
  peerId_eq : ∀ x, w.peerId x = .fromBytes (publicKey (w.staticKey x))
  genuine : ∀ p ∈ w.sent, p.2.Genuine (w.secret p.1) (w.staticKey p.1)
  members : ∀ x, (w.node x).Backed fun peer _ => w.Member x peer
  handled : ∀ r ∈ w.handled, w.Member r.receiver r.peer

@[simp] theorem next_secret (step : ι × LoopAction S) (x : ι) : (w.next blake3 step).secret x = w.secret x := by
  rw [secret, next_node]
  split
  · obtain ⟨y, a⟩ := step
    cases a with
    | task a => exact (Node.next_keys blake3 (w.node x) a).1
    | tunPacket | healthcheck | relayFlag | stunAddr => rfl
  · rfl

theorem member_next (step : ι × LoopAction S) {x : ι} {peer : PeerId} :
    (w.next blake3 step).Member x peer ↔ w.Member x peer := by
  simp only [Member, next_peerId, next_secret]

omit [DecidableEq ι] in
/-- An initiator accepts message B from a member of its network. -/
theorem Closed.member_of_answer (laws : S.BindsSecret publicKey) (h : w.Closed publicKey) {x : ι} {id : ℕ}
    {attempt : Attempt S} {data : Bytes} {result : HandshakeResult S}
    (hat : (w.node x).attempts.lookup id = some attempt) (hanswer : attempt.answer data = .ok result)
    {p : ι × Datagram S} (hp : p ∈ w.sent) (hbytes : p.2.bytes = data) (ho : p.2.origin.isMessageB = true) :
    w.Member x (.fromBytes result.transport.remoteStaticKey) := by
  have hgenuine := h.genuine p hp
  unfold Datagram.Genuine at hgenuine
  cases horigin : p.2.origin with
  | messageB =>
      rw [horigin] at hgenuine
      obtain ⟨state', m, hB, hm⟩ := hgenuine
      obtain ⟨msgA, hA, -⟩ := (h.honest x).attempts id attempt hat
      obtain ⟨payload, s, s', hread, hwrite, ht⟩ := Attempt.answer_eq_ok hanswer
      rw [← hbytes, hm, List.drop_left] at hread
      obtain ⟨hsecret, hkey⟩ := laws.messageB _ _ _ _ _ _ _ _ hA hB _ _ _ _ _ hread hwrite ht
      refine ⟨p.1, ?_, hsecret.symm⟩
      rw [h.peerId_eq, SecureTransport.remoteStaticKey, hkey]
  | messageA | messageC | encrypted | holePunch =>
      rw [horigin] at ho
      cases ho

omit [DecidableEq ι] in
/-- A responder accepts message C from a member of its network. -/
theorem Closed.member_of_finish (laws : S.BindsSecret publicKey) (h : w.Closed publicKey) {x : ι} {sa : SocketAddr}
    {responder : ResponderHandshake S} {created : ℕ} {data : Bytes} {result : HandshakeResult S}
    (hr : (w.node x).pendingResponders.lookup sa = some (responder, created))
    (hfinish : responder.finish data = .ok result) {p : ι × Datagram S} (hp : p ∈ w.sent) (hbytes : p.2.bytes = data)
    (ho : p.2.origin.isMessageC = true) : w.Member x (.fromBytes result.transport.remoteStaticKey) := by
  have hgenuine := h.genuine p hp
  unfold Datagram.Genuine at hgenuine
  cases horigin : p.2.origin with
  | messageC t' =>
      rw [horigin, hbytes] at hgenuine
      obtain ⟨msgB, hB⟩ := (h.honest x).responders sa responder created hr
      obtain ⟨payload, s, hread, ht⟩ := ResponderHandshake.finish_eq_ok hfinish
      obtain ⟨hsecret, hkey⟩ := laws.messageC _ _ _ _ _ _ _ _ hB hgenuine _ _ _ hread ht
      refine ⟨p.1, ?_, hsecret.symm⟩
      rw [h.peerId_eq, SecureTransport.remoteStaticKey, hkey]
  | messageA | messageB | encrypted | holePunch =>
      rw [horigin] at ho
      cases ho

theorem Closed.next (laws : S.BindsSecret publicKey) (h : w.Closed publicKey) {step : ι × LoopAction S}
    (hok : w.Written step) : (w.next blake3 step).Closed publicKey where
  honest x := by
    rw [next_secret, next_staticKey, next_node]
    split
    · exact (h.honest x).loopNext step.2
    · exact h.honest x
  peerId_eq x := by
    rw [next_peerId, next_staticKey]
    exact h.peerId_eq x
  genuine p hp := by
    rw [next_secret, next_staticKey]
    rcases List.mem_append.mp hp with hp | hp
    · exact h.genuine p hp
    · obtain ⟨d, hd, rfl⟩ := List.mem_map.mp hp
      exact (h.honest step.1).genuine_loop hd
  members x := by
    simp only [member_next, next_node]
    obtain ⟨y, a⟩ := step
    split
    · next hx =>
        obtain rfl : x = y := hx
        cases a with
        | task a =>
            refine (h.members x).next a ?_ ?_
            · intro arrival responder created result ha hr hfinish
              subst ha
              obtain ⟨p, hp, hbytes, ho⟩ := hok (responder, created) hr (by rw [hfinish]; rfl)
              exact h.member_of_finish laws hr hfinish hp hbytes ho
            · intro id token attempt data result ha hat hinbox hanswer
              subst ha
              obtain ⟨p, hp, hbytes, ho⟩ := hok attempt hat data hinbox (by rw [hanswer]; rfl)
              exact h.member_of_answer laws hat hanswer hp hbytes ho
        | tunPacket | healthcheck | relayFlag | stunAddr => exact (h.members x).of_loop fun _ he => by cases he
    · exact h.members x
  handled r hr := by
    rw [member_next]
    rcases List.mem_append.mp hr with hr | hr
    · exact h.handled r hr
    · obtain ⟨q, hq, rfl⟩ := List.mem_map.mp hr
      obtain ⟨arrival, m, -, hopens, hfrom⟩ := Node.mem_decrypts hq
      obtain ⟨peer, ts, -, -, hfrom', hseals, -⟩ := Node.read_of_opens hopens
      cases hfrom.symm.trans hfrom'
      exact (h.members step.1).sessions q.1 ts hseals

/-! The condition can be computed. -/

instance : ∀ step, Decidable (w.Written step)
  | (x, .task (.receive a)) =>
    inferInstanceAs (Decidable (∀ r ∈ (w.node x).pendingResponders.lookup a.fromAddr.socketAddr,
      (r.1.finish a.data).isOk → ∃ p ∈ w.sent, p.2.bytes = a.data ∧ p.2.origin.isMessageC = true))
  | (x, .task (.attempt id _ _)) =>
    inferInstanceAs (Decidable (∀ attempt ∈ (w.node x).attempts.lookup id, ∀ data ∈ attempt.inbox,
      (attempt.answer data).isOk → ∃ p ∈ w.sent, p.2.bytes = data ∧ p.2.origin.isMessageB = true))
  | (_, .task .inbound) | (_, .task (.start ..)) | (_, .task (.timeout _)) | (_, .task (.discover _))
  | (_, .task .discovery) | (_, .task (.removed _)) | (_, .task .removal) | (_, .task (.broadcast _))
  | (_, .tunPacket ..) | (_, .healthcheck ..) | (_, .relayFlag _) | (_, .stunAddr _) => isTrue trivial

/-- **Only members join.**  Whatever is delivered, as long as nobody forges messages B and C: the sessions of a node
are with members of its own network, and so are the session messages that it handles. -/
theorem only_members (blake3 : Blake3) {publicKey : Bytes32 → Bytes32} (laws : S.BindsSecret publicKey)
    {w : OpenNetwork ι S} (h : ∀ x, (w.node x).Started publicKey (w.secret x)) (hsent : w.sent = [])
    (hhandled : w.handled = []) {steps : List (ι × LoopAction S)} (hok : Along (next blake3) Written w steps) :
    (∀ x peer ts, ((exec (next blake3) w steps).node x).engine.Seals peer ts →
      (exec (next blake3) w steps).Member x peer) ∧
      ∀ r ∈ (exec (next blake3) w steps).handled, (exec (next blake3) w steps).Member r.receiver r.peer := by
  have hstart : w.Closed publicKey :=
    { honest := fun x => ((h x).rooted rfl).toHonest
      peerId_eq := fun x => by
        rw [peerId, (h x).ourPeerId_eq, DeviceKeys.peerId, (h x).publicKey_eq]
        rfl
      genuine := fun p hp => absurd (hsent ▸ hp) List.not_mem_nil
      members := fun x => ((h x).backed _)
      handled := fun r hr => absurd (hhandled ▸ hr) List.not_mem_nil }
  have hclosed := hok.invariant (I := fun w : OpenNetwork ι S => w.Closed publicKey)
    (fun w step hw ok => hw.next laws ok) hstart
  exact ⟨fun x peer ts hseals => (hclosed.members x).sessions peer ts hseals, hclosed.handled⟩

end OpenNetwork

/-! ### A run -/

namespace Transparent

/-- Message B repeats the secret of its responder. -/
theorem messageB_eq {networkSecret key : Bytes32} {s : State} {m : Bytes}
    (h : WroteB (S := named) networkSecret key s m) :
    ∃ ei er, m = 11 :: ei :: er :: (networkSecret.bytes ++ (key.bytes ++ [])) := by
  obtain ⟨msgA, rng, s₀, payload, s₁, hbuild, hread, hwrite⟩ := h
  rw [buildResponder_eq hbuild] at hread
  simp only [named, transparent, readMessage] at hread
  split at hread
  · cases hread
    exact ⟨_, rng, (Prod.mk.inj (Except.ok.inj hwrite)).1.symm⟩
  · next h => cases h
  · next h => cases h
  · cases hread

/-- A body that opens was sealed with the same secret. -/
theorem secret_of_openBody {s : State} {networkSecret networkSecret' key k : Bytes32} {payload : Bytes}
    (hs : s.prologue = networkSecret.bytes)
    (h : openBody s (networkSecret'.bytes ++ (key.bytes ++ [])) = some (k, payload)) :
    networkSecret = networkSecret' ∧ k = key := by
  unfold openBody at h
  split at h
  · next hpre =>
      obtain ⟨rest, hrest⟩ := startsWith_iff.mp hpre
      rw [hs] at hrest
      obtain ⟨hsecret, rfl⟩ :=
        List.append_inj hrest (networkSecret'.length_eq.trans networkSecret.length_eq.symm)
      rw [hrest, hs, List.drop_left, takeKey_append] at h
      cases h
      exact ⟨Bytes32.ext_iff'.mpr hsecret.symm, rfl⟩
  · cases h

/-- Handshake messages repeat the secret. -/
theorem bindsSecret_named : named.BindsSecret id where
  messageB := by
    intro secret key state msgA secret' key' state' msgB hA hB payload s m s' t hread hwrite ht
    obtain ⟨ei, rfl⟩ := wroteA_eq hA
    obtain ⟨ei', er, rfl⟩ := messageB_eq hB
    simp only [named, transparent, readMessage] at hread
    split at hread
    · next k payload hopen =>
        obtain ⟨hsecret, rfl⟩ := secret_of_openBody rfl hopen
        split at hread
        · cases hread
          cases hwrite
          cases ht
          exact ⟨hsecret, rfl⟩
        · cases hread
    · cases hread
  messageC := by
    intro secret key state msgB secret' key' msgC t' hB hwrote payload s t hread ht
    obtain ⟨s', hC, -⟩ := hwrote
    obtain ⟨ei, er, rfl⟩ := wroteB_eq hB
    obtain ⟨k, hmsg, rfl⟩ := readC_eq rfl hread
    obtain ⟨ei', er', k', hmsg', -⟩ := wroteC_eq hC
    rw [hmsg'] at hmsg
    simp only [List.cons.injEq, true_and] at hmsg
    obtain ⟨-, -, hbody⟩ := hmsg
    obtain ⟨hsecret, hkeys⟩ := List.append_inj hbody (secret'.length_eq.trans secret.length_eq.symm)
    obtain ⟨hkey, -⟩ := List.append_inj hkeys (key'.length_eq.trans k.length_eq.symm)
    cases ht
    exact ⟨Bytes32.ext_iff'.mpr hsecret.symm, Bytes32.ext_iff'.mpr hkey.symm⟩

/-- Beside the nodes 1 and 2 there is a node of another network. -/
def withStranger : OpenNetwork (Option Bool) named where
  node
    | some x => openNetwork.node x
    | none => { namedNode 3 with networkSecret := .replicate 7 }

/-- A datagram arrives at a node from the address of node `k`. -/
def arrivesFrom (x : Option Bool) (k rng : UInt8) (data : Bytes) : Option Bool × LoopAction named :=
  (x, .task (.receive { now := 0, nowMs := 0, rng := rng, fromAddr := .udp (addr k), data := data }))

/-- The stranger and node 2 try to shake hands, and node 2 answers; then the nodes 1 and 2 greet each other. -/
def strangerRun : List (Option Bool × LoopAction named) :=
  [(none, .task (.start (addr 2) (5 : UInt8))), (none, .task (.attempt 0 true 0)),
    arrivesFrom (some true) 3 6 (messageA 5), arrivesFrom none 2 0 (messageB 2 5 6), (none, .task .inbound),
    (none, .task (.attempt 0 true 0))] ++
    openGreeting.map (Prod.map some id)

end Transparent

open Transparent

theorem only_members_stranger :
    (exec (OpenNetwork.next blake3) withStranger strangerRun).handled.length = 1 ∧
      (∀ x peer ts, ((exec (OpenNetwork.next blake3) withStranger strangerRun).node x).engine.Seals peer ts →
        (exec (OpenNetwork.next blake3) withStranger strangerRun).Member x peer) ∧
      ∀ r ∈ (exec (OpenNetwork.next blake3) withStranger strangerRun).handled,
        (exec (OpenNetwork.next blake3) withStranger strangerRun).Member r.receiver r.peer :=
  ⟨by decide +kernel, OpenNetwork.only_members blake3 bindsSecret_named
    (fun | none => ⟨rfl, rfl, rfl, rfl, rfl, rfl, rfl⟩
         | some false => ⟨rfl, rfl, rfl, rfl, rfl, rfl, rfl⟩
         | some true => ⟨rfl, rfl, rfl, rfl, rfl, rfl, rfl⟩) rfl rfl (by decide +kernel)⟩

end SeedNet
