import SeedNet.Noise
import SeedNet.Handlers

/-! # Sessions on the wire

Over the handlers, which name the messages they send, stands the code that encrypts them: a
`Datagram` is what `send_to` is given.  `Engine.transmit` encrypts the messages of a handler one
after the other, each under the transport of its session.

`Completion` is what remains to be done once a handshake has succeeded, in either role: the source
updates the shared maps one after the other, and other tasks run in between, so a completion has a
`Stage` and `Completion.run` performs the update of that stage.

Besides destination and bytes a datagram remembers its `Origin`, the line of the source that sent
it.  No definition of the engine reads it; results about the network use it to say which
datagrams are in flight. -/

namespace SeedNet

/-- What a datagram was sent as. -/
inductive Origin (S : Snow) where
  | messageA
  | messageB
  /-- handshake message C, with the transport that its sender has from then on -/
  | messageC (transport : SecureTransport S)
  | encrypted (transport : S.StatelessTransportState) (nonce : UInt64) (msg : Message)
  | holePunch

def Origin.isMessageC {S : Snow} : Origin S → Bool
  | .messageC _ => true
  | _ => false

/-- A datagram handed to `send_to`. -/
structure Datagram (S : Snow) where
  dst : TransportAddr
  bytes : Bytes
  origin : Origin S

variable {S : Snow}

namespace SecureTransport

@[simp] theorem encrypt_state (t : SecureTransport S) (p : Bytes) : (t.encrypt p).2.state = t.state := by
  unfold encrypt
  dsimp only
  split <;> rfl

theorem checkHeader_state (t : SecureTransport S) (d : Bytes) : (t.checkHeader d).2.state = t.state := by
  unfold checkHeader
  dsimp only
  split
  · rfl
  · split <;> rfl

@[simp] theorem decryptInto_state (t : SecureTransport S) (d out : Bytes) :
    (t.decryptInto d out).2.2.state = t.state := by
  have h := t.checkHeader_state d
  unfold decryptInto
  split <;> rename_i hc <;> rw [hc] at h
  · exact h
  · split <;> exact h

theorem datagramNonce_sealed (nonce : UInt64) (ct : Bytes) : datagramNonce (toLeBytes nonce ++ ct) = nonce := by
  rw [datagramNonce, List.take_left' (toLeBytes_length nonce), fromLeBytes_toLeBytes]

/-- A datagram that is long enough and fresh passes both checks. -/
theorem checkHeader_of_fresh (t : SecureTransport S) {nonce : UInt64} {ct : Bytes} (hlen : 16 ≤ ct.length)
    (hfresh : t.nonceWindow.fresh nonce = true) :
    t.checkHeader (toLeBytes nonce ++ ct) =
      (.ok (nonce, ct), { t with nonceWindow := (t.nonceWindow.checkAndInsert nonce).2 }) := by
  have hlong : ¬ (toLeBytes nonce ++ ct).length < nonceLen + 16 := by
    rw [List.length_append, toLeBytes_length]
    omega
  have hfresh' : (t.nonceWindow.checkAndInsert nonce).1 = true := hfresh
  simp only [checkHeader, if_neg hlong, datagramNonce_sealed, hfresh', Bool.not_true, Bool.false_eq_true, if_false,
    List.drop_left' (toLeBytes_length nonce)]

end SecureTransport

/-! ### Encrypting the messages of a handler -/

namespace Engine

variable (e : Engine (SecureTransport S))

/-- What `sessions.get_mut(&peer)` leaves in the session. -/
def setTransport (peer : PeerId) (session : PeerSession (SecureTransport S)) (t : SecureTransport S) :
    Engine (SecureTransport S) :=
  { e with sessions := e.sessions.replace peer { session with transport := t } }

/-- Encrypts and sends one message. -/
def transmitOne (s : Send) : Engine (SecureTransport S) × List (Datagram S) :=
  match e.sessions.lookup s.peer with
  | none => (e, [])
  | some session =>
    match session.transport.encrypt (serializeMessage s.msg) with
    | (.ok enc, t) =>
      (e.setTransport s.peer session t,
        [{ dst := s.addr.getD session.underlay
           bytes := enc
           origin := .encrypted session.transport.state session.transport.sendNonce s.msg }])
    | (.error _, t) => (e.setTransport s.peer session t, [])

def transmit : Engine (SecureTransport S) → List Send → Engine (SecureTransport S) × List (Datagram S)
  | e, [] => (e, [])
  | e, s :: sends =>
    let (e, out) := e.transmitOne s
    let (e, out') := transmit e sends
    (e, out ++ out')

/-! What encrypting and decrypting leaves alone: everything but the counters and windows of the
transports. -/

/-- The sessions of `e'` are those of `e`, up to the counters and windows of their transports. -/
structure SameSessions (e e' : Engine (SecureTransport S)) : Prop where
  ourPeerId : e'.ourPeerId = e.ourPeerId
  addrIndex : e'.addrIndex = e.addrIndex
  canRelayFlag : e'.canRelayFlag = e.canRelayFlag
  stunAddr : e'.stunAddr = e.stunAddr
  sessionInit : e'.sessionInit = e.sessionInit
  sessions : ∀ p, (e'.sessions.lookup p).map (fun s => (s.transport.state, s.underlay)) =
    (e.sessions.lookup p).map fun s => (s.transport.state, s.underlay)

variable {e e' e'' : Engine (SecureTransport S)}

theorem SameSessions.refl (e : Engine (SecureTransport S)) : e.SameSessions e :=
  ⟨rfl, rfl, rfl, rfl, rfl, fun _ => rfl⟩

theorem SameSessions.trans (h : e.SameSessions e') (h' : e'.SameSessions e'') : e.SameSessions e'' :=
  ⟨h'.1.trans h.1, h'.2.trans h.2, h'.3.trans h.3, h'.4.trans h.4, h'.5.trans h.5,
    fun p => (h'.6 p).trans (h.6 p)⟩

theorem Frame.sameSessions (h : e.Frame e') : e.SameSessions e' :=
  ⟨h.ourPeerId, h.addrIndex, h.canRelayFlag, h.stunAddr, h.sessionInit, fun p => by rw [h.sessions]⟩

theorem sameSessions_setTransport {peer : PeerId} {session : PeerSession (SecureTransport S)}
    {t : SecureTransport S} (h : e.sessions.lookup peer = some session)
    (ht : t.state = session.transport.state) : e.SameSessions (e.setTransport peer session t) := by
  refine ⟨rfl, rfl, rfl, rfl, rfl, fun p => ?_⟩
  simp only [setTransport, Map.lookup_replace]
  by_cases hp : p = peer
  · subst hp
    simp [h, ht]
  · simp [hp]

theorem sameSessions_transmitOne (s : Send) : e.SameSessions (e.transmitOne s).1 := by
  have ht := fun t : SecureTransport S => t.encrypt_state (serializeMessage s.msg)
  unfold transmitOne
  cases h : e.sessions.lookup s.peer with
  | none => exact .refl e
  | some session =>
      have ht' := ht session.transport
      dsimp only
      split <;> rename_i hc <;> rw [hc] at ht' <;> exact sameSessions_setTransport h ht'

theorem sameSessions_transmit (sends : List Send) (e : Engine (SecureTransport S)) :
    e.SameSessions (e.transmit sends).1 := by
  induction sends generalizing e with
  | nil => exact .refl e
  | cons s sends ih => exact (sameSessions_transmitOne s).trans (ih _)

theorem SameSessions.lookup_isSome (h : e.SameSessions e') (p : PeerId) :
    (e'.sessions.lookup p).isSome = (e.sessions.lookup p).isSome := by
  simpa using congrArg Option.isSome (h.sessions p)

theorem SameSessions.mem (h : e.SameSessions e') (p : PeerId) : p ∈ e'.sessions ↔ p ∈ e.sessions := by
  rw [← AList.lookup_isSome, ← AList.lookup_isSome, h.lookup_isSome]

theorem SameSessions.underlay (h : e.SameSessions e') (p : PeerId) :
    (e'.sessions.lookup p).map (·.underlay) = (e.sessions.lookup p).map (·.underlay) := by
  simpa [Option.map_map, Function.comp_def] using congrArg (Option.map Prod.snd) (h.sessions p)

/-! What is sent depends on the sessions. -/

theorem transmitOne_of_sessions (h : e'.sessions = e.sessions) (m : Send) :
    e'.transmitOne m = ({ e' with sessions := (e.transmitOne m).1.sessions }, (e.transmitOne m).2) := by
  unfold transmitOne
  rw [h]
  split
  · rw [← h]
  · split
    · rw [setTransport, setTransport, h]
    · rw [setTransport, setTransport, h]

theorem transmit_of_sessions (h : e'.sessions = e.sessions) (ms : List Send) :
    e'.transmit ms = ({ e' with sessions := (e.transmit ms).1.sessions }, (e.transmit ms).2) := by
  induction ms generalizing e e' with
  | nil =>
      rw [transmit, transmit, ← h]
  | cons m ms ih =>
      have hsame : { e' with sessions := (e.transmitOne m).1.sessions }.sessions = (e.transmitOne m).1.sessions := rfl
      rw [transmit, transmit, transmitOne_of_sessions h]
      dsimp only
      rw [ih hsame]

theorem transmit_append (ms ms' : List Send) : e.transmit (ms ++ ms') =
    (((e.transmit ms).1.transmit ms').1, (e.transmit ms).2 ++ ((e.transmit ms).1.transmit ms').2) := by
  induction ms generalizing e with
  | nil => rfl
  | cons m ms ih =>
      rw [List.cons_append, transmit, transmit]
      dsimp only
      rw [ih, List.append_assoc]

theorem keys_transmit (ms : List Send) : (e.transmit ms).1.sessions.keys = e.sessions.keys := by
  induction ms generalizing e with
  | nil => rfl
  | cons m ms ih =>
      rw [transmit]
      dsimp only
      rw [ih, transmitOne]
      split
      · rfl
      · split
        · exact AList.keys_replace _ _ _
        · exact AList.keys_replace _ _ _

/-- Directories and their receivers do not depend on counters. -/
theorem SameSessions.directPeers (h : e.SameSessions e') (hkeys : e'.sessions.keys = e.sessions.keys) (skip : PeerId) :
    e'.directPeers skip = e.directPeers skip := by
  let entry (p : PeerId) (a : TransportAddr) : Option DirectoryEntry :=
    if a.kind = .udp then if p = skip then none else some (p, a.socketAddr, 1) else none
  have hentries (e : Engine (SecureTransport S)) : e.directPeers skip =
      e.sessions.keys.filterMap fun p => ((e.sessions.lookup p).map (·.underlay)).bind (entry p) := by
    have hentry : e.directPeers skip = e.sessions.entries.filterMap fun s => entry s.1 s.2.underlay := by
      refine List.filterMap_congr fun s _ => ?_
      cases s.2.underlay <;> rfl
    refine hentry.trans ((Map.filterMap_entries e.sessions fun p s => entry p s.underlay).trans
      (List.filterMap_congr fun p _ => ?_))
    rw [Option.bind_map]
    rfl
  rw [hentries, hentries, hkeys]
  exact List.filterMap_congr fun p _ => by rw [h.underlay]

end Engine

/-! ### After a completed handshake -/

/-- The updates that follow a completed handshake, in their order. -/
inductive Stage where
  | relayPath
  | session
  | addrIndex
  | route
  | sessionInit
  | announce
  | directories
  | register
deriving DecidableEq, Repr

/-- A completed handshake whose results are being stored; `stage` is the next update. -/
structure Completion (S : Snow) where
  initiator : Bool
  peerId : PeerId
  underlay : TransportAddr
  transport : SecureTransport S
  stage : Stage := .relayPath

namespace Completion

variable (blake3 : Blake3) (c : Completion S) (e : Engine (SecureTransport S))

/-- The completion after the update of its stage, `none` after the last one. -/
def next : Option (Completion S) :=
  match c.stage with
  | .relayPath => some { c with stage := .session }
  | .session => some { c with stage := .addrIndex }
  | .addrIndex => some { c with stage := .route }
  | .route => some { c with stage := .sessionInit }
  | .sessionInit => some { c with stage := .announce }
  -- only the initiator sends directories here
  | .announce => some { c with stage := if c.initiator then .directories else .register }
  | .directories => some { c with stage := .register }
  | .register => none

/-- The update of the current stage, and what it sends. -/
def run : Engine (SecureTransport S) × List (Datagram S) :=
  match c.stage with
  | .relayPath => (e.removeRelayPath c.peerId, [])
  | .session => (e.insertSession c.peerId c.transport c.underlay, [])
  | .addrIndex => (e.insertAddrIndex c.underlay c.peerId, [])
  | .route => (e.addDerivedRoute blake3 c.peerId, [])
  | .sessionInit => e.transmit (e.sendSessionInit c.peerId c.underlay)
  | .announce => e.transmit (e.announce c.peerId c.underlay)
  | .directories => e.transmit (e.initiatorDirectories c.peerId c.underlay.socketAddr)
  | .register => (e.registerPeer c.peerId c.underlay.socketAddr, [])

/-- The session is not stored yet. -/
def Unstored (c : Completion S) : Prop := c.stage = .relayPath ∨ c.stage = .session

instance : Decidable c.Unstored := inferInstanceAs (Decidable (_ ∨ _))

variable {c} {e}

/-- Only two stages change sessions or the address index. -/
theorem run_sameSessions (hs : c.stage ≠ .session) (ha : c.stage ≠ .addrIndex) :
    e.SameSessions (c.run blake3 e).1 := by
  unfold run
  cases h : c.stage with
  | session => exact absurd h hs
  | addrIndex => exact absurd h ha
  | relayPath | route | register => exact ⟨rfl, rfl, rfl, rfl, rfl, fun _ => rfl⟩
  | sessionInit | announce | directories => exact Engine.sameSessions_transmit _ e

variable (c) (e) in
theorem run_identity :
    (c.run blake3 e).1.ourPeerId = e.ourPeerId ∧ (c.run blake3 e).1.sessionInit = e.sessionInit := by
  unfold run
  cases c.stage with
  | sessionInit | announce | directories =>
      exact ⟨(Engine.sameSessions_transmit _ e).ourPeerId, (Engine.sameSessions_transmit _ e).sessionInit⟩
  | _ => exact ⟨rfl, rfl⟩

end Completion

end SeedNet
