import SeedNet.TransparentHandshake

/-! # A transparent instance that names the parties

`named` has the handshake of `transparent`; in addition the state for the traffic knows both static keys, and a
ciphertext is read only by the party that it names (`sees_of_read`).  The keys take one byte of the tag each, so they are
keys of one repeated byte. -/

namespace SeedNet

namespace Transparent

open Snow (InitiatorEnd ResponderEnd WroteC WroteB)

/-- Stateless transport: the role and the ephemerals, and the two static keys. -/
structure NamedTransport where
  ends : Transport
  own : Bytes32
  remote : Bytes32
deriving DecidableEq

/-- A key of one repeated byte. -/
def repeated (key : Bytes32) : Bool := decide (key = .replicate (key.bytes.headD 0))

namespace NamedTransport

/-- The other end of the same handshake. -/
def peer (ts : NamedTransport) : NamedTransport := { ends := ts.ends.peer, own := ts.remote, remote := ts.own }

/-- The keys fit into a tag. -/
def short (ts : NamedTransport) : Bool := repeated ts.own && repeated ts.remote

end NamedTransport

def intoNamed (s : State) : Except String NamedTransport :=
  match s.peerStatic with
  | some remote => (intoTransport s).map fun ends => { ends := ends, own := s.static, remote := remote }
  | none => .error "handshake not finished"

/-- The 16-byte tag of a ciphertext written by `ts` under `nonce`. -/
def namedTag (ts : NamedTransport) (nonce : UInt64) : Bytes :=
  [if ts.ends.initiator then 1 else 2, ts.ends.initiatorEph, ts.ends.responderEph, ts.own.bytes.headD 0,
    ts.remote.bytes.headD 0] ++ toLeBytes nonce ++ [0, 0, 0]

def namedWrite (ts : NamedTransport) (nonce : UInt64) (payload : Bytes) (room : ℕ) : Except String Bytes :=
  if room < payload.length + 16 ∨ ts.short = false then .error "input error" else .ok (payload ++ namedTag ts nonce)

def namedRead (ts : NamedTransport) (nonce : UInt64) (ct : Bytes) (room : ℕ) : Except String Bytes :=
  if ct = ct.take (ct.length - 16) ++ namedTag ts.peer nonce ∧ ct.length - 16 ≤ room ∧ ts.short = true then
    .ok (ct.take (ct.length - 16))
  else .error "decrypt error"

end Transparent

open Transparent

/-- The transparent instance that names the parties. -/
def named : Snow :=
  { transparent with
    StatelessTransportState := NamedTransport
    intoStatelessTransportMode := intoNamed
    transportWrite := namedWrite
    transportRead := namedRead }

instance : DecidableEq named.StatelessTransportState := inferInstanceAs (DecidableEq NamedTransport)

namespace Transparent

open Snow (InitiatorEnd ResponderEnd WroteC WroteB)

@[simp] theorem namedTag_length (ts : NamedTransport) (nonce : UInt64) : (namedTag ts nonce).length = 16 := by
  simp [namedTag, nonceLen]

theorem eq_of_head {a b : Bytes32} (ha : repeated a = true) (hb : repeated b = true)
    (h : a.bytes.headD 0 = b.bytes.headD 0) : a = b := by
  rw [of_decide_eq_true ha, of_decide_eq_true hb, h]

/-- A ciphertext is read by the party it names, as it was written. -/
theorem sees_of_read {ts ts' : NamedTransport} {nonce : UInt64} {payload ct plain : Bytes} {room room' : ℕ}
    (hwrite : namedWrite ts nonce payload room = .ok ct) (hread : namedRead ts' nonce ct room' = .ok plain) :
    plain = payload ∧ ts.remote = ts'.own ∧ ts.own = ts'.remote := by
  unfold namedWrite at hwrite
  unfold namedRead at hread
  split_ifs at hwrite with hw
  split_ifs at hread with hr
  cases hwrite
  cases hread
  obtain ⟨heq, -, hshort'⟩ := hr
  have hshort : ts.short = true := Bool.not_eq_false _ ▸ (not_or.mp hw).2
  obtain ⟨hown, hremote⟩ := (Bool.and_eq_true_iff).mp hshort
  obtain ⟨hown', hremote'⟩ := (Bool.and_eq_true_iff).mp hshort'
  have htake : (payload ++ namedTag ts nonce).take ((payload ++ namedTag ts nonce).length - 16) = payload := by
    rw [List.length_append, namedTag_length, Nat.add_sub_cancel, List.take_left]
  rw [htake] at heq ⊢
  have htag := List.append_cancel_left heq
  simp only [namedTag, List.cons_append, List.nil_append, List.cons.injEq] at htag
  obtain ⟨-, -, -, ho, hr, -⟩ := htag
  exact ⟨rfl, eq_of_head hremote hown' hr, eq_of_head hown hremote' ho⟩

/-- Only one state reads a ciphertext. -/
theorem eq_of_reads {ts ts' : NamedTransport} {nonce : UInt64} {ct plain plain' : Bytes} {room room' : ℕ}
    (hread : namedRead ts nonce ct room = .ok plain) (hread' : namedRead ts' nonce ct room' = .ok plain') :
    ts = ts' := by
  unfold namedRead at hread hread'
  split_ifs at hread hread' with h h'
  obtain ⟨hct, -, hshort⟩ := h
  obtain ⟨hct', -, hshort'⟩ := h'
  obtain ⟨hown, hremote⟩ := (Bool.and_eq_true_iff).mp hshort
  obtain ⟨hown', hremote'⟩ := (Bool.and_eq_true_iff).mp hshort'
  have htag := List.append_cancel_left (hct.symm.trans hct')
  obtain ⟨⟨i, ei, er⟩, own, remote⟩ := ts
  obtain ⟨⟨i', ei', er'⟩, own', remote'⟩ := ts'
  simp only [namedTag, NamedTransport.peer, Transport.peer, List.cons_append, List.nil_append, List.cons.injEq] at htag
  obtain ⟨hi, he, hr, ho, hm, -⟩ := htag
  obtain rfl : i = i' := by
    cases i <;> cases i' <;> first | rfl | cases hi
  have hremotes : remote = remote' := eq_of_head hremote hremote' ho
  have howns : own = own' := eq_of_head hown hown' hm
  rw [he, hr, hremotes, howns]

/-- An end of a handshake knows its own static key and the one it has seen. -/
theorem ends_named {networkSecret key : Bytes32} {m : Bytes} {t : SecureTransport named}
    (h : InitiatorEnd (S := named) networkSecret key m t ∨ ResponderEnd (S := named) networkSecret key m t) :
    (t.state : NamedTransport).own = key ∧ (t.state : NamedTransport).remote = t.remoteStatic := by
  rcases h with ⟨s, hC, ht⟩ | ⟨s₀, msgB, payload, s, hB, hread, ht⟩
  · obtain ⟨ei, er, k, -, rfl⟩ := wroteC_eq hC
    cases ht
    exact ⟨rfl, rfl⟩
  · obtain ⟨ei, er, hs⟩ := wroteB_eq hB
    obtain ⟨k, -, hs'⟩ := readC_eq hs hread
    subst hs hs'
    cases ht
    exact ⟨rfl, rfl⟩

/-- Node `k`, with the overlay address that is derived from its identity. -/
def namedNode (k : UInt8) : Node named where
  networkSecret := secret
  deviceKeys := { x25519StaticSecret := .replicate k, x25519PublicKey := .replicate k }
  engine :=
    { ourPeerId := .replicate k
      siOverlay := deriveOverlayAddr blake3 (.replicate k)
      siOverlayIpv6 := default
      siHostname := "node" }
  plainBuf := List.replicate 256 0

end Transparent

end SeedNet
