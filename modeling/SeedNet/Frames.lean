import SeedNet.Nonces

/-! # Frames on byte streams

`crates/transport/src/frame.rs` puts a 4-byte big-endian length before every datagram on a stream, and refuses to
read frames of more than 64 KiB; `Transport::recv_into` cuts a datagram off at the end of the caller's buffer.
`readFrame` says what `read_frame` makes of the bytes that have arrived so far: with too few of them it waits.

A datagram of `encrypt` has up to 65535 bytes from Noise, and 8 more for its nonce.
`fits_every_transport_iff`: it comes through unchanged exactly if that is at most the 65536 bytes of the two
other limits. -/

namespace SeedNet

/-- `u32::to_be_bytes`. -/
def toBeBytes (n : UInt32) : Bytes := [24, 16, 8, 0].map fun i : ℕ => (n.toNat >>> i).toUInt8

/-- `u32::from_be_bytes`, as `usize`. -/
def fromBeBytes (bs : Bytes) : ℕ := bs.foldl (fun (acc : ℕ) (b : UInt8) => 256 * acc + b.toNat) 0

/-- The bytes of the length. -/
def frameHeaderLen : ℕ := 4

@[simp] theorem length_toBeBytes (n : UInt32) : (toBeBytes n).length = frameHeaderLen := rfl

theorem fromBeBytes_toBeBytes (n : UInt32) : fromBeBytes (toBeBytes n) = n.toNat := by
  have h : n.toNat < 2 ^ 32 := n.toNat_lt
  simp only [fromBeBytes, toBeBytes, List.map_cons, List.map_nil, List.foldl_cons, List.foldl_nil,
    Nat.shiftRight_eq_div_pow, Nat.toUInt8_eq, UInt8.toNat_ofNat']
  omega

/-! ### Writing and reading -/

/-- The header of a frame with this payload; the length is cast to `u32`. -/
def frameHeader (payload : Bytes) : Bytes := toBeBytes payload.length.toUInt32

/-- The bytes that `write_frame` puts on the stream if its `write_vectored` takes `n` bytes. -/
def writeFrame (n : ℕ) (payload : Bytes) : Bytes :=
  let header := frameHeader payload
  let total := frameHeaderLen + payload.length
  (header ++ payload).take n ++
    if n < total then
      let sentHeader := min n frameHeaderLen
      if sentHeader < frameHeaderLen then header.drop sentHeader ++ payload
      else payload.drop (n - frameHeaderLen)
    else []

/-- However much the first write takes, the frame is written whole. -/
theorem writeFrame_eq (n : ℕ) (payload : Bytes) : writeFrame n payload = frameHeader payload ++ payload := by
  have hlen : (frameHeader payload).length = frameHeaderLen := length_toBeBytes _
  unfold writeFrame
  dsimp only
  split
  · split
    · next hshort =>
        have hn : n ≤ (frameHeader payload).length := by omega
        have hmin : min n frameHeaderLen = n := by omega
        rw [List.take_append_of_le_length hn, hmin, ← List.append_assoc, List.take_append_drop]
    · next hlong =>
        have hn : frameHeaderLen ≤ n := by omega
        rw [List.take_append, hlen, List.take_of_length_le (hlen.trans_le hn), List.append_assoc,
          List.take_append_drop]
  · next hall =>
      rw [List.take_of_length_le, List.append_nil]
      rw [List.length_append, hlen]
      omega

/-- The largest frame that is read. -/
def maxFrameLen : ℕ := 64 * 1024

/-- What `read_frame` makes of the bytes that have arrived. -/
inductive FrameRead where
  | frame (payload rest : Bytes)
  | tooLarge
  /-- it waits for more bytes -/
  | incomplete
deriving DecidableEq

def readFrame (stream : Bytes) : FrameRead :=
  if stream.length < frameHeaderLen then .incomplete
  else
    let len := fromBeBytes (stream.take frameHeaderLen)
    let body := stream.drop frameHeaderLen
    if maxFrameLen < len then .tooLarge
    else if body.length < len then .incomplete
    else .frame (body.take len) (body.drop len)

theorem readFrame_append {payload : Bytes} (hlen : payload.length < UInt32.size) (rest : Bytes) :
    readFrame (frameHeader payload ++ payload ++ rest) =
      if maxFrameLen < payload.length then .tooLarge else .frame payload rest := by
  have hheader : (frameHeader payload).length = frameHeaderLen := length_toBeBytes _
  have hvalue : fromBeBytes (frameHeader payload) = payload.length := by
    rw [frameHeader, fromBeBytes_toBeBytes]
    exact UInt32.toNat_ofNat_of_lt' hlen
  have hshort : ¬ (frameHeader payload ++ (payload ++ rest)).length < frameHeaderLen := by
    rw [List.length_append, hheader]
    omega
  have hbody : ¬ (payload ++ rest).length < payload.length := by
    rw [List.length_append]
    omega
  unfold readFrame
  rw [List.append_assoc, if_neg hshort, List.take_left' hheader, List.drop_left' hheader]
  dsimp only
  rw [hvalue, if_neg hbody, List.take_left, List.drop_left]

/-- The default `recv_into`: the bytes that the caller finds in `buf[..n]`. -/
def recvInto (msg buf : Bytes) : ℕ × Bytes :=
  let n := min msg.length buf.length
  (n, copyInto buf 0 (msg.take n))

/-- What the receiver of a datagram works with. -/
def received (msg buf : Bytes) : Bytes := (recvInto msg buf).2.take (recvInto msg buf).1

theorem received_eq (msg buf : Bytes) : received msg buf = msg.take buf.length := by
  have hlen : (msg.take (min msg.length buf.length)).length = min msg.length buf.length := by
    rw [List.length_take]
    omega
  unfold received recvInto copyInto
  dsimp only
  rw [List.take_zero, List.nil_append, List.take_left' hlen]
  rcases Nat.le_total msg.length buf.length with hle | hle
  · rw [Nat.min_eq_left hle, List.take_length, List.take_of_length_le hle]
  · rw [Nat.min_eq_right hle]

/-- A datagram as it is received through TCP, if it is; `rest` comes behind it on the stream. -/
def overTcp (n : ℕ) (datagram rest buf : Bytes) : Option Bytes :=
  match readFrame (writeFrame n datagram ++ rest) with
  | .frame payload _ => some (received payload buf)
  | _ => none

/-- A WebSocket message is passed on whole. -/
def overWs (datagram buf : Bytes) : Option Bytes := some (received datagram buf)

/-- Both kinds of transports deliver the datagram unchanged, into buffers as the engine has them. -/
def FitsEveryTransport (datagram : Bytes) : Prop :=
  ∀ buf : Bytes, buf.length = maxUdp →
    (∀ n rest, overTcp n datagram rest buf = some datagram) ∧ overWs datagram buf = some datagram

theorem fitsEveryTransport_iff {datagram : Bytes} (hlen : datagram.length < UInt32.size) :
    FitsEveryTransport datagram ↔ datagram.length ≤ maxUdp := by
  constructor
  · intro h
    have hws := (h (List.replicate maxUdp 0) List.length_replicate).2
    have htake : datagram.take maxUdp = datagram := by
      rw [overWs, received_eq, List.length_replicate] at hws
      exact Option.some.inj hws
    exact List.take_eq_self_iff _ |>.mp htake
  · intro h buf hbuf
    have hreceived : received datagram buf = datagram := by
      rw [received_eq, hbuf, List.take_of_length_le h]
    refine ⟨fun n rest => ?_, congrArg some hreceived⟩
    have hfits : ¬ maxFrameLen < datagram.length := Nat.not_lt.mpr h
    rw [overTcp, writeFrame_eq, readFrame_append hlen, if_neg hfits]
    exact congrArg some hreceived

/-- On a stream, a datagram that is too long ends the connection. -/
theorem readFrame_tooLarge {datagram : Bytes} (hlen : datagram.length < UInt32.size) (h : maxUdp < datagram.length)
    (n : ℕ) (rest : Bytes) : readFrame (writeFrame n datagram ++ rest) = .tooLarge := by
  rw [writeFrame_eq, readFrame_append hlen]
  exact if_pos h

variable {S : Snow}

/-- **What is encrypted fits every transport** exactly if the plaintext has at most 65512 bytes. -/
theorem fits_every_transport_iff (hlimited : S.Limited) (t t' : SecureTransport S) (plaintext datagram : Bytes)
    (h : t.encrypt plaintext = (.ok datagram, t')) :
    FitsEveryTransport datagram ↔ plaintext.length ≤ maxUdp - transportOverhead := by
  obtain ⟨hlen, hmax⟩ := SecureTransport.length_encrypt hlimited h
  rw [fitsEveryTransport_iff, hlen]
  · simp only [maxUdp, transportOverhead]
    omega
  · simp only [transportOverhead, maxMessageLen] at hlen hmax
    simp only [UInt32.size]
    omega

open Transparent in
theorem fits_every_transport_first :
    FitsEveryTransport (toLeBytes 0 ++ ([1, 2, 3] ++ tag limitedTransport.state 0)) :=
  (fits_every_transport_iff limited_limited limitedTransport (limitedTransport.encrypt [1, 2, 3]).2 [1, 2, 3] _ rfl).mpr
    (by decide)

open Transparent in
/-- The shortest plaintext that does not fit. -/
theorem datagram_does_not_fit :
    ¬ ∀ (S : Snow), S.Limited → ∀ (t t' : SecureTransport S) (plaintext datagram : Bytes),
      t.encrypt plaintext = (.ok datagram, t') → FitsEveryTransport datagram := by
  intro h
  obtain ⟨plaintext, hplain⟩ : ∃ plaintext : Bytes, plaintext.length = 65513 := ⟨List.replicate _ 0, List.length_replicate⟩
  have hlimits : WithinLimits limitedTransport.sendNonce plaintext := ⟨by decide, by rw [hplain]; decide⟩
  obtain ⟨datagram, hdatagram⟩ := limitedTransport.encrypt_ok limited_limited hlimits
  have hfits := h limited limited_limited limitedTransport _ plaintext datagram hdatagram
  have hlen := (SecureTransport.length_encrypt limited_limited hdatagram).1
  rw [hplain] at hlen
  have hmax := (fitsEveryTransport_iff (by rw [hlen]; decide)).mp hfits
  rw [hlen] at hmax
  exact absurd hmax (by decide)

end SeedNet
