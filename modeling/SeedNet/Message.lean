import Mathlib.Algebra.Group.Action.Defs
import Mathlib.Algebra.Order.BigOperators.Group.List
import SeedNet.Common
import SeedNet.Postcard

/-! # Wire messages

`crates/peer/src/message.rs`: the twelve messages peers exchange and their postcard encoding.
The discriminants are the positions of the variants in the source's enum.

`deserialize_serialize` is the round trip: what `serializeMessage` writes, `deserializeMessage`
reads back, with anything after it, as long as no socket address carries an IPv6 flow label or
scope id (serde writes addresses as `(ip, port)`) and no length overflows `usize`
(`Message.Encodable`). -/

namespace SeedNet

open Postcard (Codec)
open Results (bind_eq_ok map_eq_ok)

/-- A directory entry: peer, public address, hop count from the sender. -/
abbrev DirectoryEntry := PeerId × SocketAddr × UInt8

inductive Message where
  | data (payload : Bytes)
  | heartbeat
  | ping (sentMs : UInt64)
  | pong (sentMs : UInt64)
  | sessionInit (overlay : OverlayAddr) (overlayIpv6 : Option Ipv6Addr) (hostname : String)
      (publicAddr : Option SocketAddr)
  | holePunchProbe (token : UInt64)
  | holePunchAck (token : UInt64)
  | relayRequest (dstPeerId : PeerId)
  | relayReady (relayPeerId dstPeerId : PeerId) (hopCount : UInt8)
  | relayData (srcPeerId dstPeerId : PeerId) (payload : Bytes)
  | relayAnnounce (relayPeerId : PeerId) (publicAddr : SocketAddr)
  | peerDirectory (entries : List DirectoryEntry)
deriving DecidableEq, Inhabited

namespace Message

/-! ### The fields -/

def ipv4Codec : Codec Ipv4Addr :=
  (Postcard.fixed 4).map
    (fun
      | [a, b, c, d] => ⟨a, b, c, d⟩
      | _ => default)
    Ipv4Addr.octets

def ipv6Codec : Codec Ipv6Addr :=
  (Postcard.fixed 16).map (fun bs => if h : bs.length = 16 then ⟨bs, h⟩ else default) Ipv6Addr.octets

def peerIdCodec : Codec PeerId :=
  (Postcard.fixed publicKeyLen).map
    (fun bs => if h : bs.length = publicKeyLen then ⟨⟨bs, h⟩⟩ else default) PeerId.asBytes

def overlayCodec : Codec OverlayAddr := ipv4Codec.map OverlayAddr.mk OverlayAddr.ip

/-- serde's encoding of a socket address: the variant, then `(ip, port)`. -/
def socketAddrCodec : Codec SocketAddr where
  encode
    | .v4 ip port => Postcard.u32.encode 0 ++ (Postcard.pair ipv4Codec Postcard.u16).encode (ip, port)
    | .v6 ip port _ _ => Postcard.u32.encode 1 ++ (Postcard.pair ipv6Codec Postcard.u16).encode (ip, port)
  decode bs := do
    let (variant, bs) ← Postcard.u32.decode bs
    if variant = 0 then
      let ((ip, port), bs) ← (Postcard.pair ipv4Codec Postcard.u16).decode bs
      .ok (.v4 ip port, bs)
    else if variant = 1 then
      let ((ip, port), bs) ← (Postcard.pair ipv6Codec Postcard.u16).decode bs
      .ok (.v6 ip port 0 0, bs)
    else .error .unknownVariant

def entryCodec : Codec DirectoryEntry :=
  Postcard.pair peerIdCodec (Postcard.pair socketAddrCodec Postcard.u8)

def sessionInitCodec : Codec (OverlayAddr × Option Ipv6Addr × String × Option SocketAddr) :=
  Postcard.pair overlayCodec (Postcard.pair (Postcard.option ipv6Codec)
    (Postcard.pair Postcard.string (Postcard.option socketAddrCodec)))

def relayReadyCodec : Codec (PeerId × PeerId × UInt8) :=
  Postcard.pair peerIdCodec (Postcard.pair peerIdCodec Postcard.u8)

def relayDataCodec : Codec (PeerId × PeerId × Bytes) :=
  Postcard.pair peerIdCodec (Postcard.pair peerIdCodec Postcard.bytes)

def relayAnnounceCodec : Codec (PeerId × SocketAddr) := Postcard.pair peerIdCodec socketAddrCodec

end Message

/-! ### Messages -/

open Message

/-- `postcard::to_allocvec`. -/
def serializeMessage : Message → Bytes
  | .data payload => Postcard.u32.encode 0 ++ Postcard.bytes.encode payload
  | .heartbeat => Postcard.u32.encode 1
  | .ping sentMs => Postcard.u32.encode 2 ++ Postcard.u64.encode sentMs
  | .pong sentMs => Postcard.u32.encode 3 ++ Postcard.u64.encode sentMs
  | .sessionInit overlay overlayIpv6 hostname publicAddr =>
    Postcard.u32.encode 4 ++ sessionInitCodec.encode (overlay, overlayIpv6, hostname, publicAddr)
  | .holePunchProbe token => Postcard.u32.encode 5 ++ Postcard.u64.encode token
  | .holePunchAck token => Postcard.u32.encode 6 ++ Postcard.u64.encode token
  | .relayRequest dstPeerId => Postcard.u32.encode 7 ++ peerIdCodec.encode dstPeerId
  | .relayReady relayPeerId dstPeerId hopCount =>
    Postcard.u32.encode 8 ++ relayReadyCodec.encode (relayPeerId, dstPeerId, hopCount)
  | .relayData srcPeerId dstPeerId payload =>
    Postcard.u32.encode 9 ++ relayDataCodec.encode (srcPeerId, dstPeerId, payload)
  | .relayAnnounce relayPeerId publicAddr =>
    Postcard.u32.encode 10 ++ relayAnnounceCodec.encode (relayPeerId, publicAddr)
  | .peerDirectory entries => Postcard.u32.encode 11 ++ (Postcard.list entryCodec).encode entries

/-- The fields of the variant with discriminant `tag`. -/
def decodeFields (tag : UInt32) (bs : Bytes) : Except Postcard.Error (Message × Bytes) :=
  match tag.toNat with
  | 0 => (Postcard.bytes.decode bs).map fun r => (.data r.1, r.2)
  | 1 => .ok (.heartbeat, bs)
  | 2 => (Postcard.u64.decode bs).map fun r => (.ping r.1, r.2)
  | 3 => (Postcard.u64.decode bs).map fun r => (.pong r.1, r.2)
  | 4 => (sessionInitCodec.decode bs).map fun r =>
      (.sessionInit r.1.1 r.1.2.1 r.1.2.2.1 r.1.2.2.2, r.2)
  | 5 => (Postcard.u64.decode bs).map fun r => (.holePunchProbe r.1, r.2)
  | 6 => (Postcard.u64.decode bs).map fun r => (.holePunchAck r.1, r.2)
  | 7 => (peerIdCodec.decode bs).map fun r => (.relayRequest r.1, r.2)
  | 8 => (relayReadyCodec.decode bs).map fun r => (.relayReady r.1.1 r.1.2.1 r.1.2.2, r.2)
  | 9 => (relayDataCodec.decode bs).map fun r => (.relayData r.1.1 r.1.2.1 r.1.2.2, r.2)
  | 10 => (relayAnnounceCodec.decode bs).map fun r => (.relayAnnounce r.1.1 r.1.2, r.2)
  | 11 => ((Postcard.list entryCodec).decode bs).map fun r => (.peerDirectory r.1, r.2)
  | _ => .error .unknownVariant

/-- `postcard::from_bytes`, which ignores what follows the value. -/
def deserializeMessage (data : Bytes) : Except Postcard.Error Message := do
  let (tag, bs) ← Postcard.u32.decode data
  let (msg, _) ← decodeFields tag bs
  .ok msg

/-! ### Round trip -/

namespace Message

/-- serde keeps address and port only. -/
def PlainAddr : SocketAddr → Prop
  | .v4 _ _ => True
  | .v6 _ _ flowinfo scopeId => flowinfo = 0 ∧ scopeId = 0

/-- Nothing in the message is lost on the wire. -/
def Encodable : Message → Prop
  | .data payload => payload.length < 2 ^ 64
  | .sessionInit _ _ hostname publicAddr =>
    hostname.toByteArray.size < 2 ^ 64 ∧ ∀ a ∈ publicAddr, PlainAddr a
  | .relayData _ _ payload => payload.length < 2 ^ 64
  | .relayAnnounce _ publicAddr => PlainAddr publicAddr
  | .peerDirectory entries => entries.length < 2 ^ 64 ∧ ∀ e ∈ entries, PlainAddr e.2.1
  | _ => True

theorem ipv4_lossless : ipv4Codec.Lossless fun _ => True :=
  (Postcard.fixed_lossless 4).map (fun _ _ => rfl) fun _ _ => rfl

theorem ipv6_lossless : ipv6Codec.Lossless fun _ => True :=
  (Postcard.fixed_lossless 16).map (fun a _ => a.length_eq) fun a _ => by simp [a.length_eq]

theorem peerId_lossless : peerIdCodec.Lossless fun _ => True :=
  (Postcard.fixed_lossless publicKeyLen).map (fun a _ => a.bytes.length_eq) fun a _ => by
    have h : a.asBytes.length = publicKeyLen := a.bytes.length_eq
    rw [dif_pos h]
    rfl

theorem overlay_lossless : overlayCodec.Lossless fun _ => True :=
  ipv4_lossless.map (fun _ _ => trivial) fun _ _ => rfl

theorem socketAddr_lossless : socketAddrCodec.Lossless PlainAddr := by
  rintro (⟨ip, port⟩ | ⟨ip, port, flowinfo, scopeId⟩) ha rest
  · simp only [socketAddrCodec, List.append_assoc, Postcard.u32_lossless 0 trivial, bind, Except.bind,
      if_true, Postcard.pair_lossless ipv4_lossless Postcard.u16_lossless (ip, port) ⟨trivial, trivial⟩]
  · obtain ⟨rfl, rfl⟩ := ha
    simp only [socketAddrCodec, List.append_assoc, Postcard.u32_lossless 1 trivial, bind, Except.bind,
      if_true, Postcard.pair_lossless ipv6_lossless Postcard.u16_lossless (ip, port) ⟨trivial, trivial⟩]
    rfl

theorem entry_lossless : entryCodec.Lossless fun e => PlainAddr e.2.1 :=
  (Postcard.pair_lossless peerId_lossless
    (Postcard.pair_lossless socketAddr_lossless Postcard.u8_lossless)).mono fun _ h => ⟨trivial, h, trivial⟩

theorem sessionInit_lossless : sessionInitCodec.Lossless fun s =>
    s.2.2.1.toByteArray.size < 2 ^ 64 ∧ ∀ a ∈ s.2.2.2, PlainAddr a :=
  (Postcard.pair_lossless overlay_lossless
    (Postcard.pair_lossless (Postcard.option_lossless ipv6_lossless)
      (Postcard.pair_lossless Postcard.string_lossless (Postcard.option_lossless socketAddr_lossless)))).mono
    fun _ h => ⟨trivial, fun _ _ => trivial, h.1, h.2⟩

theorem relayReady_lossless : relayReadyCodec.Lossless fun _ => True :=
  (Postcard.pair_lossless peerId_lossless
    (Postcard.pair_lossless peerId_lossless Postcard.u8_lossless)).mono fun _ _ => ⟨trivial, trivial, trivial⟩

theorem relayData_lossless : relayDataCodec.Lossless fun d => d.2.2.length < 2 ^ 64 :=
  (Postcard.pair_lossless peerId_lossless
    (Postcard.pair_lossless peerId_lossless Postcard.bytes_lossless)).mono fun _ h => ⟨trivial, trivial, h⟩

theorem relayAnnounce_lossless : relayAnnounceCodec.Lossless fun a => PlainAddr a.2 :=
  (Postcard.pair_lossless peerId_lossless socketAddr_lossless).mono fun _ h => ⟨trivial, h⟩

theorem directory_lossless : (Postcard.list entryCodec).Lossless fun es =>
    es.length < 2 ^ 64 ∧ ∀ e ∈ es, PlainAddr e.2.1 := Postcard.list_lossless entry_lossless

end Message

/-- **Round trip** of every message whose parts survive the wire. -/
theorem deserialize_serialize (m : Message) (h : m.Encodable) (rest : Bytes) :
    deserializeMessage (serializeMessage m ++ rest) = .ok m := by
  have tag : ∀ (t : UInt32) (bs : Bytes), Postcard.u32.decode (Postcard.u32.encode t ++ bs) = .ok (t, bs) :=
    fun t bs => Postcard.u32_lossless t trivial bs
  cases m <;> simp only [serializeMessage, deserializeMessage, List.append_assoc, tag, bind, Except.bind]
  case data payload => simp [decodeFields, Postcard.bytes_lossless payload h, Except.map]
  case heartbeat => rfl
  case ping sentMs => simp [decodeFields, Postcard.u64_lossless sentMs trivial, Except.map]
  case pong sentMs => simp [decodeFields, Postcard.u64_lossless sentMs trivial, Except.map]
  case sessionInit overlay overlayIpv6 hostname publicAddr =>
    simp [decodeFields, sessionInit_lossless (overlay, overlayIpv6, hostname, publicAddr) h, Except.map]
  case holePunchProbe token => simp [decodeFields, Postcard.u64_lossless token trivial, Except.map]
  case holePunchAck token => simp [decodeFields, Postcard.u64_lossless token trivial, Except.map]
  case relayRequest dst => simp [decodeFields, peerId_lossless dst trivial, Except.map]
  case relayReady relay dst hops =>
    simp [decodeFields, relayReady_lossless (relay, dst, hops) trivial, Except.map]
  case relayData src dst payload => simp [decodeFields, relayData_lossless (src, dst, payload) h, Except.map]
  case relayAnnounce relay addr => simp [decodeFields, relayAnnounce_lossless (relay, addr) h, Except.map]
  case peerDirectory entries => simp [decodeFields, directory_lossless entries h, Except.map]

/-! ### The whole format -/

namespace Message

/-- The socket addresses in a message. -/
def socketAddrs : Message → List SocketAddr
  | .sessionInit _ _ _ publicAddr => publicAddr.toList
  | .relayAnnounce _ publicAddr => [publicAddr]
  | .peerDirectory entries => entries.map fun e => e.2.1
  | _ => []

/-- `len()` of the message's `Vec`, byte string or `String`. -/
def len : Message → ℕ
  | .data payload | .relayData _ _ payload => payload.length
  | .sessionInit _ _ hostname _ => hostname.toByteArray.size
  | .peerDirectory entries => entries.length
  | _ => 0

theorem encodable_iff (m : Message) : m.Encodable ↔ (∀ a ∈ m.socketAddrs, PlainAddr a) ∧ m.len < 2 ^ 64 := by
  cases m with
  | sessionInit overlay overlayIpv6 hostname publicAddr =>
      simp only [Encodable, socketAddrs, len, Option.mem_toList, Option.mem_def]
      exact and_comm
  | peerDirectory entries =>
      simp only [Encodable, socketAddrs, len, List.forall_mem_map]
      exact and_comm
  | _ => simp [Encodable, socketAddrs, len]

end Message

/-- **The codec is lossless** for every message whose addresses have no flow label and no scope id, whatever
follows it.  That a length is a `usize` is what every `Vec` and `String` promises. -/
theorem codec_lossless (m : Message) (haddr : ∀ a ∈ m.socketAddrs, PlainAddr a) (hlen : m.len < 2 ^ 64) (s : Bytes) :
    deserializeMessage (serializeMessage m ++ s) = .ok m :=
  deserialize_serialize m (m.encodable_iff.mpr ⟨haddr, hlen⟩) s

/-- A directory with an IPv4 and an IPv6 address, and two bytes behind it. -/
theorem codec_lossless_directory :
    let m : Message := .peerDirectory
      [(.replicate 1, .v4 ⟨10, 0, 0, 1⟩ 4242, 1), (.replicate 2, .v6 default 4242 0 0, 255)]
    deserializeMessage (serializeMessage m ++ [7, 8]) = .ok m :=
  codec_lossless _ (by simp [Message.socketAddrs, PlainAddr]) (by decide) [7, 8]

/-! ### Lengths -/

theorem length_usize {n : ℕ} (h : n < 2 ^ 64) : (Postcard.usize.encode n).length = Nat.log 128 n + 1 :=
  Postcard.length_encodeVarint (k := 9) (h.trans (by norm_num))

/-- The exact length of what carries data. -/
theorem length_data {payload : Bytes} (h : payload.length < 2 ^ 64) :
    (serializeMessage (.data payload)).length = payload.length + Nat.log 128 payload.length + 2 := by
  have htag : (Postcard.u32.encode 0).length = 1 := rfl
  simp only [serializeMessage, Postcard.bytes, List.length_append, htag, length_usize h]
  omega

/-- What carries data adds at most 15 bytes to it. -/
theorem data_length_le (payload : Bytes) : (serializeMessage (.data payload)).length ≤ payload.length + 15 := by
  have htag : (Postcard.u32.encode 0).length ≤ 5 := Postcard.encodeVarint_length_le 5 0
  have hlen : (Postcard.usize.encode payload.length).length ≤ 10 := Postcard.encodeVarint_length_le 10 payload.length
  simp only [serializeMessage, Postcard.bytes, List.length_append]
  omega

theorem length_le_data (payload : Bytes) : payload.length ≤ (serializeMessage (.data payload)).length := by
  simp only [serializeMessage, Postcard.bytes, List.length_append]
  omega

/-- What carries relayed data adds at most 79 bytes to it. -/
theorem relayData_length_le (src dst : PeerId) (payload : Bytes) :
    (serializeMessage (.relayData src dst payload)).length ≤ payload.length + 79 := by
  have htag : (Postcard.u32.encode 9).length ≤ 5 := Postcard.encodeVarint_length_le 5 9
  have hlen : (Postcard.usize.encode payload.length).length ≤ 10 := Postcard.encodeVarint_length_le 10 payload.length
  have hsrc : (peerIdCodec.encode src).length = 32 := src.bytes.length_eq
  have hdst : (peerIdCodec.encode dst).length = 32 := dst.bytes.length_eq
  simp only [serializeMessage, relayDataCodec, Postcard.pair, Postcard.bytes, List.length_append, hsrc, hdst]
  omega

/-! ### The length of a directory -/

/-- The bytes of a port. -/
def portLen (port : UInt16) : ℕ := Nat.log 128 port.toNat + 1

/-- The bytes of a directory entry with this address. -/
def entryLen : SocketAddr → ℕ
  | .v4 _ port => 38 + portLen port
  | .v6 _ port _ _ => 50 + portLen port

/-- The bytes of the entries of a directory. -/
def entriesLen (entries : List DirectoryEntry) : ℕ := (entries.map fun k => entryLen k.2.1).sum

theorem portLen_le (port : UInt16) : portLen port ≤ 3 := by
  have hlog : Nat.log 128 port.toNat < 3 := Nat.log_lt_of_lt_pow' (by decide) (port.toNat_lt.trans (by norm_num))
  exact hlog

theorem le_entryLen (a : SocketAddr) : 39 ≤ entryLen a := by
  cases a <;> simp only [entryLen, portLen] <;> omega

theorem entryLen_le (a : SocketAddr) : entryLen a ≤ 53 := by
  cases a with
  | v4 ip port =>
      have hport := portLen_le port
      simp only [entryLen]
      omega
  | v6 ip port flowinfo scopeId =>
      have hport := portLen_le port
      simp only [entryLen]
      omega

@[simp] theorem entriesLen_nil : entriesLen [] = 0 := rfl

@[simp] theorem entriesLen_append (entries entries' : List DirectoryEntry) :
    entriesLen (entries ++ entries') = entriesLen entries + entriesLen entries' := by
  simp only [entriesLen, List.map_append, List.sum_append]

theorem le_entriesLen (entries : List DirectoryEntry) : 39 * entries.length ≤ entriesLen entries := by
  have h := List.card_nsmul_le_sum (entries.map fun k => entryLen k.2.1) 39
    (List.forall_mem_map.mpr fun k _ => le_entryLen k.2.1)
  rwa [List.length_map, smul_eq_mul, mul_comm] at h

theorem entriesLen_le (entries : List DirectoryEntry) : entriesLen entries ≤ 53 * entries.length := by
  have h := List.sum_le_card_nsmul (entries.map fun k => entryLen k.2.1) 53
    (List.forall_mem_map.mpr fun k _ => entryLen_le k.2.1)
  rwa [List.length_map, smul_eq_mul, mul_comm] at h

theorem length_u16 (port : UInt16) : (Postcard.u16.encode port).length = portLen port :=
  Postcard.length_encodeVarint (k := 2) (port.toNat_lt.trans (by norm_num))

theorem length_entry (k : DirectoryEntry) : (entryCodec.encode k).length = entryLen k.2.1 := by
  obtain ⟨p, a, h⟩ := k
  have hid : (peerIdCodec.encode p).length = 32 := p.bytes.length_eq
  have hhops : (Postcard.u8.encode h).length = 1 := rfl
  cases a with
  | v4 ip port =>
      have htag : (Postcard.u32.encode 0).length = 1 := rfl
      have hip : (ipv4Codec.encode ip).length = 4 := rfl
      simp only [entryCodec, Postcard.pair, socketAddrCodec, List.length_append, hid, htag, hip, length_u16, hhops,
        entryLen]
      omega
  | v6 ip port flowinfo scopeId =>
      have htag : (Postcard.u32.encode 1).length = 1 := rfl
      have hip : (ipv6Codec.encode ip).length = 16 := ip.length_eq
      simp only [entryCodec, Postcard.pair, socketAddrCodec, List.length_append, hid, htag, hip, length_u16, hhops,
        entryLen]
      omega

theorem length_directory (entries : List DirectoryEntry) :
    (serializeMessage (.peerDirectory entries)).length =
      1 + (Postcard.usize.encode entries.length).length + entriesLen entries := by
  have htag : (Postcard.u32.encode 11).length = 1 := rfl
  have hentries : (entries.map entryCodec.encode).flatten.length = entriesLen entries := by
    rw [List.length_flatten, List.map_map, entriesLen]
    exact congrArg List.sum (List.map_congr_left fun k _ => length_entry k)
  simp only [serializeMessage, Postcard.list, List.length_append, htag, hentries]
  omega

namespace Message

theorem socketAddr_minimal : socketAddrCodec.Minimal := by
  have hv4 : (Postcard.pair ipv4Codec Postcard.u16).Minimal :=
    Postcard.pair_minimal (Postcard.fixed_map_minimal fun _ => rfl) Postcard.u16_minimal
  have hv6 : (Postcard.pair ipv6Codec Postcard.u16).Minimal :=
    Postcard.pair_minimal (Postcard.fixed_map_minimal fun ip => ip.length_eq) Postcard.u16_minimal
  intro bs a rest h
  obtain ⟨⟨variant, fields⟩, hvariant, h⟩ := bind_eq_ok h
  have htag := Postcard.u32_minimal bs variant fields hvariant
  dsimp only at h
  split at h
  · next hzero =>
      subst hzero
      obtain ⟨⟨⟨ip, port⟩, bs'⟩, hfields, h⟩ := bind_eq_ok h
      cases h
      have hfit := hv4 fields (ip, port) bs' hfields
      simp only [socketAddrCodec, List.length_append]
      omega
  · split at h
    · next hone =>
        subst hone
        obtain ⟨⟨⟨ip, port⟩, bs'⟩, hfields, h⟩ := bind_eq_ok h
        cases h
        have hfit := hv6 fields (ip, port) bs' hfields
        simp only [socketAddrCodec, List.length_append]
        omega
    · cases h

theorem entry_minimal : entryCodec.Minimal :=
  Postcard.pair_minimal (Postcard.fixed_map_minimal fun p => p.bytes.length_eq)
    (Postcard.pair_minimal socketAddr_minimal Postcard.u8_minimal)

end Message

/-- A directory does not grow if it is written again. -/
theorem directory_minimal {data : Bytes} {entries : List DirectoryEntry}
    (h : deserializeMessage data = .ok (.peerDirectory entries)) :
    (serializeMessage (.peerDirectory entries)).length ≤ data.length := by
  obtain ⟨⟨tag, bs⟩, htag, h⟩ := bind_eq_ok h
  obtain ⟨⟨msg, rest⟩, hfields, h⟩ := bind_eq_ok h
  cases h
  have htaken := Postcard.u32_minimal data tag bs htag
  simp only [decodeFields] at hfields
  split at hfields
  case h_12 htag' =>
    obtain ⟨r, hlist, heq⟩ := map_eq_ok hfields
    cases heq
    have hlist' := Postcard.list_minimal entry_minimal bs r.1 r.2 hlist
    rw [UInt32.toNat_inj.mp (htag'.trans (show 11 = UInt32.toNat 11 from rfl))] at htaken
    simp only [serializeMessage, List.length_append]
    omega
  case h_2 | h_13 => cases hfields
  all_goals
    obtain ⟨r, -, heq⟩ := map_eq_ok hfields
    cases heq

end SeedNet
