import Mathlib.Data.Finset.Max
import SeedNet.Digits
import SeedNet.JsonStrings
import SeedNet.TransparentNode
import SeedNet.Loops

/-! # The peers file

`crates/core/src/peers_snapshot.rs` writes the connected peers as JSON by `format!`; `list`
(`crates/cli/src/commands.rs`) and the TUI (`crates/cli/src/tui.rs`) read it with a JSON parser.

The text is that of one state of the engine.  A `PeerEntry` is what the format string of a peer is filled with;
it needs no escapes but in the hostname, which the peer has chosen. -/

namespace SeedNet

open Json (Text Value Plain parse quoted arrayText objectText)
open Run (exec)

/-! ### `Display` -/

/-- `{:02x}` of each byte. -/
def hex (bytes : Bytes) : String :=
  .ofList (bytes.flatMap fun b => [Nat.digitChar (b.toNat / 16), Nat.digitChar (b.toNat % 16)])

/-- `hex_short`: the first 4 bytes. -/
def hexShort (bytes : Bytes) : String := hex (bytes.take 4)

/-- `{}` of an unsigned integer. -/
def decimal (n : ℕ) : String := .ofList (Nat.toDigits 10 n)

def PeerId.display (id : PeerId) : String := hex id.asBytes

def PeerId.short (id : PeerId) : String := hexShort id.asBytes

def Ipv4Addr.display (ip : Ipv4Addr) : String := ".".intercalate (ip.octets.map fun b => decimal b.toNat)

namespace Ipv6Addr

/-- The eight 16-bit segments. -/
def segments (ip : Ipv6Addr) : List ℕ :=
  (List.range 8).map fun i => (ip.octets.getD (2 * i) 0).toNat * 256 + (ip.octets.getD (2 * i + 1) 0).toNat

/-- `to_ipv4_mapped`: the address after `::ffff:`. -/
def toIpv4Mapped (ip : Ipv6Addr) : Option Ipv4Addr :=
  if ip.octets.take 12 = List.replicate 10 0 ++ [255, 255] then
    some ⟨ip.octets.getD 12 0, ip.octets.getD 13 0, ip.octets.getD 14 0, ip.octets.getD 15 0⟩
  else none

/-- A run of zero segments. -/
structure Span where
  start : ℕ := 0
  len : ℕ := 0

/-- The first longest run of zeros: the loop's `longest` and `current` after the segment `i`. -/
def longestZeros (segments : List ℕ) : Span :=
  (segments.zipIdx.foldl (fun (longest, current) (segment, i) =>
    if segment = 0 then
      let current : Span := { start := if current.len = 0 then i else current.start, len := current.len + 1 }
      (if longest.len < current.len then current else longest, current)
    else (longest, {})) (({} : Span), ({} : Span))).1

/-- `fmt_subslice`. -/
def subslice (segments : List ℕ) : String := ":".intercalate (segments.map fun n => .ofList (Nat.toDigits 16 n))

def display (ip : Ipv6Addr) : String :=
  match ip.toIpv4Mapped with
  | some ipv4 => "::ffff:" ++ ipv4.display
  | none =>
    let zeroes := longestZeros ip.segments
    if 1 < zeroes.len then
      subslice (ip.segments.take zeroes.start) ++ "::" ++ subslice (ip.segments.drop (zeroes.start + zeroes.len))
    else subslice ip.segments

end Ipv6Addr

def SocketAddr.display : SocketAddr → String
  | .v4 ip port => ip.display ++ ":" ++ decimal port.toNat
  | .v6 ip port _ scopeId =>
    if scopeId = 0 then "[" ++ ip.display ++ "]:" ++ decimal port.toNat
    else "[" ++ ip.display ++ "%" ++ decimal scopeId.toNat ++ "]:" ++ decimal port.toNat

/-! ### Writing the file -/

def PeerManager.connectedPeers (m : PeerManager) : List PeerId :=
  (m.peers.entries.filter fun entry => entry.2.state = .connected).map (·.1)

theorem PeerManager.mem_connectedPeers {m : PeerManager} {id : PeerId} :
    id ∈ m.connectedPeers ↔ ∃ peer, m.get id = some peer ∧ peer.state = .connected := by
  simp only [connectedPeers, List.mem_map, List.mem_filter, decide_eq_true_eq, Sigma.exists]
  constructor
  · rintro ⟨_, peer, ⟨hmem, hstate⟩, rfl⟩
    exact ⟨peer, AList.mem_lookup_iff.mpr hmem, hstate⟩
  · rintro ⟨peer, hget, hstate⟩
    exact ⟨id, peer, ⟨AList.mem_lookup_iff.mp hget, hstate⟩, rfl⟩

/-- The values that an entry of the file shows. -/
structure PeerEntry where
  id : String
  idShort : String
  overlay : String
  overlayIpv6 : String
  hostname : String
  publicAddr : String
  connection : String
  relayVia : String
  relayHops : UInt8
  latencyMs : String
  underlay : String
deriving DecidableEq

namespace PeerEntry

/-- The format string of `build_peer_entry`. -/
def text (entry : PeerEntry) : String :=
  "\x7b\"id\":\"" ++ entry.id ++ "\",\"id_short\":\"" ++ entry.idShort ++ "\"," ++
  "\"overlay\":\"" ++ entry.overlay ++ "\",\"overlay_ipv6\":\"" ++ entry.overlayIpv6 ++ "\"," ++
  "\"hostname\":\"" ++ entry.hostname ++ "\",\"public_addr\":\"" ++ entry.publicAddr ++ "\"," ++
  "\"connection\":\"" ++ entry.connection ++ "\",\"relay_via\":\"" ++ entry.relayVia ++
  "\",\"relay_hops\":" ++ decimal entry.relayHops.toNat ++ "," ++
  "\"latency_ms\":\"" ++ entry.latencyMs ++ "\"," ++
  "\"underlay\":\"" ++ entry.underlay ++ "\"\x7d"

end PeerEntry

/-- The format string of `build_peers_json`. -/
def peersText (localJson : String) (entries : List String) : String :=
  "\x7b\"local\":" ++ localJson ++ ",\"peers\":[" ++ ",".intercalate entries ++ "]\x7d"

namespace Engine

variable {τ : Type} (e : Engine τ)

/-- What `build_peer_entry` shows of a peer. -/
def peerEntry (id : PeerId) : PeerEntry :=
  let peer := e.peerMgr.get id
  { id := id.display
    idShort := id.short
    overlay := ((e.routingTable.lookupPeerIp id).map Ipv4Addr.display).getD ""
    overlayIpv6 := ((peer.bind (·.overlayIpv6)).map Ipv6Addr.display).getD ""
    hostname := (peer.map (·.hostname)).getD ""
    publicAddr := ((peer.bind (·.publicAddr)).map SocketAddr.display).getD ""
    connection := if id ∈ e.relayPaths then "relay" else "direct"
    relayVia := ((e.relayPaths.lookup id).map fun entry => entry.1.short).getD ""
    relayHops := ((e.relayPaths.lookup id).map fun entry => entry.2).getD 0
    latencyMs := ((peer.bind (·.latencyMs)).map fun ms => decimal ms.toNat).getD ""
    underlay := ((peer.bind (·.underlayAddr)).map SocketAddr.display).getD "" }

def buildPeerEntry (id : PeerId) : String := (e.peerEntry id).text

def buildPeersJson (localJson : String) : String :=
  peersText localJson (e.peerMgr.connectedPeers.map e.buildPeerEntry)

/-- The entries of the connected peers. -/
def peerEntries : List PeerEntry := e.peerMgr.connectedPeers.map e.peerEntry

end Engine

/-! ### Reading the file -/

/-- The columns that a reader shows of a peer, other than the overlay IPv6 address. -/
structure PeerFields where
  idShort : Text
  overlay : Text
  hostname : Text
  connection : Text
  relayVia : Text
  relayHops : UInt8
  latencyMs : Text
  underlay : Text
deriving DecidableEq

structure PeerRow extends PeerFields where
  overlayIpv6 : Text

/-- `p[key].as_str().unwrap_or(default)`. -/
def strOr (p : Value) (key : String) (default : Text) : Text := (p.get key.toList).asStr.getD default

/-- A line of `list`. -/
def listRow (p : Value) : PeerRow where
  idShort := strOr p "id_short" ['?']
  overlay := strOr p "overlay" ['?']
  overlayIpv6 := strOr p "overlay_ipv6" []
  hostname := strOr p "hostname" []
  connection := strOr p "connection" "direct".toList
  relayVia := strOr p "relay_via" []
  relayHops := .ofNat ((p.get "relay_hops".toList).asU64.getD 1)
  latencyMs := strOr p "latency_ms" []
  underlay := strOr p "underlay" ['?']

/-- The lines of `list`. -/
def listRows (data : Value) : List PeerRow := ((data.get "peers".toList).asArray.getD []).map listRow

/-- A peer of the TUI; it needs the short id and the two addresses. -/
def tuiRow (p : Value) : Option PeerRow := do
  let idShort ← (p.get "id_short".toList).asStr
  let overlay ← (p.get "overlay".toList).asStr
  let underlay ← (p.get "underlay".toList).asStr
  return {
    idShort := idShort
    overlay := overlay
    overlayIpv6 := strOr p "overlay_ipv6" []
    underlay := underlay
    hostname := strOr p "hostname" []
    connection := strOr p "connection" "direct".toList
    relayVia := strOr p "relay_via" []
    relayHops := .ofNat ((p.get "relay_hops".toList).asU64.getD 0)
    latencyMs := strOr p "latency_ms" [] }

/-- `refresh_peers`: the new remote peers, or none if it returns before it replaces them. -/
def tuiRows (v : Value) : Option (List PeerRow) := (v.get "peers".toList).asArray.map (·.filterMap tuiRow)

/-! ### What is shown of addresses and identities needs no escapes -/

theorem isPlain_digitChar (n : ℕ) : Json.isPlain (Nat.digitChar n) = true := by
  by_cases h : n < 16
  · exact (by decide : ∀ n < 16, Json.isPlain (Nat.digitChar n) = true) n h
  · have hstar : Nat.digitChar n = '*' := by
      unfold Nat.digitChar
      simp (disch := omega) only [if_neg]
    rw [hstar]
    decide

theorem plain_toDigits {base : ℕ} (hbase : 1 < base) (n : ℕ) : Plain (Nat.toDigits base n) := by
  intro c hc
  obtain ⟨d, -, rfl⟩ := Digits.mem_toDigits hbase hc
  exact isPlain_digitChar d

theorem toList_decimal (n : ℕ) : (decimal n).toList = Nat.toDigits 10 n := String.toList_ofList

theorem plain_decimal (n : ℕ) : Plain (decimal n).toList := by
  rw [toList_decimal]
  exact plain_toDigits (by decide) n

theorem plain_hex (bytes : Bytes) : Plain (hex bytes).toList := by
  rw [hex, String.toList_ofList]
  intro c hc
  obtain ⟨b, -, hb⟩ := List.mem_flatMap.mp hc
  rcases List.mem_pair.mp hb with rfl | rfl <;> exact isPlain_digitChar _

theorem Ipv4Addr.plain_display (ip : Ipv4Addr) : Plain ip.display.toList := by
  rw [display, String.toList_intercalate]
  refine Plain.intercalate (by decide) fun t ht => ?_
  simp only [List.map_map, List.mem_map, Function.comp_apply] at ht
  obtain ⟨b, -, rfl⟩ := ht
  exact plain_decimal _

namespace Ipv6Addr

theorem plain_subslice (segments : List ℕ) : Plain (subslice segments).toList := by
  rw [subslice, String.toList_intercalate]
  refine Plain.intercalate (by decide) fun t ht => ?_
  simp only [List.map_map, List.mem_map, Function.comp_apply, String.toList_ofList] at ht
  obtain ⟨n, -, rfl⟩ := ht
  exact plain_toDigits (by decide) n

theorem plain_display (ip : Ipv6Addr) : Plain ip.display.toList := by
  unfold display
  split
  · next ipv4 _ =>
      rw [String.toList_append]
      exact Plain.append (by decide) ipv4.plain_display
  · dsimp only
    split
    · rw [String.toList_append, String.toList_append]
      exact ((plain_subslice _).append (by decide)).append (plain_subslice _)
    · exact plain_subslice _

end Ipv6Addr

theorem SocketAddr.plain_display (addr : SocketAddr) : Plain addr.display.toList := by
  cases addr with
  | v4 ip port =>
      simp only [display, String.toList_append]
      exact (ip.plain_display.append (by decide)).append (plain_decimal _)
  | v6 ip port flowinfo scopeId =>
      rw [display]
      split
      · simp only [String.toList_append]
        exact ((Plain.append (by decide) ip.plain_display).append (by decide)).append (plain_decimal _)
      · simp only [String.toList_append]
        exact ((((Plain.append (by decide) ip.plain_display).append (by decide)).append
          (plain_decimal _)).append (by decide)).append (plain_decimal _)

/-! ### The text of an entry -/

namespace PeerEntry

variable (entry : PeerEntry)

/-- The members of the object that the text of an entry should be. -/
def members : List (Text × Value) :=
  [("id".toList, .string entry.id.toList), ("id_short".toList, .string entry.idShort.toList),
    ("overlay".toList, .string entry.overlay.toList), ("overlay_ipv6".toList, .string entry.overlayIpv6.toList),
    ("hostname".toList, .string entry.hostname.toList), ("public_addr".toList, .string entry.publicAddr.toList),
    ("connection".toList, .string entry.connection.toList), ("relay_via".toList, .string entry.relayVia.toList),
    ("relay_hops".toList, .number (Nat.toDigits 10 entry.relayHops.toNat)),
    ("latency_ms".toList, .string entry.latencyMs.toList), ("underlay".toList, .string entry.underlay.toList)]

/-- The values of an entry as a reader should show them. -/
def fields : PeerFields where
  idShort := entry.idShort.toList
  overlay := entry.overlay.toList
  hostname := entry.hostname.toList
  connection := entry.connection.toList
  relayVia := entry.relayVia.toList
  relayHops := entry.relayHops
  latencyMs := entry.latencyMs.toList
  underlay := entry.underlay.toList

def row : PeerRow := { entry.fields with overlayIpv6 := entry.overlayIpv6.toList }

set_option maxRecDepth 2000 in
theorem text_eq : entry.text.toList = objectText
    [("id".toList, quoted entry.id.toList), ("id_short".toList, quoted entry.idShort.toList),
      ("overlay".toList, quoted entry.overlay.toList), ("overlay_ipv6".toList, quoted entry.overlayIpv6.toList),
      ("hostname".toList, quoted entry.hostname.toList), ("public_addr".toList, quoted entry.publicAddr.toList),
      ("connection".toList, quoted entry.connection.toList), ("relay_via".toList, quoted entry.relayVia.toList),
      ("relay_hops".toList, Nat.toDigits 10 entry.relayHops.toNat),
      ("latency_ms".toList, quoted entry.latencyMs.toList), ("underlay".toList, quoted entry.underlay.toList)] := by
  delta text
  simp only [objectText, Json.memberText, quoted, toList_decimal, String.toList_append, List.map_cons,
    List.map_nil, List.intercalate_cons_cons, List.intercalate_singleton, List.append_assoc, List.cons_append,
    List.nil_append, String.reduceToList]

/-- A byte in decimal is a number literal, and is read back. -/
theorem isNumber_toDigits : ∀ n < 256, Json.isNumber (Nat.toDigits 10 n) = true := by decide +kernel

theorem asU64_toDigits (b : UInt8) : (Value.number (Nat.toDigits 10 b.toNat)).asU64 = some b.toNat := by
  have hdigits : (Nat.toDigits 10 b.toNat).all Char.isDigit = true :=
    List.all_eq_true.mpr fun c hc => Nat.isDigit_of_mem_toDigits (by decide) le_rfl hc
  have hlt : b.toNat < UInt64.size := b.toNat_lt.trans (by decide)
  simp [Value.asU64, Nat.ofDigitChars_ten_toDigits, hdigits, hlt]

theorem listRow_members : listRow (.object entry.members) = entry.row := by
  have hhops : ((Value.object entry.members).get "relay_hops".toList).asU64 = some entry.relayHops.toNat :=
    asU64_toDigits entry.relayHops
  unfold listRow
  rw [hhops, Option.getD_some, UInt8.ofNat_toNat]
  rfl

theorem tuiRow_members : tuiRow (.object entry.members) = some entry.row := by
  have hhops : ((Value.object entry.members).get "relay_hops".toList).asU64 = some entry.relayHops.toNat :=
    asU64_toDigits entry.relayHops
  unfold tuiRow
  rw [hhops, Option.getD_some, UInt8.ofNat_toNat]
  rfl

/-- The strings other than the hostname need no escapes. -/
structure PlainButHostname : Prop where
  id : Plain entry.id.toList
  idShort : Plain entry.idShort.toList
  overlay : Plain entry.overlay.toList
  overlayIpv6 : Plain entry.overlayIpv6.toList
  publicAddr : Plain entry.publicAddr.toList
  connection : Plain entry.connection.toList
  relayVia : Plain entry.relayVia.toList
  latencyMs : Plain entry.latencyMs.toList
  underlay : Plain entry.underlay.toList

variable {entry}

theorem parse_text (h : entry.PlainButHostname) (hhostname : Plain entry.hostname.toList) :
    parse entry.text.toList = some (.object entry.members) := by
  have hstring {key s : Text} (hkey : Plain key) (hs : Plain s) :
      Json.IsMember (key, quoted s) (key, .string s) := Json.isMember hkey (Json.parse_quoted hs)
  have hhops : parse (Nat.toDigits 10 entry.relayHops.toNat) = some (.number (Nat.toDigits 10 entry.relayHops.toNat)) := by
    refine Json.parse_number (isNumber_toDigits _ entry.relayHops.toNat_lt) fun c hc => ?_
    have hdigit : c.isDigit = true := Nat.isDigit_of_mem_toDigits (by decide) le_rfl hc
    simp [Json.isNumberChar, hdigit]
  rw [text_eq]
  refine Json.parse_objectText ?_
  refine .cons (hstring (by decide) h.id) <| .cons (hstring (by decide) h.idShort) <|
    .cons (hstring (by decide) h.overlay) <| .cons (hstring (by decide) h.overlayIpv6) <|
    .cons (hstring (by decide) hhostname) <| .cons (hstring (by decide) h.publicAddr) <|
    .cons (hstring (by decide) h.connection) <| .cons (hstring (by decide) h.relayVia) <|
    .cons (Json.isMember (by decide) hhops) <| .cons (hstring (by decide) h.latencyMs) <|
    .cons (hstring (by decide) h.underlay) .nil

set_option maxRecDepth 2000 in
/-- The hostname is the only part of an entry that may have backslashes. -/
theorem PlainButHostname.text_around (h : entry.PlainButHostname) :
    ∃ before after : Text, '\\' ∉ before ∧ '\\' ∉ after ∧ entry.text.toList =
      before ++ ':' :: '"' :: (entry.hostname.toList ++ '"' :: ',' :: '"' :: 'p' :: after) := by
  refine ⟨("\x7b\"id\":\"" ++ entry.id ++ "\",\"id_short\":\"" ++ entry.idShort ++ "\"," ++
      "\"overlay\":\"" ++ entry.overlay ++ "\",\"overlay_ipv6\":\"" ++ entry.overlayIpv6 ++ "\"," ++
      "\"hostname\"").toList, ("ublic_addr\":\"" ++ entry.publicAddr ++ "\"," ++
      "\"connection\":\"" ++ entry.connection ++ "\",\"relay_via\":\"" ++ entry.relayVia ++
      "\",\"relay_hops\":" ++ decimal entry.relayHops.toNat ++ "," ++
      "\"latency_ms\":\"" ++ entry.latencyMs ++ "\"," ++
      "\"underlay\":\"" ++ entry.underlay ++ "\"\x7d").toList, ?_, ?_, ?_⟩
  · simp [h.id.not_mem, h.idShort.not_mem, h.overlay.not_mem, h.overlayIpv6.not_mem]
  · simp [h.publicAddr.not_mem, h.connection.not_mem, h.relayVia.not_mem, h.latencyMs.not_mem, h.underlay.not_mem,
      (plain_decimal entry.relayHops.toNat).not_mem]
  · delta text
    simp only [String.toList_append, List.append_assoc, List.cons_append, List.nil_append, String.reduceToList]

end PeerEntry

namespace Engine

variable {τ : Type} (e : Engine τ)

theorem plain_getD {α : Type} {f : α → String} (h : ∀ a, Plain (f a).toList) (o : Option α) :
    Plain ((o.map f).getD "").toList := by
  cases o with
  | none => exact Json.plain_nil
  | some a => exact h a

theorem peerEntry_plain (id : PeerId) : (e.peerEntry id).PlainButHostname where
  id := plain_hex _
  idShort := plain_hex _
  overlay := plain_getD Ipv4Addr.plain_display _
  overlayIpv6 := plain_getD Ipv6Addr.plain_display _
  publicAddr := plain_getD SocketAddr.plain_display _
  connection := by
    unfold peerEntry
    dsimp only
    split <;> decide
  relayVia := plain_getD (fun entry => plain_hex _) _
  latencyMs := plain_getD (fun ms => plain_decimal _) _
  underlay := plain_getD SocketAddr.plain_display _

theorem buildPeersJson_eq (localJson : String) : (e.buildPeersJson localJson).toList = objectText
    [("local".toList, localJson.toList), ("peers".toList, arrayText (e.peerEntries.map fun p => p.text.toList))] := by
  have htexts : (e.peerMgr.connectedPeers.map e.buildPeerEntry).map String.toList =
      e.peerEntries.map fun p => p.text.toList := by
    rw [peerEntries, List.map_map, List.map_map]
    rfl
  simp only [buildPeersJson, peersText, String.toList_append, String.toList_intercalate, htexts, objectText, arrayText, quoted,
    Json.memberText, List.map_cons, List.map_nil, List.intercalate_cons_cons, List.intercalate_singleton,
    List.append_assoc, List.cons_append, List.nil_append, String.reduceToList]

/-- The text is JSON, and both readers show exactly one peer for each connected peer, with its values. -/
def ShownBy (text : String) : Prop :=
  ∃ v, parse text.toList = some v ∧
    ((listRows v).map PeerRow.toPeerFields).Perm (e.peerEntries.map PeerEntry.fields) ∧
    ∃ rows, tuiRows v = some rows ∧ (rows.map PeerRow.toPeerFields).Perm (e.peerEntries.map PeerEntry.fields)

/-- No connected peer has a hostname with a quote, a backslash or a control character. -/
def PlainHostnames : Prop :=
  ∀ id peer, e.peerMgr.get id = some peer → peer.state = .connected → Plain peer.hostname.toList

variable {e}

theorem plainHostnames_iff : e.PlainHostnames ↔ ∀ entry ∈ e.peerEntries, Plain entry.hostname.toList := by
  constructor
  · intro h entry hentry
    obtain ⟨id, hid, rfl⟩ := List.mem_map.mp hentry
    obtain ⟨peer, hget, hstate⟩ := PeerManager.mem_connectedPeers.mp hid
    have hhostname : (e.peerEntry id).hostname = peer.hostname := by
      simp [peerEntry, hget]
    exact hhostname ▸ h id peer hget hstate
  · intro h id peer hget hstate
    have hentry := h (e.peerEntry id) (List.mem_map_of_mem (PeerManager.mem_connectedPeers.mpr ⟨peer, hget, hstate⟩))
    simpa [peerEntry, hget] using hentry

instance : Decidable e.PlainHostnames := decidable_of_iff _ plainHostnames_iff.symm

theorem plainButHostname {entry : PeerEntry} (h : entry ∈ e.peerEntries) : entry.PlainButHostname := by
  obtain ⟨id, -, rfl⟩ := List.mem_map.mp h
  exact e.peerEntry_plain id

theorem parse_buildPeersJson (h : e.PlainHostnames) {localJson : String} {v : Value}
    (hlocal : parse localJson.toList = some v) : parse (e.buildPeersJson localJson).toList =
      some (.object [("local".toList, v), ("peers".toList, .array (e.peerEntries.map fun p => .object p.members))]) := by
  have hentries : parse (arrayText (e.peerEntries.map fun p => p.text.toList)) =
      some (.array (e.peerEntries.map fun p => .object p.members)) := by
    refine Json.parse_arrayText (List.forall₂_map_left_iff.mpr (List.forall₂_map_right_iff.mpr ?_))
    exact List.forall₂_same.mpr fun p hp => PeerEntry.parse_text (plainButHostname hp) (plainHostnames_iff.mp h p hp)
  rw [buildPeersJson_eq]
  exact Json.parse_objectText (.cons (Json.isMember (by decide) hlocal) (.cons (Json.isMember (by decide) hentries) .nil))

theorem shownBy_of_plain (h : e.PlainHostnames) {localJson : String} {v : Value}
    (hlocal : parse localJson.toList = some v) : e.ShownBy (e.buildPeersJson localJson) := by
  refine ⟨_, parse_buildPeersJson h hlocal, ?_, e.peerEntries.map PeerEntry.row, ?_, ?_⟩
  · have hrows : listRows (.object [("local".toList, v),
        ("peers".toList, .array (e.peerEntries.map fun p => .object p.members))]) =
          (e.peerEntries.map fun p => Value.object p.members).map listRow := rfl
    rw [hrows, List.map_map, List.map_map]
    refine .of_eq (List.map_congr_left fun p _ => ?_)
    simp only [Function.comp_apply, PeerEntry.listRow_members]
    rfl
  · have hrows : tuiRows (.object [("local".toList, v),
        ("peers".toList, .array (e.peerEntries.map fun p => .object p.members))]) =
          some ((e.peerEntries.map fun p => Value.object p.members).filterMap tuiRow) := rfl
    rw [hrows, List.filterMap_map]
    refine congrArg some ((List.filterMap_congr fun p _ => PeerEntry.tuiRow_members p).trans ?_)
    exact congrFun List.filterMap_eq_map _
  · rw [List.map_map]
    rfl

/-! ### Hostnames with special characters -/

/-- The hostnames of the connected peers. -/
def Hostname (e : Engine τ) (x : Text) : Prop := ∃ entry ∈ e.peerEntries, entry.hostname.toList = x

theorem unescaped_text {entry : PeerEntry} (h : entry ∈ e.peerEntries) :
    Json.Unescaped e.Hostname entry.text.toList := by
  obtain ⟨before, after, hbefore, hafter, htext⟩ := (plainButHostname h).text_around
  rw [htext]
  refine Json.Unescaped.member ⟨entry, h, rfl⟩ hbefore (by simpa using hafter) fun hd => ?_
  have hc := hd 'p' after (Json.skip_of_not_space rfl)
  simp at hc

/-- A string with special characters that is read under `peers` is shorter than the hostname of a connected
peer with special characters. -/
theorem shorter_hostname {localJson : String} {v v' : Value} {x : Text} (hlocal : parse localJson.toList = some v)
    (hparse : parse (e.buildPeersJson localJson).toList = some v') (hx : (v'.get "peers".toList).Has x)
    (hspecial : ¬ Plain x) :
    ∃ entry ∈ e.peerEntries, ¬ Plain entry.hostname.toList ∧ x.length < entry.hostname.toList.length := by
  have hentries : Json.Unescaped e.Hostname ([','].intercalate (e.peerEntries.map fun p => p.text.toList)) := by
    refine Json.Unescaped.intercalate (by decide) fun t ht => ?_
    obtain ⟨entry, hentry, rfl⟩ := List.mem_map.mp ht
    exact unescaped_text hentry
  have hrest : Json.Unescaped e.Hostname ("\"peers\":[".toList ++
      [','].intercalate (e.peerEntries.map fun p => p.text.toList) ++ "]\x7d".toList) :=
    ((Json.Unescaped.of_not_mem (by decide)).append hentries).append (.of_not_mem (by decide))
  have htext : (e.buildPeersJson localJson).toList = '{' :: (Json.memberText ("local".toList, localJson.toList) ++
      ',' :: ("\"peers\":[".toList ++ [','].intercalate (e.peerEntries.map fun p => p.text.toList) ++
        "]\x7d".toList)) := by
    rw [buildPeersJson_eq]
    simp only [objectText, arrayText, quoted, Json.memberText, List.map_cons, List.map_nil,
      List.intercalate_cons_cons, List.intercalate_singleton, List.append_assoc, List.cons_append, List.nil_append,
      String.reduceToList]
  rw [htext] at hparse
  obtain ⟨ms, r, rfl, hms⟩ := Json.object_of_parse (Json.isMember (by decide) hlocal) hparse
  rw [Value.get_cons_of_ne (by decide)] at hx
  obtain ⟨_, ⟨entry, hentry, rfl⟩, hlonger⟩ := hrest.shorter (hms.occurs hx.of_get) hspecial
  exact ⟨entry, hentry, hlonger⟩

theorem has_of_strOr {p : Value} {key : String} {x : Text} (h : strOr p key [] = x) (hx : x ≠ []) : p.Has x := by
  have hget : p.get key.toList = .string x := by
    unfold strOr Value.asStr at h
    split at h
    · next s hs => rw [hs, ← h]; rfl
    · exact absurd h.symm hx
  have hhas : (p.get key.toList).Has x := by
    rw [hget]
    exact .string
  exact hhas.get

/-- A hostname that `list` shows is a string of the file. -/
theorem has_of_listRows {data : Value} {row : PeerRow} (h : row ∈ listRows data) (hrow : row.hostname ≠ []) :
    (data.get "peers".toList).Has row.hostname := by
  obtain ⟨p, hp, rfl⟩ := List.mem_map.mp h
  have hhas : p.Has (listRow p).hostname := has_of_strOr rfl hrow
  unfold Value.asArray at hp
  split at hp
  · next vs hvs => exact hvs ▸ .array hp hhas
  · cases hp

theorem plain_of_shownBy {localJson : String} {v : Value} (hlocal : parse localJson.toList = some v)
    (h : e.ShownBy (e.buildPeersJson localJson)) : e.PlainHostnames := by
  obtain ⟨v', hparse, hrows, -⟩ := h
  by_contra hnot
  have hne : (e.peerEntries.toFinset.filter fun p => ¬ Plain p.hostname.toList).Nonempty := by
    simp only [plainHostnames_iff, not_forall] at hnot
    obtain ⟨entry, hmem, hspecial⟩ := hnot
    exact ⟨entry, Finset.mem_filter.mpr ⟨List.mem_toFinset.mpr hmem, hspecial⟩⟩
  -- the longest hostname with special characters
  obtain ⟨entry, hentry, hmax⟩ := Finset.exists_max_image _ (fun p => p.hostname.toList.length) hne
  obtain ⟨hmem, hspecial⟩ := Finset.mem_filter.mp hentry
  have hfields : entry.fields ∈ (listRows v').map PeerRow.toPeerFields :=
    hrows.mem_iff.mpr (List.mem_map_of_mem (List.mem_toFinset.mp hmem))
  obtain ⟨row, hrow, heq⟩ := List.mem_map.mp hfields
  have hhostname : row.hostname = entry.hostname.toList := congrArg PeerFields.hostname heq
  have hhas := has_of_listRows hrow (hhostname ▸ fun hnil => hspecial (hnil ▸ Json.plain_nil))
  rw [hhostname] at hhas
  obtain ⟨longer, hlonger, hspecial', hlt⟩ := shorter_hostname hlocal hparse hhas hspecial
  exact absurd (hmax longer (Finset.mem_filter.mpr ⟨List.mem_toFinset.mpr hlonger, hspecial'⟩)) (not_le.mpr hlt)

end Engine

/-- **`peers.json` is faithful exactly if no connected peer has a hostname that needs escapes**, whatever is
connected and whatever JSON the local part is. -/
theorem peers_json_faithful_iff {τ : Type} (e : Engine τ) (localJson : String)
    (hlocal : (parse localJson.toList).isSome) : e.ShownBy (e.buildPeersJson localJson) ↔ e.PlainHostnames := by
  obtain ⟨v, hv⟩ := Option.isSome_iff_exists.mp hlocal
  exact ⟨Engine.plain_of_shownBy hv, fun h => Engine.shownBy_of_plain h hv⟩

namespace Transparent

/-- Peer 7 completes a handshake and introduces itself. -/
def introduced (hostname : String) : List (LoopAction transparent) :=
  (handshakeFrom 7 (addr 2) 3 4 ++
    [messageFrom (addr 2) 3 4 0 (.sessionInit ⟨10, 88, 7, 7⟩ none hostname none)]).map .task

end Transparent

open Transparent in
theorem peers_json_faithful_alice :
    let e := (exec (Node.loopNext blake3) (roomyNode 1) (introduced "alice")).engine
    e.ShownBy (e.buildPeersJson "\x7b\x7d") :=
  (peers_json_faithful_iff _ "\x7b\x7d" (by decide)).mpr (by decide +kernel)

open Transparent in
/-- A hostname that is a quote. -/
theorem hostname_breaks_file :
    ¬ ∀ (blake3 : Blake3) (n : Node transparent), n.Initial → ∀ (as : List (LoopAction transparent))
      (localJson : String), (parse localJson.toList).isSome →
      (exec (Node.loopNext blake3) n as).engine.ShownBy
        ((exec (Node.loopNext blake3) n as).engine.buildPeersJson localJson) := by
  intro h
  have hshown := h blake3 (roomyNode 1) ⟨rfl, rfl, rfl, rfl, rfl, rfl, rfl⟩ (introduced "\"") "\x7b\x7d" (by decide)
  exact absurd (Engine.plain_of_shownBy (Option.some_get (by decide)).symm hshown) (by decide +kernel)

end SeedNet
