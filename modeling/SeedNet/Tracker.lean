import Mathlib.Data.List.Infix
import SeedNet.BigEndian
import SeedNet.Frames
import SeedNet.IdentifierText
import SeedNet.PercentEncoding
import SeedNet.StunResponse

/-! # Announcing to BitTorrent trackers

`crates/tracker/src/lib.rs`: a node announces itself under the info-hash of its network and gets the addresses of
others.  A tracker is whatever answers requests: `exchange` sends a datagram to the host and port of a UDP tracker and
receives the next one (with an error also for no socket, no such host and no answer in time), and `get` requests an
address over HTTP and decodes the body.

* `udp_announce_ok_iff`: which two datagrams a node sends to a UDP tracker, and exactly which answers it accepts.
* `http_query_read_iff`: an HTTP tracker reads the fields of the announcement back from the query exactly if its
  address has no query of its own. -/

namespace SeedNet

/-! ### Words in network byte order -/

/-- `u64::to_be_bytes`. -/
def toBe64 (n : UInt64) : Bytes := [56, 48, 40, 32, 24, 16, 8, 0].map fun i : ℕ => (n.toNat >>> i).toUInt8

theorem toBe16_eq (n : UInt16) : toBe16 n = BigEndian.encode 2 n.toNat := by
  have hhigh : (n >>> 8).toUInt8 = (n.toNat / 256).toUInt8 := by
    rw [Nat.toUInt8_eq, ← UInt8.toNat_inj, UInt16.toNat_toUInt8, UInt16.toNat_shiftRight, UInt8.toNat_ofNat',
      Nat.shiftRight_eq_div_pow]
    rfl
  have hlow : n.toUInt8 = n.toNat.toUInt8 := by
    rw [Nat.toUInt8_eq, ← UInt8.toNat_inj, UInt16.toNat_toUInt8, UInt8.toNat_ofNat']
  rw [toBe16, hhigh, hlow]
  rfl

theorem toBe64_eq (n : UInt64) : toBe64 n = BigEndian.encode 8 n.toNat := by
  simp only [toBe64, BigEndian.encode, List.map_cons, List.map_nil, List.nil_append, List.cons_append,
    Nat.shiftRight_eq_div_pow, Nat.div_div_eq_div_mul, Nat.pow_zero, Nat.div_one]

/-! ### Compact addresses -/

/-- Parse 6-byte compact peer encoding (4 bytes IP + 2 bytes port). -/
def compactToAddrs : Bytes → List SocketAddr
  | a :: b :: c :: d :: p :: q :: rest => .v4 ⟨a, b, c, d⟩ (be16 p q).toUInt16 :: compactToAddrs rest
  | _ => []

/-- A peer in the list of a tracker. -/
abbrev TrackerPeer := Ipv4Addr × UInt16

def TrackerPeer.addr (p : TrackerPeer) : SocketAddr := .v4 p.1 p.2

/-- The compact encoding of peers. -/
def compact (peers : List TrackerPeer) : Bytes := peers.flatMap fun p => p.1.octets ++ toBe16 p.2

@[simp] theorem compact_cons (p : TrackerPeer) (peers : List TrackerPeer) :
    compact (p :: peers) = p.1.octets ++ toBe16 p.2 ++ compact peers := List.flatMap_cons

theorem length_compact (peers : List TrackerPeer) : (compact peers).length = 6 * peers.length := by
  induction peers with
  | nil => rfl
  | cons p peers ih =>
      rw [compact_cons, List.length_append, ih, List.length_cons]
      simp only [Ipv4Addr.octets, toBe16, List.length_append, List.length_cons, List.length_nil]
      omega

theorem be16_toUInt16 (n : UInt16) : (be16 (n >>> 8).toUInt8 n.toUInt8).toUInt16 = n := by
  rw [be16_toBe16, Nat.toUInt16_eq, UInt16.ofNat_toNat]

/-- A compact encoding is read back; what is too short for another peer is left out. -/
theorem compactToAddrs_compact (peers : List TrackerPeer) {rest : Bytes} (hrest : rest.length < 6) :
    compactToAddrs (compact peers ++ rest) = peers.map TrackerPeer.addr := by
  induction peers with
  | nil =>
      match rest, hrest with
      | [], _ | [_], _ | [_, _], _ | [_, _, _], _ | [_, _, _, _], _ | [_, _, _, _, _], _ => rfl
  | cons p peers ih =>
      simp only [compact_cons, Ipv4Addr.octets, toBe16, List.cons_append, List.nil_append, compactToAddrs,
        be16_toUInt16, ih, List.map_cons]
      rfl

/-- Every byte string is a compact encoding, up to a rest. -/
theorem exists_compact (data : Bytes) : ∃ peers rest, data = compact peers ++ rest ∧ rest.length < 6 := by
  induction data using compactToAddrs.induct with
  | case1 a b c d p q rest ih =>
      obtain ⟨peers, more, rfl, hmore⟩ := ih
      refine ⟨(⟨a, b, c, d⟩, (be16 p q).toUInt16) :: peers, more, ?_, hmore⟩
      have hport : toBe16 (be16 p q).toUInt16 = [p, q] := by
        have hnumber : be16 p q = BigEndian.decode [p, q] := by
          rw [be16, BigEndian.decode, List.foldl_cons, List.foldl_cons, List.foldl_nil]
          omega
        have hlt : BigEndian.decode [p, q] < 2 ^ 16 := by simpa using BigEndian.decode_lt [p, q]
        rw [toBe16_eq, hnumber, Nat.toUInt16_eq, UInt16.toNat_ofNat', Nat.mod_eq_of_lt hlt]
        exact BigEndian.encode_decode [p, q]
      rw [compact_cons, hport]
      rfl
  | case2 data hshort =>
      refine ⟨[], data, rfl, ?_⟩
      rcases data with _ | ⟨a, _ | ⟨b, _ | ⟨c, _ | ⟨d, _ | ⟨p, _ | ⟨q, rest⟩⟩⟩⟩⟩⟩
      case cons.cons.cons.cons.cons.cons => exact absurd rfl (hshort a b c d p q rest)
      all_goals simp

/-! ### UDP trackers -/

/-- The 20-byte peer ID of a node. -/
structure TrackerPeerId where
  bytes : Bytes
  length_eq : bytes.length = 20
deriving DecidableEq

/-- The first 20 bytes of the identity. -/
def PeerId.trackerPeerId (id : PeerId) : TrackerPeerId where
  bytes := id.asBytes.take 20
  length_eq := by
    rw [List.length_take, PeerId.asBytes, id.bytes.length_eq]
    rfl

def connectMagic : UInt64 := 0x41727101980

/-- `connect_req`. -/
def connectReq (transactionId : UInt32) : Bytes :=
  let req := List.replicate 16 0
  let req := copyInto req 0 (toBe64 connectMagic)
  let req := copyInto req 8 (toBeBytes 0)
  copyInto req 12 (toBeBytes transactionId)

/-- `ann_req`. -/
def annReq (connectionId : UInt64) (transactionId : UInt32) (infoHash : InfoHash) (peerId : TrackerPeerId)
    (port : UInt16) : Bytes :=
  let req := List.replicate 98 0
  let req := copyInto req 0 (toBe64 connectionId)
  let req := copyInto req 8 (toBeBytes 1)
  let req := copyInto req 12 (toBeBytes transactionId)
  let req := copyInto req 16 infoHash.bytes
  let req := copyInto req 36 peerId.bytes
  let req := copyInto req 80 (toBeBytes 2)
  let req := copyInto req 92 (toBeBytes (-1))
  copyInto req 96 (toBe16 port)

/-- The connection ID in a connect response, and the buffer it was received in. -/
def connectResponse (transactionId : UInt32) (datagram : Bytes) : Except String (UInt64 × Bytes) :=
  let (n, buf) := recvInto datagram (List.replicate 1024 0)
  if n < 16 then .error "connect response too short"
  else
    let respAction := fromBeBytes (buf.take 4)
    let respTid := fromBeBytes ((buf.drop 4).take 4)
    if respAction ≠ 0 ∨ respTid ≠ transactionId.toNat then .error "invalid connect response"
    else .ok ((fromBeBytes ((buf.drop 8).take 8)).toUInt64, buf)

/-- The peers in an announce response. -/
def announceResponse (buf datagram : Bytes) : Except String (List SocketAddr) :=
  let (n, buf) := recvInto datagram buf
  if n < 20 then .error "announce response too short"
  else
    let respAction := fromBeBytes (buf.take 4)
    if respAction ≠ 1 then .error ("unexpected action " ++ decimal respAction)
    else .ok (compactToAddrs ((buf.take n).drop 20))

/-- `url.trim_start_matches(pattern)`; every round takes characters away, so `url.len()` rounds are enough. -/
def trimStartMatches (pattern : List Char) : ℕ → List Char → List Char
  | 0, url => url
  | n + 1, url => if pattern <+: url then trimStartMatches pattern n (url.drop pattern.length) else url

/-- `host:port` of `udp://host:port[/announce]`. -/
def hostPort (url : String) : String :=
  let hostPart := trimStartMatches "udp://".toList url.length url.toList
  .ofList (hostPart.takeWhile (· ≠ '/'))

variable {σ : Type}

/-- The announcement to a UDP tracker; `exchange` sends a datagram to a host and receives the next one. -/
def udpAnnounce (exchange : σ → String → Bytes → Except String Bytes × σ) (url : String) (infoHash : InfoHash)
    (peerId : TrackerPeerId) (port : UInt16) (transactionId : UInt32) (s : σ) :
    Except String (List SocketAddr) × σ :=
  match exchange s (hostPort url) (connectReq transactionId) with
  | (.error e, s) => (.error e, s)
  | (.ok datagram, s) =>
    match connectResponse transactionId datagram with
    | .error e => (.error e, s)
    | .ok (connectionId, buf) =>
      match exchange s (hostPort url) (annReq connectionId transactionId infoHash peerId port) with
      | (.error e, s) => (.error e, s)
      | (.ok datagram, s) => (announceResponse buf datagram, s)

/-! ### Their messages -/

theorem copyInto_skip {a l x : Bytes} {n : ℕ} (h : a.length ≤ n) :
    copyInto (a ++ l) n x = a ++ copyInto l (n - a.length) x := by
  have hdrop : n + x.length - a.length = n - a.length + x.length := by omega
  simp only [copyInto, List.take_append, List.drop_append, List.take_of_length_le h, List.append_assoc,
    List.drop_eq_nil_of_le (Nat.le_add_right_of_le h), List.nil_append, hdrop]

theorem copyInto_write {b l x : Bytes} (h : b.length = x.length) : copyInto (b ++ l) 0 x = x ++ l := by
  rw [copyInto, List.take_zero, List.nil_append, Nat.zero_add, ← h, List.drop_left]

/-- A connect request: the magic number, the action 0 and the transaction. -/
def ConnectRequest.encode (transactionId : UInt32) : Bytes :=
  toBe64 connectMagic ++ (toBeBytes 0 ++ toBeBytes transactionId)

/-- An announce request; its action is 1. -/
structure AnnounceRequest where
  connectionId : UInt64
  transactionId : UInt32
  infoHash : InfoHash
  peerId : TrackerPeerId
  downloaded : UInt64 := 0
  left : UInt64 := 0
  uploaded : UInt64 := 0
  /-- 2 stands for `started` -/
  event : UInt32 := 2
  ip : UInt32 := 0
  key : UInt32 := 0
  /-- -1 stands for as many as the tracker likes -/
  numWant : UInt32 := -1
  port : UInt16

def AnnounceRequest.encode (r : AnnounceRequest) : Bytes :=
  toBe64 r.connectionId ++ (toBeBytes 1 ++ (toBeBytes r.transactionId ++ (r.infoHash.bytes ++ (r.peerId.bytes ++
    (toBe64 r.downloaded ++ (toBe64 r.left ++ (toBe64 r.uploaded ++ (toBeBytes r.event ++ (toBeBytes r.ip ++
      (toBeBytes r.key ++ (toBeBytes r.numWant ++ toBe16 r.port)))))))))))

theorem connectReq_eq (transactionId : UInt32) : connectReq transactionId = ConnectRequest.encode transactionId := rfl

theorem annReq_eq (connectionId : UInt64) (transactionId : UInt32) (infoHash : InfoHash) (peerId : TrackerPeerId)
    (port : UInt16) :
    annReq connectionId transactionId infoHash peerId port =
      { connectionId, transactionId, infoHash, peerId, port : AnnounceRequest }.encode := by
  have h16 (n : UInt16) : (toBe16 n).length = 2 := rfl
  have h32 (n : UInt32) : (toBeBytes n).length = 4 := rfl
  have h64 (n : UInt64) : (toBe64 n).length = 8 := rfl
  have hhash : infoHash.bytes.length = 20 := infoHash.length_eq
  have hid : peerId.bytes.length = 20 := peerId.length_eq
  have hzeros : List.replicate 98 (0 : UInt8) =
      List.replicate 8 0 ++ (List.replicate 4 0 ++ (List.replicate 4 0 ++ (List.replicate 20 0 ++
        (List.replicate 20 0 ++ (List.replicate 8 0 ++ (List.replicate 8 0 ++ (List.replicate 8 0 ++
          (List.replicate 4 0 ++ (List.replicate 4 0 ++ (List.replicate 4 0 ++ (List.replicate 4 0 ++
            (List.replicate 2 0 ++ [])))))))))))) := rfl
  simp (disch := simp only [h16, h32, h64, hhash, hid, List.length_replicate, Nat.reduceLeDiff, le_refl]) only
    [annReq, hzeros, copyInto_skip, copyInto_write, h32, h64, hhash, hid, List.length_replicate, Nat.reduceSub]
  have hzero64 : List.replicate 8 0 = toBe64 0 := by decide
  have hzero32 : List.replicate 4 0 = toBeBytes 0 := by decide
  rw [AnnounceRequest.encode, List.append_nil, hzero64, hzero32]

theorem fromBeBytes_eq_iff {bytes : Bytes} (hlen : bytes.length = 4) (n : UInt32) :
    fromBeBytes bytes = n.toNat ↔ bytes = toBeBytes n := by
  constructor
  · intro h
    exact BigEndian.eq_of_decode_eq (hlen.trans rfl) (h.trans (fromBeBytes_toBeBytes n).symm)
  · rintro rfl
    exact fromBeBytes_toBeBytes n

theorem fromBeBytes_toUInt64_eq_iff {bytes : Bytes} (hlen : bytes.length = 8) (n : UInt64) :
    (fromBeBytes bytes).toUInt64 = n ↔ bytes = toBe64 n := by
  have hlt : fromBeBytes bytes < 2 ^ 64 := by
    have h := BigEndian.decode_lt bytes
    rw [hlen] at h
    exact h
  have hdecode : BigEndian.decode (toBe64 n) = n.toNat := by
    rw [toBe64_eq]
    exact BigEndian.decode_encode n.toNat_lt
  constructor
  · rintro rfl
    refine BigEndian.eq_of_decode_eq (hlen.trans rfl) ?_
    rw [hdecode, Nat.toUInt64_eq, UInt64.toNat_ofNat', Nat.mod_eq_of_lt hlt]
    rfl
  · rintro rfl
    show (BigEndian.decode (toBe64 n)).toUInt64 = n
    rw [hdecode, Nat.toUInt64_eq, UInt64.ofNat_toNat]

theorem take_drop_take {l : Bytes} {i k n : ℕ} (h : i + k ≤ n) : ((l.take n).drop i).take k = (l.drop i).take k := by
  rw [List.drop_take, List.take_take, Nat.min_eq_left (by omega)]

/-- What was received is what is read from the buffer. -/
theorem recvInto_read {datagram buf : Bytes} {i k : ℕ} (h : i + k ≤ (recvInto datagram buf).1) :
    ((recvInto datagram buf).2.drop i).take k = (datagram.drop i).take k := by
  have hle : i + k ≤ buf.length := Nat.le_trans h (Nat.min_le_right _ _)
  rw [← take_drop_take h, ← take_drop_take (l := datagram) hle]
  exact congrArg (fun l => (l.drop i).take k) (received_eq datagram buf)

theorem length_recvInto (datagram buf : Bytes) : (recvInto datagram buf).2.length = buf.length := by
  refine length_copyInto ?_
  rw [List.length_take]
  omega

/-- The fields of a connect response. -/
theorem connectFields_iff {datagram : Bytes} {action tid : UInt32} {id : UInt64} (hlen : 16 ≤ datagram.length) :
    (∃ more, datagram = toBeBytes action ++ (toBeBytes tid ++ (toBe64 id ++ more))) ↔
      datagram.take 4 = toBeBytes action ∧ (datagram.drop 4).take 4 = toBeBytes tid ∧
        (datagram.drop 8).take 8 = toBe64 id := by
  constructor
  · rintro ⟨more, rfl⟩
    exact ⟨rfl, rfl, rfl⟩
  · rintro ⟨ha, ht, hi⟩
    refine ⟨datagram.drop 16, ?_⟩
    rw [← ha, ← ht, ← hi, ← List.drop_drop (i := 8) (j := 8), List.take_append_drop,
      ← List.drop_drop (i := 4) (j := 4), List.take_append_drop, List.take_append_drop]

/-- A connect response repeats the transaction after the action 0. -/
theorem connectResponse_eq_ok {transactionId : UInt32} {datagram : Bytes} {connectionId : UInt64} {buf : Bytes} :
    connectResponse transactionId datagram = .ok (connectionId, buf) ↔
      (∃ more, datagram = toBeBytes 0 ++ (toBeBytes transactionId ++ (toBe64 connectionId ++ more))) ∧
        buf = (recvInto datagram (List.replicate 1024 0)).2 := by
  have hn : (recvInto datagram (List.replicate 1024 0)).1 = min datagram.length 1024 := by
    rw [recvInto, List.length_replicate]
  have hread {i k : ℕ} (h : i + k ≤ (recvInto datagram (List.replicate 1024 0)).1) := recvInto_read h
  rw [connectResponse]
  generalize recvInto datagram (List.replicate 1024 0) = received at hn hread ⊢
  obtain ⟨n, buf'⟩ := received
  dsimp only at hn hread ⊢
  by_cases hshort : n < 16
  · rw [if_pos hshort]
    refine iff_of_false (by simp) ?_
    rintro ⟨⟨more, rfl⟩, -⟩
    rw [List.length_append, List.length_append, List.length_append] at hn
    have haction : (toBeBytes 0).length = 4 := rfl
    have htid : (toBeBytes transactionId).length = 4 := rfl
    have hid : (toBe64 connectionId).length = 8 := rfl
    omega
  · have haction : buf'.take 4 = datagram.take 4 := hread (i := 0) (by omega)
    have htid : (buf'.drop 4).take 4 = (datagram.drop 4).take 4 := hread (by omega)
    have hid : (buf'.drop 8).take 8 = (datagram.drop 8).take 8 := hread (by omega)
    have hlen : 16 ≤ datagram.length := by omega
    have h4 : (datagram.take 4).length = 4 := by rw [List.length_take]; omega
    have h8 : ((datagram.drop 4).take 4).length = 4 := by rw [List.length_take, List.length_drop]; omega
    have h16 : ((datagram.drop 8).take 8).length = 8 := by rw [List.length_take, List.length_drop]; omega
    rw [if_neg hshort, haction, htid, hid, connectFields_iff hlen, ← fromBeBytes_eq_iff h4, ← fromBeBytes_eq_iff h8,
      ← fromBeBytes_toUInt64_eq_iff h16]
    split_ifs with hbad
    · refine iff_of_false (by simp) ?_
      rintro ⟨⟨haction, htid, -⟩, -⟩
      exact hbad.elim (· haction) (· htid)
    · rw [not_or, not_not, not_not] at hbad
      rw [Except.ok.injEq, Prod.mk.injEq]
      exact ⟨fun h => ⟨⟨hbad.1, hbad.2, h.1⟩, h.2.symm⟩, fun h => ⟨h.1.2.2, h.2.symm⟩⟩

/-- An announce response has the action 1, and its peers after 16 more bytes. -/
theorem announceResponse_eq_ok {buf datagram : Bytes} {addrs : List SocketAddr} :
    announceResponse buf datagram = .ok addrs ↔
      ∃ head peers rest, datagram.take buf.length = toBeBytes 1 ++ (head ++ (compact peers ++ rest)) ∧
        head.length = 16 ∧ rest.length < 6 ∧ addrs = peers.map TrackerPeer.addr := by
  have hone : (toBeBytes 1).length = 4 := rfl
  have hn : (recvInto datagram buf).1 = (datagram.take buf.length).length := by
    rw [recvInto, List.length_take, Nat.min_comm]
  have htaken : (recvInto datagram buf).2.take (recvInto datagram buf).1 = datagram.take buf.length :=
    received_eq datagram buf
  rw [announceResponse]
  generalize recvInto datagram buf = received at hn htaken ⊢
  obtain ⟨n, buf'⟩ := received
  dsimp only at hn htaken ⊢
  by_cases hshort : n < 20
  · rw [if_pos hshort]
    refine iff_of_false (by simp) ?_
    rintro ⟨head, peers, rest, hbytes, hhead, -⟩
    rw [hbytes, List.length_append, List.length_append] at hn
    omega
  · have haction : buf'.take 4 = (datagram.take buf.length).take 4 := by
      rw [← htaken, List.take_take, Nat.min_eq_left (by omega)]
    have h4 : ((datagram.take buf.length).take 4).length = 4 := by rw [List.length_take]; omega
    rw [if_neg hshort, htaken, haction]
    split_ifs with hbad
    · refine iff_of_false (by simp) ?_
      rintro ⟨head, peers, rest, hbytes, -⟩
      refine hbad ?_
      rw [hbytes]
      exact fromBeBytes_toBeBytes 1
    · have hfirst := (fromBeBytes_eq_iff h4 1).mp (not_not.mp hbad)
      rw [Except.ok.injEq]
      constructor
      · rintro rfl
        obtain ⟨peers, rest, hpeers, hrest⟩ := exists_compact ((datagram.take buf.length).drop 20)
        refine ⟨((datagram.take buf.length).drop 4).take 16, peers, rest, ?_, ?_, hrest, ?_⟩
        · rw [← hfirst, ← hpeers, ← List.drop_drop (i := 16) (j := 4), List.take_append_drop, List.take_append_drop]
        · rw [List.length_take, List.length_drop]
          omega
        · rw [hpeers, compactToAddrs_compact peers hrest]
      · rintro ⟨head, peers, rest, hbytes, hhead, hrest, rfl⟩
        have hdrop : (toBeBytes 1 ++ (head ++ (compact peers ++ rest))).drop 20 = compact peers ++ rest := by
          rw [← List.append_assoc, List.drop_left' (by rw [List.length_append]; omega)]
        rw [hbytes, hdrop, compactToAddrs_compact peers hrest]

theorem length_recvInto_zeros (datagram : Bytes) : (recvInto datagram (List.replicate 1024 0)).2.length = 1024 := by
  rw [length_recvInto, List.length_replicate]

/-- Responses of a tracker are accepted. -/
theorem udpAnnounce_of_responses {exchange : σ → String → Bytes → Except String Bytes × σ} {url : String}
    {infoHash : InfoHash} {peerId : TrackerPeerId} {port : UInt16} {transactionId : UInt32} {s s₁ s' : σ}
    {connectionId : UInt64} {more datagram head rest : Bytes} {peers : List TrackerPeer}
    (hconnect : exchange s (hostPort url) (ConnectRequest.encode transactionId) =
      (.ok (toBeBytes 0 ++ (toBeBytes transactionId ++ (toBe64 connectionId ++ more))), s₁))
    (hannounce : exchange s₁ (hostPort url)
      { connectionId, transactionId, infoHash, peerId, port : AnnounceRequest }.encode = (.ok datagram, s'))
    (hbytes : datagram.take 1024 = toBeBytes 1 ++ (head ++ (compact peers ++ rest))) (hhead : head.length = 16)
    (hrest : rest.length < 6) :
    udpAnnounce exchange url infoHash peerId port transactionId s = (.ok (peers.map TrackerPeer.addr), s') := by
  generalize hfirst : toBeBytes 0 ++ (toBeBytes transactionId ++ (toBe64 connectionId ++ more)) = first at hconnect
  have hresponse := connectResponse_eq_ok.mpr ⟨⟨more, hfirst.symm⟩, rfl⟩
  have hok : announceResponse (recvInto first (List.replicate 1024 0)).2 datagram =
      .ok (peers.map TrackerPeer.addr) := by
    rw [announceResponse_eq_ok, length_recvInto_zeros]
    exact ⟨head, peers, rest, hbytes, hhead, hrest, rfl⟩
  rw [udpAnnounce, connectReq_eq, hconnect]
  simp only [hresponse]
  rw [annReq_eq, hannounce]
  exact congrArg (·, s') hok

/-- **A UDP tracker is asked and understood as the protocol has it.**  Peers are returned exactly if a connect request
was answered by a connect response to it, and the announce request with the connection ID of that response by an
announce response; they are its peers, as far as it fits into the buffer. -/
theorem udp_announce_ok_iff (exchange : σ → String → Bytes → Except String Bytes × σ) (url : String)
    (infoHash : InfoHash) (peerId : TrackerPeerId) (port : UInt16) (transactionId : UInt32) (s s' : σ)
    (addrs : List SocketAddr) :
    udpAnnounce exchange url infoHash peerId port transactionId s = (.ok addrs, s') ↔
      ∃ connectionId more s₁ datagram head peers rest,
        exchange s (hostPort url) (ConnectRequest.encode transactionId) =
          (.ok (toBeBytes 0 ++ (toBeBytes transactionId ++ (toBe64 connectionId ++ more))), s₁) ∧
        exchange s₁ (hostPort url) { connectionId, transactionId, infoHash, peerId, port : AnnounceRequest }.encode =
          (.ok datagram, s') ∧
        datagram.take 1024 = toBeBytes 1 ++ (head ++ (compact peers ++ rest)) ∧ head.length = 16 ∧ rest.length < 6 ∧
        addrs = peers.map TrackerPeer.addr := by
  constructor
  · intro h
    rw [udpAnnounce, connectReq_eq] at h
    rcases hconnect : exchange s (hostPort url) (ConnectRequest.encode transactionId) with ⟨e | datagram, s₁⟩ <;>
      rw [hconnect] at h
    · cases h
    · rcases hresponse : connectResponse transactionId datagram with e | ⟨connectionId, buf⟩ <;>
        simp only [hresponse] at h
      · cases h
      · obtain ⟨⟨more, rfl⟩, hb⟩ := connectResponse_eq_ok.mp hresponse
        rw [annReq_eq] at h
        rcases hannounce : exchange s₁ (hostPort url)
          { connectionId, transactionId, infoHash, peerId, port : AnnounceRequest }.encode with ⟨e | datagram, s₂⟩ <;>
          rw [hannounce] at h
        · cases h
        · obtain ⟨hok, rfl⟩ := Prod.mk.inj h
          obtain ⟨head, peers, rest, hbytes, hfields⟩ := announceResponse_eq_ok.mp hok
          rw [hb, length_recvInto_zeros] at hbytes
          exact ⟨connectionId, more, s₁, datagram, head, peers, rest, rfl, hannounce, hbytes, hfields⟩
  · rintro ⟨connectionId, more, s₁, datagram, head, peers, rest, hconnect, hannounce, hbytes, hhead, hrest, rfl⟩
    exact udpAnnounce_of_responses hconnect hannounce hbytes hhead hrest

/-! ### HTTP trackers -/

/-- The characters that need no encoding in a query. -/
def unreserved (b : UInt8) : Bool :=
  decide (48 ≤ b ∧ b ≤ 57 ∨ 65 ≤ b ∧ b ≤ 90 ∨ 97 ≤ b ∧ b ≤ 122) || b = 45 || b = 95 || b = 46 || b = 126

/-- Percent-encode binary data for use in a URL query string. -/
def percentEncode (data : Bytes) : String := .ofList (PercentEncoding.encode unreserved data)

/-- `full_url`. -/
def announceUrl (url : String) (infoHash : InfoHash) (peerId : TrackerPeerId) (port : UInt16) : String :=
  url ++ "?info_hash=" ++ percentEncode infoHash.bytes ++ "&peer_id=" ++ percentEncode peerId.bytes ++ "&port=" ++
    decimal port.toNat ++ "&uploaded=0&downloaded=0&left=0&compact=1&event=started&numwant=50"

/-- The fields of the query, encoded. -/
def announceFields (infoHash : InfoHash) (peerId : TrackerPeerId) (port : UInt16) : List PercentEncoding.Field :=
  [("info_hash".toList, PercentEncoding.encode unreserved infoHash.bytes),
    ("peer_id".toList, PercentEncoding.encode unreserved peerId.bytes), ("port".toList, Nat.toDigits 10 port.toNat),
    ("uploaded".toList, "0".toList), ("downloaded".toList, "0".toList), ("left".toList, "0".toList),
    ("compact".toList, "1".toList), ("event".toList, "started".toList), ("numwant".toList, "50".toList)]

/-- The fields of the query, as they are meant. -/
def announcement (infoHash : InfoHash) (peerId : TrackerPeerId) (port : UInt16) : List (List Char × Option Bytes) :=
  [("info_hash".toList, some infoHash.bytes), ("peer_id".toList, some peerId.bytes),
    ("port".toList, some ((Nat.toDigits 10 port.toNat).map fun c => c.toNat.toUInt8)), ("uploaded".toList, some [48]),
    ("downloaded".toList, some [48]), ("left".toList, some [48]), ("compact".toList, some [49]),
    ("event".toList, some [115, 116, 97, 114, 116, 101, 100]), ("numwant".toList, some [53, 48])]

theorem character_ne_of_unreserved {b : UInt8} (hb : unreserved b = true) :
    ∀ c ∈ ['%', '&', '=', '#', '?'], PercentEncoding.character b ≠ c := by
  intro c hc heq
  have hreserved : ∀ c ∈ ['%', '&', '=', '#', '?'], unreserved c.toNat.toUInt8 = false := by simp [unreserved]
  rw [PercentEncoding.eq_of_character heq, hreserved c hc] at hb
  cases hb

/-- No separator is in an encoded value. -/
theorem notMem_encode (bytes : Bytes) : ∀ c ∈ ['&', '=', '#', '?'], c ∉ PercentEncoding.encode unreserved bytes := by
  intro c hc hmem
  have hsigns : ∀ c ∈ ['&', '=', '#', '?'], c ≠ '%' ∧ ¬ Digits.IsDigit c := by simp [Digits.IsDigit]
  rcases PercentEncoding.mem_encode hmem with ⟨b, hb, heq⟩ | heq | hdigit
  · exact character_ne_of_unreserved hb c (List.mem_cons_of_mem _ hc) heq.symm
  · exact (hsigns c hc).1 heq
  · exact (hsigns c hc).2 hdigit

theorem toList_announceUrl (url : String) (infoHash : InfoHash) (peerId : TrackerPeerId) (port : UInt16) :
    (announceUrl url infoHash peerId port).toList =
      url.toList ++ '?' :: PercentEncoding.render (announceFields infoHash peerId port) := by
  simp only [announceUrl, announceFields, percentEncode, PercentEncoding.render, PercentEncoding.renderField,
    toList_decimal, String.toList_append, String.toList_ofList, List.map_cons, List.map_nil,
    List.intercalate_cons_cons, List.intercalate_singleton, List.append_assoc, List.cons_append, List.nil_append,
    String.reduceToList]

theorem notMem_toDigits (n : ℕ) : ∀ c ∈ ['%', '&', '=', '#', '?'], c ∉ Nat.toDigits 10 n := by
  intro c hc hmem
  have hsigns : ∀ c ∈ ['%', '&', '=', '#', '?'], c.isDigit = false := by simp
  exact absurd (Nat.isDigit_of_mem_toDigits (by decide) le_rfl hmem) (Bool.eq_false_iff.mp (hsigns c hc))

/-- No separator is in the names and values of the query. -/
theorem notMem_announceFields {infoHash : InfoHash} {peerId : TrackerPeerId} {port : UInt16} :
    ∀ f ∈ announceFields infoHash peerId port, ∀ c ∈ ['&', '=', '#', '?'], c ∉ f.1 ∧ c ∉ f.2 := by
  intro f hf
  simp only [announceFields, String.reduceToList, List.mem_cons, List.not_mem_nil, or_false] at hf
  rcases hf with rfl | rfl | rfl | rfl | rfl | rfl | rfl | rfl | rfl
  · have hname : ∀ c ∈ ['&', '=', '#', '?'], c ∉ ['i', 'n', 'f', 'o', '_', 'h', 'a', 's', 'h'] := by simp
    exact fun c hc => ⟨hname c hc, notMem_encode _ c hc⟩
  · have hname : ∀ c ∈ ['&', '=', '#', '?'], c ∉ ['p', 'e', 'e', 'r', '_', 'i', 'd'] := by simp
    exact fun c hc => ⟨hname c hc, notMem_encode _ c hc⟩
  · have hname : ∀ c ∈ ['&', '=', '#', '?'], c ∉ ['p', 'o', 'r', 't'] := by simp
    exact fun c hc => ⟨hname c hc, notMem_toDigits _ c (List.mem_cons_of_mem _ hc)⟩
  all_goals simp

/-- The values are decoded to what is meant. -/
theorem map_announceFields (infoHash : InfoHash) (peerId : TrackerPeerId) (port : UInt16) :
    (announceFields infoHash peerId port).map (Prod.map id PercentEncoding.decode) =
      announcement infoHash peerId port := by
  have hkeep (b : UInt8) (hb : unreserved b = true) : PercentEncoding.character b ≠ '%' :=
    character_ne_of_unreserved hb '%' (by decide)
  have hzero : PercentEncoding.decode ['0'] = some [48] := rfl
  have hone : PercentEncoding.decode ['1'] = some [49] := rfl
  have hfifty : PercentEncoding.decode ['5', '0'] = some [53, 48] := rfl
  have hstarted : PercentEncoding.decode ['s', 't', 'a', 'r', 't', 'e', 'd'] =
    some [115, 116, 97, 114, 116, 101, 100] := rfl
  simp only [announceFields, announcement, List.map_cons, List.map_nil, Prod.map_apply, id_eq,
    PercentEncoding.decode_encode hkeep,
    PercentEncoding.decode_of_notMem (notMem_toDigits port.toNat '%' (by decide)),
    String.reduceToList, hzero, hone, hfifty, hstarted]

theorem notMem_render {infoHash : InfoHash} {peerId : TrackerPeerId} {port : UInt16} :
    ∀ c ∈ ['#', '?'], c ∉ PercentEncoding.render (announceFields infoHash peerId port) := by
  intro c hc hmem
  have hsigns : ∀ c ∈ ['#', '?'], c ≠ '&' ∧ c ≠ '=' ∧ c ∈ ['&', '=', '#', '?'] := by simp
  obtain ⟨hand, heq, hsign⟩ := hsigns c hc
  rcases PercentEncoding.mem_render hmem with h | h | ⟨f, hf, hcf⟩
  · exact hand h
  · exact heq h
  · exact hcf.elim (notMem_announceFields f hf c hsign).1 (notMem_announceFields f hf c hsign).2

theorem plain_announceFields {infoHash : InfoHash} {peerId : TrackerPeerId} {port : UInt16} :
    ∀ f ∈ announceFields infoHash peerId port, f.Plain := by
  intro f hf
  have hsigns := notMem_announceFields f hf
  exact ⟨(hsigns '=' (by decide)).1, (hsigns '&' (by decide)).1, (hsigns '&' (by decide)).2⟩

theorem notMem_fragment {url : List Char} (h : '#' ∉ url) {infoHash : InfoHash} {peerId : TrackerPeerId}
    {port : UInt16} : '#' ∉ url ++ '?' :: PercentEncoding.render (announceFields infoHash peerId port) := by
  simp only [List.mem_append, List.mem_cons, not_or]
  exact ⟨h, by decide, notMem_render '#' (by decide)⟩

/-- An announcement behind another query is not read as it is meant: its first field is not the info-hash. -/
theorem read_query_ne (u : List Char) (infoHash : InfoHash) (peerId : TrackerPeerId) (port : UInt16) :
    PercentEncoding.read (u ++ '?' :: PercentEncoding.render (announceFields infoHash peerId port)) ≠
      announcement infoHash peerId port := by
  intro h
  have hplain : ∀ f ∈ announceFields infoHash peerId port, f.Plain := plain_announceFields
  have hdecode := map_announceFields infoHash peerId port
  obtain ⟨rest, hfields, hlen⟩ : ∃ rest, announceFields infoHash peerId port =
    ("info_hash".toList, PercentEncoding.encode unreserved infoHash.bytes) :: rest ∧ rest.length = 8 := ⟨_, rfl, rfl⟩
  rw [hfields] at h hplain hdecode
  have hname := (hplain _ List.mem_cons_self).1
  have hinfo : PercentEncoding.decode (PercentEncoding.encode unreserved infoHash.bytes) = some infoHash.bytes :=
    PercentEncoding.decode_encode (fun b hb => character_ne_of_unreserved hb '%' (by decide)) _
  generalize "info_hash".toList = name at h hdecode hname
  generalize PercentEncoding.encode unreserved infoHash.bytes = value at h hdecode hname hinfo
  have hrest : rest ≠ [] := by
    rintro rfl
    cases hlen
  rw [PercentEncoding.render_cons hrest, PercentEncoding.renderField, ← List.cons_append, ← List.append_assoc,
    PercentEncoding.read, PercentEncoding.fields_append,
    PercentEncoding.fields_render hrest fun f hf => hplain f (List.mem_cons_of_mem _ hf), ← hdecode, List.map_append,
    List.map_cons] at h
  have hone : (PercentEncoding.fields (u ++ '?' :: (name ++ '=' :: value))).length = 1 := by
    have hlengths := congrArg List.length h
    simp only [List.length_append, List.length_cons, List.length_map] at hlengths
    omega
  rw [PercentEncoding.fields_of_length hone, List.map_singleton, List.singleton_append, List.cons.injEq] at h
  have hfirst := h.1
  by_cases heq : '=' ∈ u
  · obtain ⟨a, b, rfl, ha⟩ := List.eq_append_cons_of_mem heq
    rw [List.append_assoc, List.cons_append, PercentEncoding.field_append ha] at hfirst
    have hvalue : PercentEncoding.decode (b ++ '?' :: (name ++ '=' :: value)) = PercentEncoding.decode value :=
      (Prod.mk.inj hfirst).2
    rw [PercentEncoding.decode_append_cons (by decide) (by decide),
      PercentEncoding.decode_append_cons (by decide) (by decide), hinfo] at hvalue
    obtain ⟨x, -, hx⟩ := Option.bind_eq_some_iff.mp hvalue
    obtain ⟨y, hy, hbytes⟩ := Option.map_eq_some_iff.mp hx
    obtain ⟨z, -, hz⟩ := Option.bind_eq_some_iff.mp hy
    have hlength := congrArg List.length hbytes
    rw [← Option.some.inj hz] at hlength
    simp only [List.length_append, List.length_cons] at hlength
    omega
  · have hnot : '=' ∉ u ++ '?' :: name := by
      simp only [List.mem_append, List.mem_cons, not_or]
      exact ⟨heq, by decide, hname⟩
    rw [← List.cons_append, ← List.append_assoc, PercentEncoding.field_append hnot] at hfirst
    have hlength := congrArg List.length (Prod.mk.inj hfirst).1
    simp only [id_eq, List.length_append, List.length_cons] at hlength
    omega

/-- Without another query, the announcement is read as it is meant. -/
theorem read_announceUrl {url : String} (hfragment : '#' ∉ url.toList) (hquery : '?' ∉ url.toList)
    (infoHash : InfoHash) (peerId : TrackerPeerId) (port : UInt16) :
    PercentEncoding.read (PercentEncoding.query (announceUrl url infoHash peerId port).toList) =
      announcement infoHash peerId port := by
  rw [toList_announceUrl, PercentEncoding.query_append (notMem_fragment hfragment) hquery, PercentEncoding.read,
    PercentEncoding.fields_render (by simp [announceFields]) plain_announceFields]
  exact map_announceFields infoHash peerId port

/-- **An HTTP tracker reads what is announced**: the fields of the query are the announcement exactly if the address of
the tracker has no query of its own. -/
theorem http_query_read_iff (url : String) (hfragment : '#' ∉ url.toList) (infoHash : InfoHash)
    (peerId : TrackerPeerId) (port : UInt16) :
    PercentEncoding.read (PercentEncoding.query (announceUrl url infoHash peerId port).toList) =
      announcement infoHash peerId port ↔ '?' ∉ url.toList := by
  by_cases hquery : '?' ∈ url.toList
  · obtain ⟨base, u, hurl, hbase⟩ := List.eq_append_cons_of_mem hquery
    have hhash : '#' ∉ url.toList ++ '?' :: PercentEncoding.render (announceFields infoHash peerId port) :=
      notMem_fragment hfragment
    refine iff_of_false ?_ (not_not.mpr hquery)
    rw [toList_announceUrl]
    rw [hurl, List.append_assoc, List.cons_append] at hhash ⊢
    rw [PercentEncoding.query_append hhash hbase]
    exact read_query_ne u infoHash peerId port
  · exact iff_of_true (read_announceUrl hfragment hquery infoHash peerId port) hquery

/-- A tracker of the list that the source comes with. -/
theorem http_query_read_default : PercentEncoding.read (PercentEncoding.query
      (announceUrl "http://open.tracker.cl:1337/announce" ⟨List.replicate 20 200, rfl⟩ ⟨List.replicate 20 1, rfl⟩
        51820).toList) = announcement ⟨List.replicate 20 200, rfl⟩ ⟨List.replicate 20 1, rfl⟩ 51820 :=
  (http_query_read_iff "http://open.tracker.cl:1337/announce" (by decide) _ _ _).mpr (by decide)

/-- An octet in decimal, without leading zeros. -/
def octet (t : List Char) : Option UInt8 :=
  if 1 ≤ t.length ∧ t.length ≤ 3 ∧ t.all Char.isDigit ∧ (t.length = 1 ∨ t.head? ≠ some '0') ∧
      Digits.number 10 t < 256 then
    some (Digits.number 10 t).toUInt8
  else none

/-- `Ipv4Addr::from_str`. -/
def Ipv4Addr.parse (s : String) : Option Ipv4Addr :=
  match (s.toList.splitOn '.').map octet with
  | [some a, some b, some c, some d] => some ⟨a, b, c, d⟩
  | _ => none

structure HttpPeerDict where
  ip : String
  port : UInt16

inductive PeersField where
  | empty
  | compact (data : Bytes)
  | full (peers : List HttpPeerDict)

/-- The body of a response; fields that it leaves out have their defaults. -/
structure HttpTrackerResponse where
  peers : PeersField := .empty
  failureReason : String := ""

def PeersField.addrs : PeersField → List SocketAddr
  | .compact data => compactToAddrs data
  | .full list => list.filterMap fun p => (Ipv4Addr.parse p.ip).map fun ip => .v4 ip p.port
  | .empty => []

/-- The announcement to an HTTP tracker. -/
def httpAnnounce (get : σ → String → Except String HttpTrackerResponse × σ) (url : String) (infoHash : InfoHash)
    (peerId : TrackerPeerId) (port : UInt16) (s : σ) : Except String (List SocketAddr) × σ :=
  match get s (announceUrl url infoHash peerId port) with
  | (.error e, s) => (.error e, s)
  | (.ok resp, s) => (if resp.failureReason ≠ "" then .error resp.failureReason else .ok resp.peers.addrs, s)

/-- What announcements go through: an exchange of datagrams with a UDP tracker, and a request to an HTTP tracker. -/
structure TrackerAccess (σ : Type) where
  exchange : σ → String → Bytes → Except String Bytes × σ
  get : σ → String → Except String HttpTrackerResponse × σ

/-- `url.starts_with(scheme)`. -/
def hasScheme (scheme url : String) : Bool := decide (scheme.toList <+: url.toList)

/-- Announce to a tracker and return discovered peer addresses. -/
def announce (access : TrackerAccess σ) (url : String) (infoHash : InfoHash) (peerId : TrackerPeerId) (port : UInt16)
    (transactionId : UInt32) (s : σ) : List SocketAddr × σ :=
  if hasScheme "http://" url || hasScheme "https://" url then
    match httpAnnounce access.get url infoHash peerId port s with
    | (.ok peers, s) => (peers, s)
    | (.error _, s) => ([], s)
  else if hasScheme "udp://" url then
    match udpAnnounce access.exchange url infoHash peerId port transactionId s with
    | (.ok peers, s) => (peers, s)
    | (.error _, s) => ([], s)
  else ([], s)

theorem octet_toDigits : ∀ n < 256, octet (Nat.toDigits 10 n) = some n.toUInt8 := by decide +kernel

/-- The text of an address is read back. -/
theorem Ipv4Addr.parse_display (ip : Ipv4Addr) : Ipv4Addr.parse ip.display = some ip := by
  have hsplit : ip.display.toList.splitOn '.' = ip.octets.map fun b => Nat.toDigits 10 b.toNat := by
    have hdot : ∀ t ∈ ip.octets.map fun b => Nat.toDigits 10 b.toNat, '.' ∉ t := by
      intro t ht hmem
      obtain ⟨b, -, rfl⟩ := List.mem_map.mp ht
      exact absurd (Nat.isDigit_of_mem_toDigits (by decide) le_rfl hmem) (by decide)
    have htext : ip.octets.map (String.toList ∘ fun b => decimal b.toNat) =
        ip.octets.map fun b => Nat.toDigits 10 b.toNat := List.map_congr_left fun b _ => toList_decimal b.toNat
    rw [display, String.toList_intercalate, List.map_map, htext]
    exact List.splitOn_intercalate '.' hdot (by simp [octets])
  have hoctet (b : UInt8) : octet (Nat.toDigits 10 b.toNat) = some b := by
    rw [octet_toDigits _ b.toNat_lt, Nat.toUInt8_eq, UInt8.ofNat_toNat]
  simp only [parse, hsplit, octets, List.map_cons, List.map_nil, hoctet]

end SeedNet
