import SeedNet.ChannelExpiry

/-! # Peers of one message channel

A handshake takes whatever datagram its reader gets next.  The results that the channel has for a peer are compared
with those of a run that has only the actions for this peer (`concerns`).  `Agrees` relates the two channels, and
holds as long as every waiting handshake gets a datagram of its own peer (`awaited`).

`channel_isolated_iff`: the peers do not disturb each other exactly in these runs. -/

namespace SeedNet

open Results (mapError_eq_ok)
open Run (Along)

variable {S : Snow}

/-- The action is for the peer, or for all of them. -/
def ChannelAction.concerns (addr : SocketAddr) : ChannelAction S → Bool
  | .initateHandshake a _ _ _ => a = addr
  | .receive _ (.ok (src, _)) _ _ => src = addr
  | .receive (.call a _) (.error _) _ _ => a = addr
  | .receive .run (.error _) _ _ => true
  | .sendMessage msg _ => msg.toAddr = addr
  | .sendHeartbeat dst _ => dst = addr
  | .pruneExpired => true
  | .advance _ => true

/-- The result of a handshake or an inbound message. -/
def Output.isResult : Output → Bool
  | .sent _ _ => false
  | .handshake _ _ => true
  | .inbound _ => true

/-- What the channel does for the peer. -/
def outputsFor (addr : SocketAddr) (outputs : List Output) : List Output := outputs.filter fun o => o.addr = addr

/-- The handshake results of the peer, and its messages. -/
def resultsFor (addr : SocketAddr) (outputs : List Output) : List Output :=
  (outputsFor addr outputs).filter Output.isResult

theorem outputsFor_append (addr : SocketAddr) (l m : List Output) :
    outputsFor addr (l ++ m) = outputsFor addr l ++ outputsFor addr m := List.filter_append l m

theorem outputsFor_eq_nil {addr src : SocketAddr} {l : List Output} (h : ∀ o ∈ l, o.addr = src) (hne : src ≠ addr) :
    outputsFor addr l = [] :=
  List.filter_eq_nil_iff.mpr fun o ho => by simpa [h o ho] using hne

theorem mem_resultsFor {addr : SocketAddr} {l : List Output} {o : Output} :
    o ∈ resultsFor addr l ↔ o ∈ l ∧ o.addr = addr ∧ o.isResult = true := by
  simp only [resultsFor, outputsFor, List.mem_filter, decide_eq_true_eq, and_assoc]

namespace MessageChannel

/-- The outputs of a run. -/
def outputs : MessageChannel S → List (ChannelAction S) → List Output
  | _, [] => []
  | c, a :: as => (c.step a).1 ++ outputs (c.next a) as

/-- Every peer has the results that it would have alone. -/
def Isolated (c : MessageChannel S) (as : List (ChannelAction S)) : Prop :=
  ∀ addr, resultsFor addr (c.outputs as) = resultsFor addr (c.outputs (as.filter (·.concerns addr)))

/-- A handshake that gets a datagram waits for its sender. -/
def awaited (c : MessageChannel S) : ChannelAction S → Bool
  | .receive reader (.ok (src, _)) _ _ => (c.waiting.lookup reader).all fun w => w.addr = src
  | _ => true

/-! ### Every action has one peer -/

section

variable {c : MessageChannel S} {addr src : SocketAddr} {rng : S.Rng} {socket : Except String Unit} {o : Output}

theorem addr_of_mem_initateHandshake {k : ℕ} (h : o ∈ (c.initateHandshake src k rng socket).1) : o.addr = src := by
  unfold initateHandshake at h
  split at h
  · cases h
  · split at h
    · rw [List.mem_singleton.mp h]
      rfl
    · rw [List.mem_singleton.mp h]
      rfl

theorem addr_of_mem_finishHandshake {reader : Reader} {w : Waiting S} {result : Except Error (HandshakeResult S)}
    (h : o ∈ (c.finishHandshake reader w result).1) : o.addr = w.addr := by
  unfold finishHandshake at h
  split at h
  · rw [List.mem_singleton.mp h]
    rfl
  · rcases List.mem_append.mp h with hlast | hdone
    · cases w with
      | msgB addr initiator =>
          rw [List.mem_singleton.mp hlast]
          rfl
      | msgC addr responder => cases hlast
    · rw [List.mem_singleton.mp hdone]
      rfl

theorem addr_of_mem_handleInboundDatagram {data : Bytes} (h : o ∈ (c.handleInboundDatagram data src rng socket).1) :
    o.addr = src := by
  unfold handleInboundDatagram at h
  split at h
  · split at h
    · cases h
    · split at h
      · cases h
      · dsimp only at h
        split at h
        · cases h
        · rw [List.mem_singleton.mp h]
          rfl
  · split at h
    · rw [List.mem_singleton.mp h]
      rfl
    · rw [List.mem_singleton.mp h]
      rfl

theorem addr_of_mem_sentTo {result : Except Error Bytes} (h : o ∈ sentTo src result) : o.addr = src := by
  cases result with
  | error e => cases h
  | ok datagram =>
      rw [List.mem_singleton.mp h]
      rfl

end

/-! ### Two channels that agree on a peer -/

/-- `c'` has of `c` what belongs to the peer. -/
structure Agrees (addr : SocketAddr) (c c' : MessageChannel S) : Prop where
  networkSecret : c'.networkSecret = c.networkSecret
  deviceKeys : c'.deviceKeys = c.deviceKeys
  now : c'.now = c.now
  transports : c'.transports.lookup addr = c.transports.lookup addr
  waiting : ∀ reader, c'.waiting.lookup reader = (c.waiting.lookup reader).filter fun w => w.addr = addr

/-- A call waits for the peer that it was made for. -/
def CallsMatch (c : MessageChannel S) : Prop :=
  ∀ addr k w, c.waiting.lookup (.call addr k) = some w → w.addr = addr

namespace Agrees

variable {c c' : MessageChannel S} {addr src : SocketAddr} {rng : S.Rng} {socket : Except String Unit}

theorem withTransports (h : Agrees addr c c') {t t' : Map SocketAddr (PeerTransport S)}
    (ht : t'.lookup addr = t.lookup addr) : Agrees addr { c with transports := t } { c' with transports := t' } :=
  ⟨h.networkSecret, h.deviceKeys, h.now, ht, h.waiting⟩

theorem withTransports_left (h : Agrees addr c c') {t : Map SocketAddr (PeerTransport S)}
    (ht : t.lookup addr = c.transports.lookup addr) : Agrees addr { c with transports := t } c' :=
  ⟨h.networkSecret, h.deviceKeys, h.now, h.transports.trans ht.symm, h.waiting⟩

theorem withWaiting (h : Agrees addr c c') {v v' : Map Reader (Waiting S)}
    (hv : ∀ reader, v'.lookup reader = (v.lookup reader).filter fun w => w.addr = addr) :
    Agrees addr { c with waiting := v } { c' with waiting := v' } :=
  ⟨h.networkSecret, h.deviceKeys, h.now, h.transports, hv⟩

theorem lookup_of_addr (h : Agrees addr c c') {reader : Reader} {w : Waiting S}
    (hw : c.waiting.lookup reader = some w) (haddr : w.addr = addr) : c'.waiting.lookup reader = some w := by
  rw [h.waiting, hw]
  simp [haddr]

theorem lookup_of_addr_ne (h : Agrees addr c c') {reader : Reader}
    (hw : ∀ w, c.waiting.lookup reader = some w → w.addr ≠ addr) : c'.waiting.lookup reader = none := by
  rw [h.waiting]
  cases hlookup : c.waiting.lookup reader with
  | none => rfl
  | some w => simp [hw w hlookup]

/-- A handshake starts to wait, or is over. -/
theorem insert_own (h : Agrees addr c c') (reader : Reader) {w : Waiting S} (haddr : w.addr = addr) :
    Agrees addr { c with waiting := c.waiting.insert reader w } { c' with waiting := c'.waiting.insert reader w } := by
  refine h.withWaiting fun r => ?_
  rw [Map.lookup_insert, Map.lookup_insert]
  by_cases hr : r = reader
  · subst hr
    simp [Option.filter, haddr]
  · simpa only [if_neg hr] using h.waiting r

theorem insert_other (h : Agrees addr c c') {reader : Reader} {w : Waiting S} (haddr : w.addr ≠ addr)
    (hnone : c'.waiting.lookup reader = none) :
    Agrees addr { c with waiting := c.waiting.insert reader w } c' := by
  refine h.withWaiting fun r => ?_
  rw [Map.lookup_insert]
  by_cases hr : r = reader
  · subst hr
    simp [Option.filter, hnone, haddr]
  · simpa only [if_neg hr] using h.waiting r

theorem erase_own (h : Agrees addr c c') (reader : Reader) :
    Agrees addr { c with waiting := c.waiting.erase reader } { c' with waiting := c'.waiting.erase reader } := by
  refine h.withWaiting fun r => ?_
  rw [Map.lookup_erase, Map.lookup_erase]
  by_cases hr : r = reader
  · simp [hr]
  · simpa only [if_neg hr] using h.waiting r

theorem erase_other (h : Agrees addr c c') {reader : Reader} (hnone : c'.waiting.lookup reader = none) :
    Agrees addr { c with waiting := c.waiting.erase reader } c' := by
  refine h.withWaiting fun r => ?_
  rw [Map.lookup_erase]
  by_cases hr : r = reader
  · subst hr
    simp [hnone]
  · simpa only [if_neg hr] using h.waiting r

theorem sendMsgA (h : Agrees addr c c') : c'.sendMsgA rng socket = c.sendMsgA rng socket := by
  simp only [MessageChannel.sendMsgA, h.networkSecret, h.deviceKeys]

theorem sendMsgB (h : Agrees addr c c') (data : Bytes) : c'.sendMsgB data rng socket = c.sendMsgB data rng socket := by
  simp only [MessageChannel.sendMsgB, h.networkSecret, h.deviceKeys]

/-! One action, for the peer or for another one. -/

theorem initateHandshake_own (h : Agrees addr c c') (hcalls : c.CallsMatch) (k : ℕ) :
    (c'.initateHandshake addr k rng socket).1 = (c.initateHandshake addr k rng socket).1 ∧
      Agrees addr (c.initateHandshake addr k rng socket).2 (c'.initateHandshake addr k rng socket).2 := by
  have hmem : .call addr k ∈ c'.waiting ↔ .call addr k ∈ c.waiting := by
    rw [Map.mem_iff_lookup, Map.mem_iff_lookup]
    constructor
    · rintro ⟨w, hw⟩
      rw [h.waiting] at hw
      exact ⟨w, (Option.filter_eq_some_iff.mp hw).1⟩
    · rintro ⟨w, hw⟩
      exact ⟨w, h.lookup_of_addr hw (hcalls addr k w hw)⟩
  unfold initateHandshake
  by_cases hcall : .call addr k ∈ c.waiting
  · rw [if_pos hcall, if_pos (hmem.mpr hcall)]
    exact ⟨rfl, h⟩
  · rw [if_neg hcall, if_neg (mt hmem.mp hcall), h.sendMsgA]
    split
    · exact ⟨rfl, h⟩
    · exact ⟨rfl, h.insert_own _ rfl⟩

theorem initateHandshake_other (h : Agrees addr c c') (hcalls : c.CallsMatch) (hne : src ≠ addr) (k : ℕ) :
    Agrees addr (c.initateHandshake src k rng socket).2 c' := by
  have hnone : c'.waiting.lookup (.call src k) = none :=
    h.lookup_of_addr_ne fun w hw heq => hne ((hcalls src k w hw).symm.trans heq)
  unfold initateHandshake
  split
  · exact h
  · split
    · exact h
    · exact h.insert_other hne hnone

theorem finishHandshake_own (h : Agrees addr c c') (reader : Reader) {w : Waiting S} (haddr : w.addr = addr)
    (result : Except Error (HandshakeResult S)) :
    (c'.finishHandshake reader w result).1 = (c.finishHandshake reader w result).1 ∧
      Agrees addr (c.finishHandshake reader w result).2 (c'.finishHandshake reader w result).2 := by
  unfold finishHandshake
  cases result with
  | error e => exact ⟨rfl, h.erase_own reader⟩
  | ok result =>
      refine ⟨rfl, (h.erase_own reader).withTransports ?_⟩
      rw [Map.lookup_insert, Map.lookup_insert, if_pos haddr.symm, if_pos haddr.symm, h.now]

theorem finishHandshake_other (h : Agrees addr c c') {reader : Reader} {w : Waiting S}
    (hw : c.waiting.lookup reader = some w) (hne : w.addr ≠ addr) (result : Except Error (HandshakeResult S)) :
    Agrees addr (c.finishHandshake reader w result).2 c' := by
  have hnone : c'.waiting.lookup reader = none :=
    h.lookup_of_addr_ne fun w' hw' => Option.some.inj (hw.symm.trans hw') ▸ hne
  unfold finishHandshake
  cases result with
  | error e => exact h.erase_other hnone
  | ok result =>
      refine (h.erase_other hnone).withTransports_left ?_
      rw [Map.lookup_insert, if_neg (Ne.symm hne)]

theorem replace_own (h : Agrees addr c c') (pt : PeerTransport S) :
    Agrees addr { c with transports := c.transports.replace addr pt }
      { c' with transports := c'.transports.replace addr pt } := by
  refine h.withTransports ?_
  rw [Map.lookup_replace, Map.lookup_replace, if_pos rfl, if_pos rfl, h.transports]

theorem replace_other (h : Agrees addr c c') (hne : src ≠ addr) (pt : PeerTransport S) :
    Agrees addr { c with transports := c.transports.replace src pt } c' := by
  refine h.withTransports_left ?_
  rw [Map.lookup_replace, if_neg (Ne.symm hne)]

theorem handleInboundDatagram_own (h : Agrees addr c c') (data : Bytes) :
    (c'.handleInboundDatagram data addr rng socket).1 = (c.handleInboundDatagram data addr rng socket).1 ∧
      Agrees addr (c.handleInboundDatagram data addr rng socket).2 (c'.handleInboundDatagram data addr rng socket).2 := by
  unfold handleInboundDatagram
  rw [h.transports, h.sendMsgB]
  cases c.transports.lookup addr with
  | none =>
      dsimp only
      split
      · exact ⟨rfl, h⟩
      · exact ⟨rfl, h.insert_own _ rfl⟩
  | some pt =>
      have hactivity : pt.session.recordActivity c'.now = pt.session.recordActivity c.now := congrArg _ h.now
      dsimp only
      rw [hactivity]
      split
      · exact ⟨rfl, h⟩
      · split
        · exact ⟨rfl, h.replace_own _⟩
        · split
          · exact ⟨rfl, h.replace_own _⟩
          · exact ⟨rfl, h.replace_own _⟩

theorem handleInboundDatagram_other (h : Agrees addr c c') (hw : c.waiting.lookup .run = none) (hne : src ≠ addr)
    (data : Bytes) : Agrees addr (c.handleInboundDatagram data src rng socket).2 c' := by
  have hnone : c'.waiting.lookup .run = none := by rw [h.waiting, hw]; rfl
  unfold handleInboundDatagram
  split
  · split
    · exact h
    · split
      · exact h.replace_other hne _
      · dsimp only
        split
        · exact h.replace_other hne _
        · exact h.replace_other hne _
  · split
    · exact h
    · exact h.insert_other hne hnone

theorem sendMessage_own (h : Agrees addr c c') (msg : OutboundMessage) (socket : Except String Unit)
    (haddr : msg.toAddr = addr) :
    (c'.sendMessage msg socket).1 = (c.sendMessage msg socket).1 ∧
      Agrees addr (c.sendMessage msg socket).2 (c'.sendMessage msg socket).2 := by
  subst haddr
  unfold sendMessage
  rw [h.transports]
  cases c.transports.lookup msg.toAddr with
  | none => exact ⟨rfl, h⟩
  | some pt =>
      have hactivity : pt.session.recordActivity c'.now = pt.session.recordActivity c.now := congrArg _ h.now
      dsimp only
      rw [hactivity]
      split
      · exact ⟨rfl, h.replace_own _⟩
      · split
        · exact ⟨rfl, h.replace_own _⟩
        · exact ⟨rfl, h.replace_own _⟩

theorem sendMessage_other (h : Agrees addr c c') (msg : OutboundMessage) (hne : msg.toAddr ≠ addr) :
    Agrees addr (c.sendMessage msg socket).2 c' := by
  unfold sendMessage
  split
  · exact h
  · split
    · exact h.replace_other hne _
    · split
      · exact h.replace_other hne _
      · exact h.replace_other hne _

theorem pruneExpired (h : Agrees addr c c') : Agrees addr c.pruneExpired.2 c'.pruneExpired.2 := by
  have hmem : addr ∈ c'.pruneExpired.1 ↔ addr ∈ c.pruneExpired.1 := by
    rw [mem_pruneExpired, mem_pruneExpired, h.transports, h.now]
  refine h.withTransports ?_
  exact (lookup_pruneExpired (c := c')).trans
    ((ite_congr (propext hmem) (fun _ => rfl) fun _ => h.transports).trans lookup_pruneExpired.symm)

/-! A datagram or an error, by what the reader waits for. -/

variable {reader : Reader} {received : Except String (SocketAddr × Bytes)}

theorem step_waiting_own (h : Agrees addr c c') {w : Waiting S} (hw : c.waiting.lookup reader = some w)
    (haddr : w.addr = addr) :
    (c'.step (.receive reader received rng socket)).1 = (c.step (.receive reader received rng socket)).1 ∧
      Agrees addr (c.next (.receive reader received rng socket)) (c'.next (.receive reader received rng socket)) := by
  rw [next, next, step_waiting hw, step_waiting (h.lookup_of_addr hw haddr)]
  exact h.finishHandshake_own reader haddr _

theorem step_waiting_other (h : Agrees addr c c') {w : Waiting S} (hw : c.waiting.lookup reader = some w)
    (hne : w.addr ≠ addr) : outputsFor addr (c.step (.receive reader received rng socket)).1 = [] ∧
      Agrees addr (c.next (.receive reader received rng socket)) c' := by
  rw [next, step_waiting hw]
  exact ⟨outputsFor_eq_nil (fun o => addr_of_mem_finishHandshake) hne, h.finishHandshake_other hw hne _⟩

theorem lookup_eq_none (h : Agrees addr c c') (hw : c.waiting.lookup reader = none) :
    c'.waiting.lookup reader = none := by
  rw [h.waiting, hw]
  rfl

theorem receive_own (h : Agrees addr c c')
    (hawaited : c.awaited (.receive reader received rng socket) = true)
    (hconcerns : (ChannelAction.receive reader received rng socket).concerns addr = true) :
    outputsFor addr (c'.step (.receive reader received rng socket)).1 =
        outputsFor addr (c.step (.receive reader received rng socket)).1 ∧
      Agrees addr (c.next (.receive reader received rng socket)) (c'.next (.receive reader received rng socket)) := by
  cases hw : c.waiting.lookup reader with
  | none =>
      have hw' := h.lookup_eq_none hw
      by_cases hrun : ∃ src data, reader = .run ∧ received = .ok (src, data)
      · obtain ⟨src, data, rfl, rfl⟩ := hrun
        obtain rfl : src = addr := of_decide_eq_true hconcerns
        rw [next, next, step_datagram hw, step_datagram hw']
        exact (h.handleInboundDatagram_own _).imp_left (congrArg _)
      · rw [next, next, step_ignored hw fun src data heq => hrun ⟨src, data, heq⟩,
          step_ignored hw' fun src data heq => hrun ⟨src, data, heq⟩]
        exact ⟨rfl, h⟩
  | some w =>
      by_cases haddr : w.addr = addr
      · exact (h.step_waiting_own hw haddr).imp_left (congrArg _)
      · -- only an error of the loop reaches a handshake with another peer
        have hw' : c'.waiting.lookup reader = none :=
          h.lookup_of_addr_ne fun w' hw' => Option.some.inj (hw.symm.trans hw') ▸ haddr
        have herror : ∀ src data, ¬ (reader = .run ∧ received = .ok (src, data)) := by
          rintro src data ⟨rfl, rfl⟩
          have hsrc : w.addr = src := by simpa [awaited, hw] using hawaited
          exact haddr (hsrc.trans (of_decide_eq_true hconcerns))
        have hother : outputsFor addr (c.step (.receive reader received rng socket)).1 = [] ∧
            Agrees addr (c.next (.receive reader received rng socket)) c' := h.step_waiting_other hw haddr
        obtain ⟨hnil, hagrees⟩ := hother
        have hstep' : c'.step (.receive reader received rng socket) = ([], c') := step_ignored hw' herror
        have hnext' : c'.next (.receive reader received rng socket) = c' := congrArg Prod.snd hstep'
        rw [hstep', hnext', hnil]
        exact ⟨rfl, hagrees⟩

theorem receive_other (h : Agrees addr c c') (hcalls : c.CallsMatch)
    (hawaited : c.awaited (.receive reader received rng socket) = true)
    (hconcerns : (ChannelAction.receive reader received rng socket).concerns addr = false) :
    outputsFor addr (c.step (.receive reader received rng socket)).1 = [] ∧
      Agrees addr (c.next (.receive reader received rng socket)) c' := by
  cases hw : c.waiting.lookup reader with
  | none =>
      by_cases hrun : ∃ src data, reader = .run ∧ received = .ok (src, data)
      · obtain ⟨src, data, rfl, rfl⟩ := hrun
        have hne : src ≠ addr := of_decide_eq_false hconcerns
        rw [next, step_datagram hw]
        exact ⟨outputsFor_eq_nil (fun o => addr_of_mem_handleInboundDatagram) hne,
          h.handleInboundDatagram_other hw hne _⟩
      · rw [next, step_ignored hw fun src data heq => hrun ⟨src, data, heq⟩]
        exact ⟨rfl, h⟩
  | some w =>
      refine h.step_waiting_other hw ?_
      cases received with
      | error e =>
          cases reader with
          | run => cases hconcerns
          | call a k =>
              have hne : a ≠ addr := of_decide_eq_false hconcerns
              exact hcalls a k w hw ▸ hne
      | ok r =>
          have hsrc : w.addr = r.1 := by simpa [awaited, hw] using hawaited
          have hne : r.1 ≠ addr := of_decide_eq_false hconcerns
          exact hsrc ▸ hne

/-- An action for the peer does the same on both channels. -/
theorem step_own (h : Agrees addr c c') (hcalls : c.CallsMatch) (a : ChannelAction S) (hawaited : c.awaited a = true)
    (hconcerns : a.concerns addr = true) :
    outputsFor addr (c'.step a).1 = outputsFor addr (c.step a).1 ∧ Agrees addr (c.next a) (c'.next a) := by
  cases a with
  | initateHandshake src k rng socket =>
      obtain rfl : src = addr := of_decide_eq_true hconcerns
      exact (h.initateHandshake_own hcalls k).imp_left (congrArg _)
  | receive reader received rng socket => exact h.receive_own hawaited hconcerns
  | sendMessage msg socket =>
      obtain ⟨hresult, hagrees⟩ := h.sendMessage_own msg socket (of_decide_eq_true hconcerns)
      exact ⟨congrArg (fun result => outputsFor addr (sentTo msg.toAddr result)) hresult, hagrees⟩
  | sendHeartbeat dst socket =>
      obtain ⟨hresult, hagrees⟩ := h.sendMessage_own ⟨.heartbeat, dst⟩ socket (of_decide_eq_true hconcerns)
      exact ⟨congrArg (fun result => outputsFor addr (sentTo dst result)) hresult, hagrees⟩
  | pruneExpired => exact ⟨rfl, h.pruneExpired⟩
  | advance duration => exact ⟨rfl, h.networkSecret, h.deviceKeys, congrArg (· + duration) h.now, h.transports, h.waiting⟩

/-- An action for another peer does nothing for this one. -/
theorem step_other (h : Agrees addr c c') (hcalls : c.CallsMatch) (a : ChannelAction S) (hawaited : c.awaited a = true)
    (hconcerns : a.concerns addr = false) : outputsFor addr (c.step a).1 = [] ∧ Agrees addr (c.next a) c' := by
  cases a with
  | initateHandshake src k rng socket =>
      have hne : src ≠ addr := of_decide_eq_false hconcerns
      exact ⟨outputsFor_eq_nil (fun o => addr_of_mem_initateHandshake) hne, h.initateHandshake_other hcalls hne k⟩
  | receive reader received rng socket => exact h.receive_other hcalls hawaited hconcerns
  | sendMessage msg socket =>
      have hne : msg.toAddr ≠ addr := of_decide_eq_false hconcerns
      exact ⟨outputsFor_eq_nil (fun o => addr_of_mem_sentTo) hne, h.sendMessage_other msg hne⟩
  | sendHeartbeat dst socket =>
      have hne : dst ≠ addr := of_decide_eq_false hconcerns
      exact ⟨outputsFor_eq_nil (fun o => addr_of_mem_sentTo) hne, h.sendMessage_other ⟨.heartbeat, dst⟩ hne⟩
  | pruneExpired => cases hconcerns
  | advance duration => cases hconcerns

end Agrees

/-! ### Calls wait for their own peers -/

theorem CallsMatch.insert {c : MessageChannel S} (h : c.CallsMatch) {reader : Reader} {w : Waiting S}
    (hw : ∀ addr k, reader = .call addr k → w.addr = addr) :
    CallsMatch { c with waiting := c.waiting.insert reader w } := by
  intro addr k w' hw'
  rw [Map.lookup_insert] at hw'
  split at hw'
  · next heq => exact Option.some.inj hw' ▸ hw addr k heq.symm
  · exact h addr k w' hw'

theorem CallsMatch.finishHandshake {c : MessageChannel S} (h : c.CallsMatch) (reader : Reader) (w : Waiting S)
    (result : Except Error (HandshakeResult S)) : (c.finishHandshake reader w result).2.CallsMatch := by
  have herase : CallsMatch { c with waiting := c.waiting.erase reader } := by
    intro addr k w' hw'
    rw [Map.lookup_erase] at hw'
    split at hw'
    · cases hw'
    · exact h addr k w' hw'
  unfold MessageChannel.finishHandshake
  cases result with
  | error e => exact herase
  | ok result => exact herase

theorem CallsMatch.handleInboundDatagram {c : MessageChannel S} (h : c.CallsMatch) (data : Bytes) (src : SocketAddr)
    (rng : S.Rng) (socket : Except String Unit) : (c.handleInboundDatagram data src rng socket).2.CallsMatch := by
  unfold MessageChannel.handleInboundDatagram
  split
  · split
    · exact h
    · split
      · exact h
      · dsimp only
        split
        · exact h
        · exact h
  · split
    · exact h
    · exact h.insert fun addr k heq => by cases heq

theorem CallsMatch.sendMessage {c : MessageChannel S} (h : c.CallsMatch) (msg : OutboundMessage)
    (socket : Except String Unit) : (c.sendMessage msg socket).2.CallsMatch := by
  unfold MessageChannel.sendMessage
  split
  · exact h
  · split
    · exact h
    · split
      · exact h
      · exact h

theorem CallsMatch.next {c : MessageChannel S} (h : c.CallsMatch) (a : ChannelAction S) : (c.next a).CallsMatch := by
  cases a with
  | initateHandshake addr k rng socket =>
      rw [MessageChannel.next, step]
      unfold MessageChannel.initateHandshake
      split
      · exact h
      · split
        · exact h
        · exact h.insert fun addr' k' heq => by cases heq; rfl
  | receive reader received rng socket =>
      rw [MessageChannel.next, step]
      unfold MessageChannel.receive
      split
      · exact h.finishHandshake reader _ _
      · split
        · exact h.handleInboundDatagram _ _ rng socket
        · exact h
  | sendMessage msg socket => exact h.sendMessage msg socket
  | sendHeartbeat addr socket => exact h.sendMessage ⟨.heartbeat, addr⟩ socket
  | pruneExpired => exact h
  | advance duration => exact h

/-- **In an awaited run** every peer has exactly what it would have alone. -/
theorem Agrees.run {addr : SocketAddr} {c c' : MessageChannel S} (h : Agrees addr c c') (hcalls : c.CallsMatch)
    {as : List (ChannelAction S)} (hok : Along next (fun c a => c.awaited a = true) c as) :
    outputsFor addr (c.outputs as) = outputsFor addr (c'.outputs (as.filter (·.concerns addr))) := by
  induction as generalizing c c' with
  | nil => rfl
  | cons a as ih =>
      cases hconcerns : a.concerns addr with
      | true =>
          obtain ⟨hsame, hnext⟩ := h.step_own hcalls a hok.1 hconcerns
          rw [List.filter_cons_of_pos hconcerns, outputs, outputs, outputsFor_append, outputsFor_append, hsame,
            ih hnext (hcalls.next a) hok.2]
      | false =>
          obtain ⟨hnil, hnext⟩ := h.step_other hcalls a hok.1 hconcerns
          rw [List.filter_cons_of_neg (by simp [hconcerns]), outputs, outputsFor_append, hnil, List.nil_append,
            ih hnext (hcalls.next a) hok.2]

end MessageChannel

/-! ### Handshakes that get the datagram of another peer -/

/-- The error of a handshake that got the datagram of another peer. -/
inductive Unexpected : Error → Prop
  | msgB : Unexpected (.noiseTransport "msg B from unexpected address")
  | msgC : Unexpected (.noiseTransport "msg C from unexpected address")

theorem Unexpected.head {msg : String} (h : Unexpected (.noiseTransport msg)) : msg.toList.head? = some 'm' := by
  cases h with
  | msgB => decide
  | msgC => decide

/-- It does not fail because of another peer. -/
def Expected {α : Type} (x : Except Error α) : Prop := ∀ e, x = .error e → ¬ Unexpected e

namespace Expected

variable {α β : Type}

theorem ok (a : α) : Expected (.ok a) := fun _ h => by cases h

theorem bind {x : Except Error α} {f : α → Except Error β} (hx : Expected x)
    (hf : ∀ a, x = .ok a → Expected (f a)) : Expected (x >>= f) := by
  cases x with
  | error e =>
      intro e' he'
      cases he'
      exact hx e rfl
  | ok a => exact hf a rfl

theorem map {x : Except Error α} (hx : Expected x) (f : α → β) : Expected (x.map f) := by
  cases x with
  | error e =>
      intro e' he'
      cases he'
      exact hx e rfl
  | ok a => exact ok (f a)

/-- Errors of the handshake itself have another constructor. -/
theorem mapError {ε : Type} (x : Except ε α) {f : ε → Error} (hf : ∀ e, ∃ msg, f e = .noiseHandshake msg) :
    Expected (x.mapError f) := by
  intro e he hunexpected
  cases x with
  | error e' =>
      obtain ⟨msg, hmsg⟩ := hf e'
      cases he
      rw [hmsg] at hunexpected
      cases hunexpected
  | ok a => cases he

theorem buildError {role : String} (x : Except (BuildStep × String) α) : Expected (x.mapError (SeedNet.buildError role)) :=
  mapError x fun e => by
    obtain ⟨step, e⟩ := e
    cases step <;> exact ⟨_, rfl⟩

/-- Errors of the socket begin with what was done. -/
theorem noiseTransport (x : Except String α) {what : String} {c : Char} {cs : List Char} (hwhat : what.toList = c :: cs)
    (hc : c ≠ 'm') : Expected (x.mapError fun e => Error.noiseTransport s!"{what}: {e}") := by
  intro e he hunexpected
  cases x with
  | error e' =>
      cases he
      have hhead := hunexpected.head
      simp [toString, hwhat] at hhead
      exact hc hhead
  | ok a => cases he

theorem writeStep (what : String) (state : S.HandshakeState) (payload : Bytes) :
    Expected (SeedNet.writeStep what state payload) := mapError _ fun _ => ⟨_, rfl⟩

theorem readStep (what : String) (state : S.HandshakeState) (msg : Bytes) :
    Expected (SeedNet.readStep what state msg) := mapError _ fun _ => ⟨_, rfl⟩

theorem intoTransport (state : S.HandshakeState) : Expected (SeedNet.intoTransport state) := by
  intro e he hunexpected
  unfold SeedNet.intoTransport at he
  split at he
  · cases he
    cases hunexpected
  · split at he
    · cases he
      cases hunexpected
    · cases he

variable (c : MessageChannel S) (rng : S.Rng) (socket : Except String Unit)

theorem sendMsgA : Expected (c.sendMsgA rng socket) := by
  refine bind ((buildError _).map _) fun initiator _ => bind ((writeStep _ _ _).map _) fun msgA _ => ?_
  exact bind (noiseTransport socket rfl (by decide)) fun _ _ => ok _

theorem sendMsgB (data : Bytes) : Expected (c.sendMsgB data rng socket) := by
  refine bind ((buildError _).map _) fun responder _ => bind ((readStep _ _ _).map _) fun read _ => ?_
  refine bind ((writeStep _ _ _).map _) fun msgB _ => ?_
  exact bind (noiseTransport socket rfl (by decide)) fun _ _ => ok _

theorem finish_initiator (initiator : InitiatorHandshake S) (payload : Bytes) : Expected (initiator.finish payload) :=
  bind (writeStep _ _ _) fun _ _ => bind (intoTransport _) fun _ _ => ok _

theorem finish_responder (responder : ResponderHandshake S) (msg : Bytes) : Expected (responder.finish msg) :=
  bind (readStep _ _ _) fun _ _ => bind (intoTransport _) fun _ _ => ok _

/-- A handshake that gets a datagram of its peer, or an error. -/
theorem resume {w : Waiting S} {received : Except String (SocketAddr × Bytes)}
    (h : ∀ src data, received = .ok (src, data) → w.addr = src) : Expected (w.resume received socket) := by
  cases w with
  | msgB addr initiator =>
      refine bind (noiseTransport received rfl (by decide)) fun r hr => ?_
      obtain ⟨src, data⟩ := r
      obtain rfl : addr = src := h src data (mapError_eq_ok hr)
      dsimp only
      rw [if_neg (not_not.mpr rfl)]
      refine bind ((readStep _ _ _).map _) fun read _ => bind (finish_initiator _ _) fun result _ => ?_
      exact bind (noiseTransport socket rfl (by decide)) fun _ _ => ok _
  | msgC addr responder =>
      refine bind (noiseTransport received rfl (by decide)) fun r hr => ?_
      obtain ⟨src, data⟩ := r
      obtain rfl : addr = src := h src data (mapError_eq_ok hr)
      dsimp only
      rw [if_neg (not_not.mpr rfl)]
      exact finish_responder responder data

end Expected

theorem Waiting.resume_unexpected {w : Waiting S} {src : SocketAddr} (h : w.addr ≠ src) (data : Bytes)
    (socket : Except String Unit) : ∃ e, Unexpected e ∧ w.resume (.ok (src, data)) socket = .error e := by
  cases w with
  | msgB addr initiator => exact ⟨_, .msgB, if_pos (Ne.symm h)⟩
  | msgC addr responder => exact ⟨_, .msgC, if_pos (Ne.symm h)⟩

namespace MessageChannel

theorem mem_finishHandshake_error {c : MessageChannel S} {reader : Reader} {w : Waiting S}
    {result : Except Error (HandshakeResult S)} {addr : SocketAddr} {e : Error} :
    .handshake addr (.error e) ∈ (c.finishHandshake reader w result).1 ↔ addr = w.addr ∧ result = .error e := by
  unfold finishHandshake
  cases result with
  | error e' => simp [eq_comm]
  | ok result => cases w <;> simp [Waiting.lastMessage]

theorem expected_initateHandshake {c : MessageChannel S} {src : SocketAddr} {k : ℕ} {rng : S.Rng}
    {socket : Except String Unit} {addr : SocketAddr} {e : Error}
    (h : .handshake addr (.error e) ∈ (c.initateHandshake src k rng socket).1) : ¬ Unexpected e := by
  unfold initateHandshake at h
  split at h
  · cases h
  · split at h
    · next herror =>
        cases List.mem_singleton.mp h
        exact Expected.sendMsgA c rng socket e herror
    · cases List.mem_singleton.mp h

theorem expected_handleInboundDatagram {c : MessageChannel S} {data : Bytes} {src : SocketAddr} {rng : S.Rng}
    {socket : Except String Unit} {addr : SocketAddr} {e : Error}
    (h : .handshake addr (.error e) ∈ (c.handleInboundDatagram data src rng socket).1) : ¬ Unexpected e := by
  unfold handleInboundDatagram at h
  split at h
  · split at h
    · cases h
    · split at h
      · cases h
      · dsimp only at h
        split at h
        · cases h
        · cases List.mem_singleton.mp h
  · split at h
    · next herror =>
        cases List.mem_singleton.mp h
        exact Expected.sendMsgB c rng socket data e herror
    · cases List.mem_singleton.mp h

theorem not_mem_sentTo {addr dst : SocketAddr} {e : Error} {result : Except Error Bytes} :
    .handshake addr (.error e) ∉ sentTo dst result := by
  cases result <;> simp [sentTo]

/-- An action shows whether its datagram was awaited. -/
theorem awaited_iff (c : MessageChannel S) (a : ChannelAction S) :
    c.awaited a = true ↔ ∀ addr e, .handshake addr (.error e) ∈ (c.step a).1 → ¬ Unexpected e := by
  cases a with
  | initateHandshake src k rng socket => exact iff_of_true rfl fun addr e hmem => expected_initateHandshake hmem
  | receive reader received rng socket =>
      cases hw : c.waiting.lookup reader with
      | some w =>
          have hstep : (∀ addr e, .handshake addr (.error e) ∈ (c.step (.receive reader received rng socket)).1 →
              ¬ Unexpected e) ↔ Expected (w.resume (intoBuffer received) socket) := by
            simp only [step_waiting hw, mem_finishHandshake_error, and_imp]
            exact ⟨fun h e he => h w.addr e rfl he, fun h addr e _ he => h e he⟩
          rw [hstep]
          cases received with
          | error err => exact iff_of_true rfl (Expected.resume socket fun src data heq => by cases heq)
          | ok r =>
              have hawaited : c.awaited (.receive reader (.ok r) rng socket) = true ↔ w.addr = r.1 := by
                simp [awaited, hw]
              rw [hawaited]
              constructor
              · intro haddr
                refine Expected.resume socket fun src data heq => ?_
                cases heq
                exact haddr
              · intro hexpected
                by_contra hne
                obtain ⟨e, he, hresume⟩ := Waiting.resume_unexpected hne (r.2.take maxDatagram) socket
                exact hexpected e hresume he
      | none =>
          have hawaited : c.awaited (.receive reader received rng socket) = true := by
            cases received with
            | error err => rfl
            | ok r => simp [awaited, hw]
          refine iff_of_true hawaited fun addr e hmem => ?_
          by_cases hrun : ∃ src data, reader = .run ∧ received = .ok (src, data)
          · obtain ⟨src, data, rfl, rfl⟩ := hrun
            rw [step_datagram hw] at hmem
            exact expected_handleInboundDatagram hmem
          · rw [step_ignored hw fun src data heq => hrun ⟨src, data, heq⟩] at hmem
            cases hmem
  | sendMessage msg socket => exact iff_of_true rfl fun addr e hmem => absurd hmem not_mem_sentTo
  | sendHeartbeat dst socket => exact iff_of_true rfl fun addr e hmem => absurd hmem not_mem_sentTo
  | pruneExpired => exact iff_of_true rfl fun addr e hmem => by cases hmem
  | advance duration => exact iff_of_true rfl fun addr e hmem => by cases hmem

theorem along_awaited_iff (c : MessageChannel S) (as : List (ChannelAction S)) :
    Along next (fun c a => c.awaited a = true) c as ↔
      ∀ addr e, .handshake addr (.error e) ∈ c.outputs as → ¬ Unexpected e := by
  induction as generalizing c with
  | nil => exact iff_of_true trivial fun addr e hmem => by cases hmem
  | cons a as ih =>
      rw [Along, outputs, awaited_iff, ih]
      simp only [List.mem_append, or_imp, forall_and]

/-- Alone, every handshake gets datagrams of its own peer. -/
theorem Agrees.along_awaited {c : MessageChannel S} {addr : SocketAddr} (h : Agrees addr c c) (hcalls : c.CallsMatch)
    {as : List (ChannelAction S)} (has : ∀ a ∈ as, a.concerns addr = true) :
    Along next (fun c a => c.awaited a = true) c as := by
  induction as generalizing c with
  | nil => trivial
  | cons a as ih =>
      have hawaited : c.awaited a = true := by
        cases a with
        | receive reader received rng socket =>
            cases received with
            | error e => rfl
            | ok r =>
                have hsrc : r.1 = addr := of_decide_eq_true (has _ List.mem_cons_self)
                have hfilter := h.waiting reader
                cases hw : c.waiting.lookup reader with
                | none => simp [awaited, hw]
                | some w =>
                    rw [hw] at hfilter
                    have hmem := (Option.filter_eq_some_iff.mp hfilter.symm).2
                    simp only [awaited, hw, Option.all_some, hsrc]
                    exact hmem
        | _ => rfl
      have hnext := (h.step_own hcalls a hawaited (has a List.mem_cons_self)).2
      exact ⟨hawaited, ih hnext (hcalls.next a) fun b hb => has b (List.mem_cons_of_mem a hb)⟩

theorem New.agrees {c : MessageChannel S} (hc : c.New) (addr : SocketAddr) : Agrees addr c c :=
  ⟨rfl, rfl, rfl, rfl, fun reader => by rw [hc.waiting]; rfl⟩

theorem New.callsMatch {c : MessageChannel S} (hc : c.New) : c.CallsMatch := fun addr k w hw => by
  rw [hc.waiting] at hw
  cases hw

end MessageChannel

/-- **Peers of a channel do not disturb each other** exactly in the runs in which every waiting handshake gets
datagrams of its own peer. -/
theorem channel_isolated_iff (c : MessageChannel S) (hc : c.New) (as : List (ChannelAction S)) :
    c.Isolated as ↔ Along MessageChannel.next (fun c a => c.awaited a = true) c as := by
  constructor
  · intro hisolated
    rw [MessageChannel.along_awaited_iff]
    intro addr e hmem hunexpected
    have hresult : .handshake addr (.error e) ∈ resultsFor addr (c.outputs as) := mem_resultsFor.mpr ⟨hmem, rfl, rfl⟩
    rw [hisolated addr] at hresult
    have halone : Along MessageChannel.next (fun c a => c.awaited a = true) c (as.filter (·.concerns addr)) :=
      (hc.agrees addr).along_awaited hc.callsMatch fun a ha => (List.mem_filter.mp ha).2
    exact (MessageChannel.along_awaited_iff c _).mp halone addr e (mem_resultsFor.mp hresult).1 hunexpected
  · intro hok addr
    rw [resultsFor, resultsFor, (hc.agrees addr).run hc.callsMatch hok]

open Transparent in
theorem channel_isolated_apart :
    (channel 1).Isolated (greeting 7 (addr 2) 3 4 ++ greeting 8 (addr 5) 13 14) :=
  (channel_isolated_iff (channel 1) ⟨rfl, rfl⟩ (greeting 7 (addr 2) 3 4 ++ greeting 8 (addr 5) 13 14)).mpr
    (by decide +kernel)

open Transparent in
/-- Peer 8 greets the channel while peer 7 shakes hands with it. -/
theorem channel_disturbed :
    ¬ ∀ (c : MessageChannel transparent), c.New → ∀ as : List (ChannelAction transparent), c.Isolated as := by
  intro h
  let greetings : List (ChannelAction transparent) :=
    [datagram (addr 2) 4 [10, 3], datagram (addr 5) 14 [10, 13], datagram (addr 2) 0 (messageC 7 1 3 4)]
  have hresults := h (channel 1) ⟨rfl, rfl⟩ greetings (addr 2)
  exact absurd hresults (by decide +kernel)

end SeedNet
