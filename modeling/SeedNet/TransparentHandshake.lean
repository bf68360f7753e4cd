import SeedNet.TransparentNode
import SeedNet.TwoNodes

/-! # The transparent instance keeps the promises of Noise

`transparent` with `id` as the map from static keys to public keys: the states of its handshakes can
be read off the messages (`wroteB_eq`, `wroteC_eq`, `readC_eq`), and from this follows what
`Snow.Authentic` asks.  The second part is the network that examples of runs of two nodes are made of. -/

namespace SeedNet.Transparent

open Snow (WroteA WroteB WroteC InitiatorEnd ResponderEnd SameHandshake)

variable {networkSecret key : Bytes32}

/-- The variant of a message is its first byte. -/
theorem serializeMessage_head (msg : Message) :
    ∃ variant rest, serializeMessage msg = variant :: rest ∧ variant.toNat < 12 := by
  cases msg <;> exact ⟨_, _, rfl, by decide⟩

theorem buildInitiator_ok (prologue : Bytes) (key : Bytes32) (rng : UInt8) :
    transparent.buildInitiator prologue key.bytes rng =
      .ok { initiator := true, prologue := prologue, static := key, eph := rng } := by
  have hkey := takeKey_append key []
  rw [List.append_nil] at hkey
  simp only [transparent, hkey]

theorem buildResponder_ok (prologue : Bytes) (key : Bytes32) (rng : UInt8) :
    transparent.buildResponder prologue key.bytes rng =
      .ok { initiator := false, prologue := prologue, static := key, eph := rng } := by
  have hkey := takeKey_append key []
  rw [List.append_nil] at hkey
  simp only [transparent, hkey]

theorem buildInitiator_eq {prologue : Bytes} {rng : UInt8} {s : State}
    (h : transparent.buildInitiator prologue key.bytes rng = .ok s) :
    s = { initiator := true, prologue := prologue, static := key, eph := rng } :=
  Except.ok.inj (h.symm.trans (buildInitiator_ok prologue key rng))

theorem buildResponder_eq {prologue : Bytes} {rng : UInt8} {s : State}
    (h : transparent.buildResponder prologue key.bytes rng = .ok s) :
    s = { initiator := false, prologue := prologue, static := key, eph := rng } :=
  Except.ok.inj (h.symm.trans (buildResponder_ok prologue key rng))

theorem wroteA_eq {s : State} {m : Bytes} (h : WroteA (S := transparent) networkSecret key s m) :
    ∃ ei, s = { initiator := true, prologue := networkSecret.bytes, static := key, eph := ei, stage := 1 } := by
  obtain ⟨rng, s₀, hbuild, hwrite⟩ := h
  rw [buildInitiator_eq hbuild] at hwrite
  exact ⟨rng, (Prod.mk.inj (Except.ok.inj hwrite)).2.symm⟩

theorem wroteB_eq {s : State} {m : Bytes} (h : WroteB (S := transparent) networkSecret key s m) :
    ∃ ei er, s = { initiator := false, prologue := networkSecret.bytes, static := key, eph := er,
                   peerEph := some ei, stage := 2 } := by
  obtain ⟨msgA, rng, s₀, payload, s₁, hbuild, hread, hwrite⟩ := h
  rw [buildResponder_eq hbuild] at hread
  simp only [transparent, readMessage] at hread
  split at hread
  · cases hread
    exact ⟨_, rng, (Prod.mk.inj (Except.ok.inj hwrite)).2.symm⟩
  · next h => cases h
  · next h => cases h
  · cases hread

/-- Message C names both ephemerals and both static keys. -/
theorem wroteC_eq {s : State} {m : Bytes} (h : WroteC (S := transparent) networkSecret key s m) :
    ∃ ei er k, m = 12 :: ei :: er :: (networkSecret.bytes ++ (key.bytes ++ (k.bytes ++ []))) ∧
      s = { initiator := true, prologue := networkSecret.bytes, static := key, eph := ei, peerEph := some er,
            peerStatic := some k, stage := 3 } := by
  obtain ⟨s₀, msgA, msgB, payload, s₁, hA, hread, hwrite⟩ := h
  obtain ⟨ei, rfl⟩ := wroteA_eq hA
  simp only [transparent, readMessage] at hread
  split at hread
  · next h => cases h
  · split at hread
    · split at hread
      · cases hread
        obtain ⟨hm, hs⟩ := Prod.mk.inj (Except.ok.inj hwrite)
        exact ⟨ei, _, _, hm.symm, hs.symm⟩
      · cases hread
    · cases hread
  · next h => cases h
  · cases hread

/-- What a responder in this state accepts as message C, and its state afterwards. -/
theorem readC_eq {s s' : State} {m payload : Bytes} {ei er : UInt8}
    (hs : s = { initiator := false, prologue := networkSecret.bytes, static := key, eph := er, peerEph := some ei,
                stage := 2 })
    (h : readMessage s m = .ok (payload, s')) :
    ∃ k, m = 12 :: ei :: er :: (networkSecret.bytes ++ (k.bytes ++ (key.bytes ++ payload))) ∧
      s' = { s with peerStatic := some k, stage := 3 } := by
  subst hs
  simp only [readMessage] at h
  split at h
  · next hstage => cases hstage
  · next hrole _ => cases hrole
  · split at h
    · next k own p hopen =>
        split at h
        · next hmatch =>
            obtain ⟨hei, her, hown⟩ := hmatch
            cases h
            cases hei
            obtain ⟨⟨k', body'⟩, hbody, hrest⟩ := Option.bind_eq_some_iff.mp hopen
            obtain ⟨⟨own', p'⟩, hkey, hpair⟩ := Option.map_eq_some_iff.mp hrest
            simp only [Prod.mk.injEq] at hpair
            obtain ⟨rfl, rfl, rfl⟩ := hpair
            unfold openBody at hbody
            split at hbody
            · next hpre =>
                obtain ⟨rest, hrest⟩ := startsWith_iff.mp hpre
                rw [hrest] at hbody ⊢
                rw [List.drop_left] at hbody
                have hown' : body' = own'.bytes ++ p' := takeKey_eq_some hkey
                rw [takeKey_eq_some hbody, hown', her, hown]
                exact ⟨k', rfl, rfl⟩
            · cases hbody
        · cases h
    · cases h
  · cases h

theorem initiatorEnd_eq {m : Bytes} {t : SecureTransport transparent}
    (h : InitiatorEnd (S := transparent) networkSecret key m t) :
    ∃ ei er k, m = 12 :: ei :: er :: (networkSecret.bytes ++ (key.bytes ++ (k.bytes ++ []))) ∧
      t = { state := ⟨true, ei, er⟩, remoteStatic := k, sendNonce := 0, nonceWindow := {} } := by
  obtain ⟨s, hC, ht⟩ := h
  obtain ⟨ei, er, k, hm, rfl⟩ := wroteC_eq hC
  exact ⟨ei, er, k, hm, (Except.ok.inj ht).symm⟩

theorem responderEnd_eq {m : Bytes} {t : SecureTransport transparent}
    (h : ResponderEnd (S := transparent) networkSecret key m t) :
    ∃ ei er k payload, m = 12 :: ei :: er :: (networkSecret.bytes ++ (k.bytes ++ (key.bytes ++ payload))) ∧
      t = { state := ⟨false, ei, er⟩, remoteStatic := k, sendNonce := 0, nonceWindow := {} } := by
  obtain ⟨s, msgB, payload, s', hB, hread, ht⟩ := h
  obtain ⟨ei, er, hs⟩ := wroteB_eq hB
  obtain ⟨k, hm, rfl⟩ := readC_eq hs hread
  subst hs
  exact ⟨ei, er, k, payload, hm, (Except.ok.inj ht).symm⟩

/-- The two ends of a handshake name the same ephemerals, and each other's static keys. -/
theorem ends_eq {ki kr : Bytes32} {m : Bytes} {t t' : SecureTransport transparent}
    (hi : InitiatorEnd (S := transparent) networkSecret ki m t)
    (hr : ResponderEnd (S := transparent) networkSecret kr m t') :
    t.remoteStatic = kr ∧ t'.remoteStatic = ki ∧ t'.state = Transport.peer t.state ∧ t.state = Transport.peer t'.state := by
  obtain ⟨ei, er, k, hm, rfl⟩ := initiatorEnd_eq hi
  obtain ⟨ei', er', k', payload, hm', rfl⟩ := responderEnd_eq hr
  rw [hm] at hm'
  simp only [List.cons.injEq, true_and] at hm'
  obtain ⟨rfl, rfl, hbody⟩ := hm'
  have hkeys := List.append_cancel_left hbody
  obtain ⟨hki, hrest⟩ := List.append_inj hkeys (ki.length_eq.trans k'.length_eq.symm)
  obtain ⟨hkr, -⟩ := List.append_inj hrest (k.length_eq.trans kr.length_eq.symm)
  exact ⟨Bytes32.ext_iff'.mpr hkr, Bytes32.ext_iff'.mpr hki.symm, rfl, rfl⟩

/-- Byte 8 of a sealed datagram is the variant of its message; byte 8 of a message C belongs to the
network secret. -/
theorem sealed_not_messageC {d : Datagram transparent} {ts : Transport} {nonce : UInt64} {msg : Message}
    {ei er : UInt8} {rest : Bytes} (h : d.Sealed ts nonce msg) :
    d.bytes ≠ 12 :: ei :: er :: (secret.bytes ++ rest) := by
  obtain ⟨room, ct, hwrite, hd⟩ := h
  obtain ⟨variant, fields, hmsg, hlt⟩ := serializeMessage_head msg
  simp only [transparent, transportWrite, hmsg] at hwrite
  split at hwrite
  · cases hwrite
  · cases hwrite
    intro hC
    rw [hd] at hC
    have h8 := congrArg (fun l : Bytes => l[8]?) hC
    have hsealed : (toLeBytes nonce ++ (variant :: fields ++ tag ts nonce))[8]? = some variant := by
      rw [List.getElem?_append_right (by simp [nonceLen])]
      rfl
    have hsecret : (12 :: ei :: er :: (secret.bytes ++ rest))[8]? = some 200 := rfl
    rw [hsealed, hsecret, Option.some.injEq] at h8
    subst h8
    exact absurd hlt (by decide)

theorem authentic : transparent.Authentic id secret where
  statics := fun ki kr m t t' hi hr => ⟨(ends_eq hi hr).1, (ends_eq hi hr).2.1⟩
  reads := by
    rintro ki kr t t' ⟨m, u, u', hi, hr, rfl, rfl⟩
    obtain ⟨-, -, hpeer, hpeer'⟩ := ends_eq hi hr
    refine ⟨fun nonce payload room ct hwrite room' hroom => ?_, fun nonce payload room ct hwrite room' hroom => ?_⟩
    · rw [hpeer]
      exact transportRead_write hwrite hroom
    · rw [hpeer']
      exact transportRead_write hwrite hroom
  tagged := fun _ _ _ _ _ => length_of_transportWrite
  rejects := by
    intro kr state msgB hB key d hgenuine hpunch payload state' hread
    obtain ⟨ei, er, hs⟩ := wroteB_eq hB
    obtain ⟨k, hd, -⟩ := readC_eq hs hread
    unfold Datagram.Genuine at hgenuine
    split at hgenuine
    · obtain ⟨_, m, -, hbytes⟩ := hgenuine
      cases hbytes.symm.trans hd
    · obtain ⟨_, m, -, hbytes⟩ := hgenuine
      cases hbytes.symm.trans hd
    · next t ho => exact ⟨t, ho⟩
    · exact absurd hd (sealed_not_messageC hgenuine)
    · cases hgenuine.symm.trans hpunch

/-- The transports of the two ends differ in the role alone. -/
theorem peer_of_same {ki kr : Bytes32} {ti tr : Transport}
    (h : SameHandshake (S := transparent) networkSecret ki kr ti tr) : tr = ti.peer := by
  obtain ⟨m, t, t', hi, hr, rfl, rfl⟩ := h
  exact (ends_eq hi hr).2.2.1

/-! ### Two nodes -/

/-- The nodes 1 and 2, at their addresses. -/
def addrs (x : Bool) : SocketAddr := addr (if x then 2 else 1)

def twoNodes : Net transparent where
  node x := node (if x then 2 else 1)

/-- The node `x` starts a handshake with the other one, with the ephemeral `rng`. -/
def startAt (x : Bool) (rng : UInt8) : Net.Action transparent := .node x (.start (addrs (!x)) rng)

/-- The next step of the first initiator of `x`. -/
def task (x : Bool) : Net.Action transparent := .node x (.attempt 0 true 0)

/-- The next step of the inbound loop of `x`. -/
def loop (x : Bool) : Net.Action transparent := .node x .inbound

/-- The `k`-th datagram in flight arrives; a responder that answers it has the ephemeral `rng`. -/
def arrive (k : ℕ) (rng : UInt8) : Net.Action transparent := .deliver k 0 0 rng false

end SeedNet.Transparent
