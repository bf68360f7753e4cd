import Mathlib.Data.Int.ModEq
import SeedNet.SendPaths

/-! # Nonces of a transport

`encrypt` and `encrypt_into` take the nonce of a datagram from a counter that every call advances, also a
failing one, with `wrapping_add`.  `snow` refuses the last nonce, but the counter passes it and starts again.

`SecureTransport.nonce_call` is what one call does to the counter and which nonce its datagram carries, and
`nonces_eq` what a sequence of calls does: call `i` uses the nonce that is `i` after the first one, modulo the
size of the counter.  `no_nonce_reuse_iff` follows: two datagrams carry one nonce exactly if their calls are a
multiple of that size apart. -/

namespace SeedNet

/-- `u64::MAX`, which Noise reserves. -/
def lastNonce : UInt64 := 18446744073709551615

/-- A message with this nonce is within the limits of Noise. -/
def WithinLimits (nonce : UInt64) (plaintext : Bytes) : Prop :=
  nonce ≠ lastNonce ∧ plaintext.length + 16 ≤ maxMessageLen

instance (nonce : UInt64) (plaintext : Bytes) : Decidable (WithinLimits nonce plaintext) :=
  inferInstanceAs (Decidable (_ ∧ _))

variable {S : Snow}

/-- Exactly the messages within the limits are encrypted, and the tag has 16 bytes. -/
structure Snow.Limited (S : Snow) : Prop where
  accepts_iff : ∀ state nonce payload room, payload.length + 16 ≤ room →
    ((∃ ct, S.transportWrite state nonce payload room = .ok ct) ↔ WithinLimits nonce payload)
  length : ∀ state nonce payload room ct, S.transportWrite state nonce payload room = .ok ct →
    ct.length = payload.length + 16

/-! ### One call -/

/-- A call that encrypts, with the buffer that it writes to if it is `encrypt_into`. -/
inductive EncryptCall where
  | encrypt (plaintext : Bytes)
  | encryptInto (plaintext out : Bytes) (hout : nonceLen + plaintext.length + 16 ≤ out.length)

def EncryptCall.plaintext : EncryptCall → Bytes
  | .encrypt plaintext | .encryptInto plaintext _ _ => plaintext

namespace SecureTransport

/-- The datagram of a successful call, and the transport after the call. -/
def call (t : SecureTransport S) : EncryptCall → Option Bytes × SecureTransport S
  | .encrypt plaintext =>
    match t.encrypt plaintext with
    | (.ok datagram, t) => (some datagram, t)
    | (.error _, t) => (none, t)
  | .encryptInto plaintext out _ =>
    match t.encryptInto plaintext out with
    | (.ok n, out, t) => (some (out.take n), t)
    | (.error _, _, t) => (none, t)

/-- The datagrams of calls one after the other. -/
def datagrams (t : SecureTransport S) : List EncryptCall → List (Option Bytes)
  | [] => []
  | c :: cs => (t.call c).1 :: datagrams (t.call c).2 cs

/-- The nonces of the datagrams that were returned. -/
def nonces (t : SecureTransport S) (cs : List EncryptCall) : List UInt64 :=
  (t.datagrams cs).filterMap (Option.map datagramNonce)

theorem transport_call (t : SecureTransport S) (c : EncryptCall) :
    (t.call c).2 = { t with sendNonce := t.sendNonce + 1 } := by
  cases c with
  | encrypt plaintext =>
      unfold call encrypt
      dsimp only
      cases S.transportWrite t.state t.sendNonce plaintext (plaintext.length + 16) <;> rfl
  | encryptInto plaintext out hout =>
      unfold call encryptInto
      dsimp only
      cases S.transportWrite t.state t.sendNonce plaintext _ <;> rfl

/-- Which nonce a call uses, and whether there is a datagram. -/
theorem nonce_call (hlimited : S.Limited) (t : SecureTransport S) (c : EncryptCall) :
    (t.call c).1.map datagramNonce = if WithinLimits t.sendNonce c.plaintext then some t.sendNonce else none := by
  have hwrite {payload : Bytes} {room : ℕ} (hroom : payload.length + 16 ≤ room) :
      (∃ ct, S.transportWrite t.state t.sendNonce payload room = .ok ct ∧ WithinLimits t.sendNonce payload) ∨
        ∃ e, S.transportWrite t.state t.sendNonce payload room = .error e ∧ ¬ WithinLimits t.sendNonce payload := by
    have hiff := hlimited.accepts_iff t.state t.sendNonce payload room hroom
    cases hw : S.transportWrite t.state t.sendNonce payload room with
    | ok ct => exact .inl ⟨ct, rfl, hiff.mp ⟨ct, hw⟩⟩
    | error e =>
        refine .inr ⟨e, rfl, fun hlimits => ?_⟩
        obtain ⟨ct, hct⟩ := hiff.mpr hlimits
        cases hw.symm.trans hct
  cases c with
  | encrypt plaintext =>
      rcases hwrite (le_refl (plaintext.length + 16)) with ⟨ct, hw, hlimits⟩ | ⟨e, hw, hlimits⟩
      · simp [call, encrypt, hw, EncryptCall.plaintext, hlimits, datagramNonce_sealed]
      · simp [call, encrypt, hw, EncryptCall.plaintext, hlimits]
  | encryptInto plaintext out hout =>
      have hlen : (copyInto out 0 (toLeBytes t.sendNonce)).length = out.length :=
        length_copyInto (by rw [toLeBytes_length]; omega)
      have hroom : plaintext.length + 16 ≤ out.length - nonceLen := by omega
      rcases hwrite hroom with ⟨ct, hw, hlimits⟩ | ⟨e, hw, hlimits⟩
      · have hbuf := copyInto_append (toLeBytes t.sendNonce) ct out
        have hn : nonceLen + ct.length = (toLeBytes t.sendNonce ++ ct).length := by
          rw [List.length_append, toLeBytes_length]
        rw [toLeBytes_length] at hbuf
        simp only [call, encryptInto, hlen, hw, hbuf, hn, List.take_left', EncryptCall.plaintext, hlimits,
          datagramNonce_sealed, Option.map_some, if_true]
      · simp [call, encryptInto, hlen, hw, EncryptCall.plaintext, hlimits]

/-! ### What is encrypted -/

theorem encrypt_ok (hlimited : S.Limited) (t : SecureTransport S) {plaintext : Bytes}
    (h : WithinLimits t.sendNonce plaintext) :
    ∃ datagram, t.encrypt plaintext = (.ok datagram, { t with sendNonce := t.sendNonce + 1 }) := by
  obtain ⟨ct, hct⟩ := (hlimited.accepts_iff t.state t.sendNonce plaintext _ le_rfl).mpr h
  refine ⟨toLeBytes t.sendNonce ++ ct, ?_⟩
  rw [encrypt]
  dsimp only
  rw [hct]

theorem encrypt_error (hlimited : S.Limited) (t : SecureTransport S) {plaintext : Bytes}
    (h : ¬ WithinLimits t.sendNonce plaintext) :
    ∃ e, t.encrypt plaintext = (.error e, { t with sendNonce := t.sendNonce + 1 }) := by
  have haccepts := mt (hlimited.accepts_iff t.state t.sendNonce plaintext _ le_rfl).mp h
  rw [encrypt]
  cases hw : S.transportWrite t.state t.sendNonce plaintext (plaintext.length + 16) with
  | ok ct => exact absurd ⟨ct, hw⟩ haccepts
  | error text => exact ⟨.noiseTransport s!"encrypt: {text}", rfl⟩

theorem length_encrypt (hlimited : S.Limited) {t t' : SecureTransport S} {plaintext datagram : Bytes}
    (h : t.encrypt plaintext = (.ok datagram, t')) :
    datagram.length = plaintext.length + transportOverhead ∧ plaintext.length + 16 ≤ maxMessageLen := by
  unfold encrypt at h
  dsimp only at h
  split at h
  · cases h
  · next ct hct =>
      cases h
      have hlen := hlimited.length _ _ _ _ _ hct
      refine ⟨?_, ((hlimited.accepts_iff _ _ _ _ le_rfl).mp ⟨ct, hct⟩).2⟩
      rw [List.length_append, toLeBytes_length, hlen]
      simp only [nonceLen, transportOverhead]
      omega

/-! ### A sequence of calls -/

/-- Call `i` uses the nonce that is `i` after the first one. -/
theorem nonces_eq (hlimited : S.Limited) (t : SecureTransport S) (cs : List EncryptCall) :
    (t.datagrams cs).map (Option.map datagramNonce) = cs.mapIdx fun i c =>
      if WithinLimits (t.sendNonce + .ofNat i) c.plaintext then some (t.sendNonce + .ofNat i) else none := by
  induction cs generalizing t with
  | nil => rfl
  | cons c cs ih =>
      have hfirst := t.nonce_call hlimited c
      have hnonce (i : ℕ) : t.sendNonce + 1 + .ofNat i = t.sendNonce + .ofNat (i + 1) := by
        rw [UInt64.add_assoc, UInt64.add_comm 1, ← UInt64.ofNat_one, ← UInt64.ofNat_add]
      rw [datagrams, List.map_cons, List.mapIdx_cons, ih, hfirst, transport_call]
      simp only [hnonce]
      simp

/-- No two calls whose positions are a multiple of the counter's size apart are both within the limits. -/
def KeepsApart (t : SecureTransport S) (cs : List EncryptCall) : Prop :=
  ∀ i j, i < j → UInt64.size ∣ j - i → ∀ c ∈ cs[i]?, ∀ c' ∈ cs[j]?,
    ¬ (WithinLimits (t.sendNonce + .ofNat i) c.plaintext ∧ WithinLimits (t.sendNonce + .ofNat j) c'.plaintext)

/-- The counter comes back to a nonce after as many calls as it has values. -/
theorem nonce_eq_iff (n : UInt64) {i j : ℕ} (hij : i < j) :
    n + .ofNat i = n + .ofNat j ↔ UInt64.size ∣ j - i := by
  rw [UInt64.add_right_inj, UInt64.ofNat_eq_iff_mod_eq_toNat, UInt64.toNat_ofNat']
  exact Nat.modEq_iff_dvd' hij.le

/-- The nonces of two different calls differ, if there are any. -/
theorem nodup_nonces (hlimited : S.Limited) (t : SecureTransport S) (cs : List EncryptCall) :
    (t.nonces cs).Nodup ↔ ∀ i j (hi : i < cs.length) (hj : j < cs.length), i < j →
      WithinLimits (t.sendNonce + .ofNat i) cs[i].plaintext → WithinLimits (t.sendNonce + .ofNat j) cs[j].plaintext →
        t.sendNonce + .ofNat i ≠ t.sendNonce + .ofNat j := by
  have hnonces : t.nonces cs = ((t.datagrams cs).map (Option.map datagramNonce)).filterMap id := by
    rw [List.filterMap_map]
    rfl
  rw [hnonces, t.nonces_eq hlimited, List.Nodup, List.pairwise_filterMap, List.pairwise_iff_getElem]
  simp only [List.length_mapIdx, List.getElem_mapIdx, id_eq, Option.ite_none_right_eq_some, Option.some.injEq, and_imp]
  constructor
  · exact fun h i j hi hj hij hlimits hlimits' => h i j hi hj hij _ hlimits rfl _ hlimits' rfl
  · rintro h i j hi hj hij _ hlimits rfl _ hlimits' rfl
    exact h i j hi hj hij hlimits hlimits'

theorem keepsApart_of_nodup (hlimited : S.Limited) {t : SecureTransport S} {cs : List EncryptCall}
    (h : (t.nonces cs).Nodup) : t.KeepsApart cs := by
  rintro i j hij hdvd c hc c' hc' ⟨hlimits, hlimits'⟩
  obtain ⟨hi, rfl⟩ := List.getElem?_eq_some_iff.mp hc
  obtain ⟨hj, rfl⟩ := List.getElem?_eq_some_iff.mp hc'
  exact (t.nodup_nonces hlimited cs).mp h i j hi hj hij hlimits hlimits' ((nonce_eq_iff t.sendNonce hij).mpr hdvd)

/-- As long as the counter does not come round, all calls are apart. -/
theorem keepsApart_of_length_le (t : SecureTransport S) {cs : List EncryptCall} (h : cs.length ≤ UInt64.size) :
    t.KeepsApart cs := by
  intro i j hij hdvd c _ c' hc' _
  obtain ⟨hj, -⟩ := List.getElem?_eq_some_iff.mp hc'
  have hle := Nat.le_of_dvd (by omega) hdvd
  omega

end SecureTransport

/-- **No nonce is used twice** exactly if no two calls within the limits are a multiple of the counter's size
apart, whichever entry points they use. -/
theorem no_nonce_reuse_iff (hlimited : S.Limited) (t : SecureTransport S) (cs : List EncryptCall) :
    (t.nonces cs).Nodup ↔ t.KeepsApart cs := by
  refine ⟨SecureTransport.keepsApart_of_nodup hlimited, fun h => (t.nodup_nonces hlimited cs).mpr ?_⟩
  intro i j hi hj hij hlimits hlimits' heq
  exact h i j hij ((SecureTransport.nonce_eq_iff t.sendNonce hij).mp heq) _ (List.getElem?_eq_getElem hi) _
    (List.getElem?_eq_getElem hj) ⟨hlimits, hlimits'⟩

namespace Transparent

/-- The transparent instance with the limits of Noise. -/
def limited : Snow :=
  { transparent with
    transportWrite := fun state nonce payload room =>
      if WithinLimits nonce payload then transportWrite state nonce payload room else .error "input error" }

theorem limited_limited : limited.Limited where
  accepts_iff state nonce payload room h := by
    show (∃ ct, (if WithinLimits nonce payload then transportWrite state nonce payload room else
      .error "input error") = .ok ct) ↔ _
    by_cases hlimits : WithinLimits nonce payload <;> simp [hlimits, transportWrite, Nat.not_lt.mpr h]
  length state nonce payload room ct h := by
    replace h : (if WithinLimits nonce payload then transportWrite state nonce payload room else
      .error "input error") = .ok ct := h
    split at h
    · exact length_of_transportWrite h
    · cases h

/-- A transport at its first datagram. -/
def limitedTransport : SecureTransport limited where
  state := { initiator := true, initiatorEph := 1, responderEph := 2 }
  remoteStatic := .replicate 7
  sendNonce := 0
  nonceWindow := {}

end Transparent

open Transparent in
theorem no_nonce_reuse_two : (limitedTransport.nonces [.encrypt [1], .encrypt [2]]).Nodup :=
  (no_nonce_reuse_iff limited_limited limitedTransport [.encrypt [1], .encrypt [2]]).mpr
    (limitedTransport.keepsApart_of_length_le (by decide))

open Transparent in
/-- One call more than the counter has values. -/
theorem first_nonce_reused :
    ¬ ∀ (S : Snow), S.Limited → ∀ (t : SecureTransport S) (cs : List EncryptCall), (t.nonces cs).Nodup := by
  intro h
  have hnodup := h limited limited_limited limitedTransport (List.replicate (UInt64.size + 1) (.encrypt []))
  have hapart := SecureTransport.keepsApart_of_nodup limited_limited hnodup
  refine hapart 0 UInt64.size (by decide) (dvd_refl _) (.encrypt []) ?_ (.encrypt []) ?_ ⟨by decide, by decide⟩
  · rw [List.getElem?_replicate, if_pos (by decide)]
    rfl
  · rw [List.getElem?_replicate, if_pos (by decide)]
    rfl

end SeedNet
