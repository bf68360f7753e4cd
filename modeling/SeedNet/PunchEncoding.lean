import SeedNet.Node

/-! # The hand-written hole-punch encoder

`crates/nat/src/punch.rs` writes hole-punch datagrams without the message codec: a variant tag in the source and
a shift loop for the token.  `punch_encoding_matches`: they are the datagrams that the codec gives, which is what the
inbound loop reads and answers with. -/

namespace SeedNet

theorem toNat_shiftRight_seven (v : UInt64) : (v >>> 7).toNat = v.toNat / 128 := by
  rw [UInt64.toNat_shiftRight, Nat.shiftRight_eq_div_pow]
  rfl

/-- Seven bits at a time, least significant first, pushed onto the buffer. -/
def encodeVarint (buf : Bytes) (v : UInt64) : Bytes :=
  let byte := (v &&& 0x7F).toUInt8
  if v >>> 7 = 0 then buf ++ [byte] else encodeVarint (buf ++ [byte ||| 0x80]) (v >>> 7)
termination_by v.toNat
decreasing_by
  next h =>
    have hne : (v >>> 7).toNat ≠ 0 := fun h0 => h (UInt64.toNat_inj.mp h0)
    rw [toNat_shiftRight_seven] at hne ⊢
    omega

namespace Punch

def probeBytes (token : UInt64) : Bytes := encodeVarint (holePunchProbePrefix ++ [5]) token

def ackBytes (token : UInt64) : Bytes := encodeVarint (holePunchProbePrefix ++ [6]) token

end Punch

/-! ### The shift loop and the varint -/

theorem toNat_lowGroup (v : UInt64) : (v &&& 0x7F).toUInt8.toNat = v.toNat % 128 := by
  have hmask : v.toNat &&& 127 = v.toNat % 128 := Nat.and_two_pow_sub_one_eq_mod v.toNat 7
  rw [UInt64.toNat_toUInt8, UInt64.toNat_and, show (0x7F : UInt64).toNat = 127 from rfl, hmask]
  omega

theorem setHighBit {byte : UInt8} (h : byte.toNat < 128) : (byte ||| 0x80).toNat = byte.toNat + 128 := by
  rw [UInt8.toNat_or, show (0x80 : UInt8).toNat = 2 ^ 7 * 1 from rfl, Nat.or_comm,
    ← Nat.two_pow_add_eq_or_of_lt h 1]
  omega

theorem lowGroup_eq (v : UInt64) : (v &&& 0x7F).toUInt8 = (v.toNat % 128).toUInt8 := by
  apply UInt8.toNat_inj.mp
  rw [toNat_lowGroup, Nat.toUInt8_eq, UInt8.toNat_ofNat']
  omega

theorem highGroup_eq (v : UInt64) : (v &&& 0x7F).toUInt8 ||| 0x80 = (v.toNat % 128 + 128).toUInt8 := by
  have hlow := toNat_lowGroup v
  apply UInt8.toNat_inj.mp
  rw [setHighBit (by omega), hlow, Nat.toUInt8_eq, UInt8.toNat_ofNat']
  omega

/-- The loop writes the varint, with as many groups as the value needs. -/
theorem encodeVarint_eq (k : ℕ) (buf : Bytes) (v : UInt64) (h : v.toNat < 128 ^ (k + 1)) :
    encodeVarint buf v = buf ++ Postcard.encodeVarint (k + 1) v.toNat := by
  induction k generalizing buf v with
  | zero =>
      have hlt : v.toNat < 128 := by simpa using h
      have hlast : v >>> 7 = 0 := by
        apply UInt64.toNat_inj.mp
        rw [toNat_shiftRight_seven]
        exact Nat.div_eq_of_lt hlt
      rw [encodeVarint, if_pos hlast, lowGroup_eq, Nat.mod_eq_of_lt hlt, Postcard.encodeVarint, if_pos hlt]
  | succ k ih =>
      have hshift := toNat_shiftRight_seven v
      rw [encodeVarint, Postcard.encodeVarint]
      by_cases hlt : v.toNat < 128
      · have hlast : v >>> 7 = 0 := by
          apply UInt64.toNat_inj.mp
          rw [hshift]
          exact Nat.div_eq_of_lt hlt
        rw [if_pos hlast, if_pos hlt, lowGroup_eq, Nat.mod_eq_of_lt hlt]
      · have hmore : v >>> 7 ≠ 0 := by
          intro h0
          rw [h0] at hshift
          have hzero : 0 = v.toNat / 128 := hshift
          omega
        have hdiv : (v >>> 7).toNat < 128 ^ (k + 1) := by
          rw [hshift]
          exact Nat.div_lt_of_lt_mul (by rw [mul_comm, ← pow_succ]; exact h)
        rw [if_neg hmore, if_neg hlt, ih _ _ hdiv, hshift, highGroup_eq, List.append_assoc, List.singleton_append]

theorem encodeVarint_u64 (buf : Bytes) (v : UInt64) : encodeVarint buf v = buf ++ Postcard.u64.encode v := by
  have hlt : v.toNat < 128 ^ (9 + 1) := lt_trans v.toNat_lt (by norm_num)
  exact encodeVarint_eq 9 buf v hlt

theorem Punch.probeBytes_eq (token : UInt64) :
    Punch.probeBytes token = holePunchProbePrefix ++ serializeMessage (.holePunchProbe token) := by
  rw [Punch.probeBytes, encodeVarint_u64, List.append_assoc]
  rfl

theorem Punch.ackBytes_eq (token : UInt64) :
    Punch.ackBytes token = holePunchProbePrefix ++ serializeMessage (.holePunchAck token) := by
  rw [Punch.ackBytes, encodeVarint_u64, List.append_assoc]
  rfl

/-- The datagram has the hole-punch prefix, and what the inbound loop reads behind it is `msg`. -/
def ReadsAs (data : Bytes) (msg : Message) : Prop :=
  startsWith data holePunchProbePrefix = true ∧
    deserializeMessage (data.drop holePunchProbePrefix.length) = .ok msg

theorem readsAs_serialize (msg : Message) (h : msg.Encodable) :
    ReadsAs (holePunchProbePrefix ++ serializeMessage msg) msg := by
  have hround := deserialize_serialize msg h []
  rw [List.append_nil] at hround
  refine ⟨startsWith_append _ _, ?_⟩
  rw [List.drop_left]
  exact hround

/-- **The hand-written encoder matches the codec.** -/
theorem punch_encoding_matches (token : UInt64) :
    Punch.probeBytes token = holePunchProbePrefix ++ serializeMessage (.holePunchProbe token) ∧
      Punch.ackBytes token = holePunchProbePrefix ++ serializeMessage (.holePunchAck token) ∧
      ReadsAs (Punch.probeBytes token) (.holePunchProbe token) ∧
      ReadsAs (Punch.ackBytes token) (.holePunchAck token) := by
  refine ⟨Punch.probeBytes_eq token, Punch.ackBytes_eq token, ?_, ?_⟩
  · rw [Punch.probeBytes_eq]
    exact readsAs_serialize (.holePunchProbe token) trivial
  · rw [Punch.ackBytes_eq]
    exact readsAs_serialize (.holePunchAck token) trivial

/-- The inbound loop answers a hand-written probe with the two datagrams that `handle_probe` would return. -/
theorem Node.onHolePunch_probeBytes {S : Snow} (n : Node S) (a : Arrival S) (token : UInt64)
    (h : a.data = Punch.probeBytes token) :
    (n.onHolePunch a).out.map (·.bytes) = [Punch.ackBytes token, Punch.probeBytes token] := by
  have hread := (readsAs_serialize (.holePunchProbe token) trivial).2
  rw [← Punch.probeBytes_eq, ← h] at hread
  rw [onHolePunch, hread, Punch.probeBytes_eq, Punch.ackBytes_eq]
  rfl

end SeedNet
