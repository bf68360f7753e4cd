import Mathlib.Data.List.Perm.Subperm
import SeedNet.Completing
import SeedNet.FreshNonces
import SeedNet.Nonces

/-! # The two ends of a session over an open network

A sender encrypts messages one after the other, and a receiver decrypts whatever datagrams arrive: copies, datagrams
out of order, and others that nobody has sent.  Calls of the two ends interleave in any way.

* `delivered_at_most_once`: every message is delivered unchanged, and at most as often as it was sent.
* `delivered_in_time`: as long as no datagram arrives twice or after one that is more than 128 ahead of it, everything
  that arrives is delivered, in the order of arrival. -/

namespace SeedNet

open Run (exec Along)

variable {S : Snow}

/-- What `ts'` reads of a ciphertext of `ts` is what was written. -/
def Snow.Faithful (S : Snow) (ts ts' : S.StatelessTransportState) : Prop :=
  ∀ nonce payload room ct room' plain, S.transportWrite ts nonce payload room = .ok ct →
    S.transportRead ts' nonce ct room' = .ok plain → plain = payload

/-! ### One call of an end -/

namespace SecureTransport

variable {t : SecureTransport S}

/-- The datagram is the nonce and a ciphertext of the message under it. -/
def Wrote (ts : S.StatelessTransportState) (nonce : UInt64) (plaintext datagram : Bytes) : Prop :=
  ∃ room ct, S.transportWrite ts nonce plaintext room = .ok ct ∧ datagram = toLeBytes nonce ++ ct

theorem Wrote.nonce_eq {ts : S.StatelessTransportState} {nonce : UInt64} {plaintext datagram : Bytes}
    (h : Wrote ts nonce plaintext datagram) : datagramNonce datagram = nonce := by
  obtain ⟨room, ct, -, rfl⟩ := h
  exact datagramNonce_sealed nonce ct

/-- A successful call writes its message under the next nonce. -/
theorem wrote_of_call {c : EncryptCall} {datagram : Bytes} (h : (t.call c).1 = some datagram) :
    Wrote t.state t.sendNonce c.plaintext datagram := by
  cases c with
  | encrypt plaintext =>
      unfold call encrypt at h
      dsimp only at h
      cases hw : S.transportWrite t.state t.sendNonce plaintext (plaintext.length + 16) with
      | error e =>
          rw [hw] at h
          cases h
      | ok ct =>
          rw [hw] at h
          cases h
          exact ⟨_, ct, hw, rfl⟩
  | encryptInto plaintext out hout =>
      unfold call encryptInto at h
      dsimp only at h
      cases hw : S.transportWrite t.state t.sendNonce plaintext
          ((copyInto out 0 (toLeBytes t.sendNonce)).length - nonceLen) with
      | error e =>
          rw [hw] at h
          cases h
      | ok ct =>
          rw [hw] at h
          have hbuf := copyInto_append (toLeBytes t.sendNonce) ct out
          rw [toLeBytes_length] at hbuf
          simp only [hbuf, Option.some.injEq] at h
          have hlen : (toLeBytes t.sendNonce ++ ct).length = nonceLen + ct.length := by
            rw [List.length_append, toLeBytes_length]
          rw [← hlen, List.take_left] at h
          exact ⟨_, ct, hw, h.symm⟩

end SecureTransport

namespace DecryptCall

open SecureTransport

variable {t : SecureTransport S} {c : DecryptCall}

/-- The message that a call returns. -/
def plaintext (t : SecureTransport S) : DecryptCall → Option Bytes
  | .decrypt d => (t.decrypt d).1.toOption
  | .decryptInto d out =>
    match t.decryptInto d out with
    | (.ok len, buf, _) => some (buf.take len)
    | (.error _, _, _) => none

theorem plaintext_of_not_long (h : ¬ c.Long) : c.plaintext t = none := by
  cases c <;> simp only [Long, datagram] at h <;>
    simp [plaintext, SecureTransport.decrypt, SecureTransport.decryptInto, checkHeader, Nat.not_le.mp h, Except.toOption]

/-- The message is what Noise reads under the nonce of the datagram, if the window takes the nonce. -/
theorem plaintext_of_long (h : c.Long) :
    c.plaintext t = if t.nonceWindow.fresh c.nonce then
      (S.transportRead t.state c.nonce (c.datagram.drop nonceLen) c.room).toOption else none := by
  have hl : ¬ c.datagram.length < nonceLen + 16 := Nat.not_lt.mpr h
  cases hf : t.nonceWindow.fresh c.nonce with
  | false =>
      have hf' : (t.nonceWindow.checkAndInsert c.nonce).1 = false := hf
      cases c <;> simp only [datagram, nonce] at hl hf' <;>
        simp [plaintext, SecureTransport.decrypt, SecureTransport.decryptInto, checkHeader, hl, hf', Except.toOption]
  | true =>
      have hf' : (t.nonceWindow.checkAndInsert c.nonce).1 = true := hf
      cases c with
      | decrypt d =>
          simp only [datagram, nonce] at hl hf'
          simp only [plaintext, SecureTransport.decrypt, checkHeader, hl, hf', if_false, Bool.not_true,
            Bool.false_eq_true, nonce, datagram, room, if_true]
          cases S.transportRead t.state (datagramNonce d) (d.drop nonceLen) (d.drop nonceLen).length <;> rfl
      | decryptInto d out =>
          simp only [datagram, nonce] at hl hf'
          simp only [plaintext, SecureTransport.decryptInto, checkHeader, hl, hf', if_false, Bool.not_true,
            Bool.false_eq_true, nonce, datagram, room, if_true]
          cases S.transportRead t.state (datagramNonce d) (d.drop nonceLen) out.length with
          | error e => rfl
          | ok plain =>
              dsimp only [Except.toOption]
              rw [copyInto_zero_take]

/-- A message was read under a nonce that the window took. -/
theorem read_of_plaintext {plain : Bytes} (h : c.plaintext t = some plain) :
    c.Long ∧ t.nonceWindow.fresh c.nonce = true ∧
      S.transportRead t.state c.nonce (c.datagram.drop nonceLen) c.room = .ok plain := by
  by_cases hlong : c.Long
  · rw [plaintext_of_long hlong] at h
    split at h
    · next hfresh =>
        refine ⟨hlong, hfresh, ?_⟩
        cases hread : S.transportRead t.state c.nonce (c.datagram.drop nonceLen) c.room with
        | error e =>
            rw [hread] at h
            cases h
        | ok plain' =>
            rw [hread] at h
            cases h
            rfl
    · cases h
  · rw [plaintext_of_not_long hlong] at h
    cases h

theorem window_next_of_long (h : c.Long) :
    (c.next t).nonceWindow = (t.nonceWindow.checkAndInsert c.nonce).2 := by
  rw [next, run_of_long h]

theorem window_next_of_not_long (h : ¬ c.Long) : (c.next t).nonceWindow = t.nonceWindow := by
  rw [next, run_of_not_long h]

/-- A call keeps the history of the window; a message adds a nonce that was not in it. -/
theorem covers_next {H : List UInt64} (h : t.nonceWindow.Covers H) (hoff : OffEdge t c) :
    ∃ H', (c.next t).nonceWindow.Covers H' ∧ H ⊆ H' ∧
      ∀ plain, c.plaintext t = some plain → c.nonce ∈ H' ∧ c.nonce ∉ H := by
  by_cases hlong : c.Long
  · rw [window_next_of_long hlong]
    cases hfresh : t.nonceWindow.fresh c.nonce with
    | true =>
        exact ⟨_, h.insert hfresh (hoff hlong), List.subset_cons_self _ _,
          fun _ _ => ⟨List.mem_cons_self, h.not_mem_of_fresh hfresh⟩⟩
    | false =>
        rw [NonceWindow.check_of_not_fresh hfresh, plaintext_of_long hlong, hfresh]
        exact ⟨H, h, List.Subset.refl H, fun _ hplain => by cases hplain⟩
  · rw [window_next_of_not_long hlong, plaintext_of_not_long hlong]
    exact ⟨H, h, List.Subset.refl H, fun _ hplain => by cases hplain⟩

end DecryptCall

/-! ### The channel -/

structure SecureChannel (S : Snow) where
  sender : SecureTransport S
  receiver : SecureTransport S
  /-- how often the sender has been called -/
  calls : ℕ := 0
  /-- the messages that were encrypted, with their datagrams -/
  sent : List (Bytes × Bytes) := []
  /-- the datagrams that have arrived -/
  arrived : List Bytes := []
  /-- the messages that were decrypted -/
  delivered : List Bytes := []

namespace SecureChannel

inductive Action where
  | send (c : EncryptCall)
  | arrive (c : DecryptCall)

def next (w : SecureChannel S) : Action → SecureChannel S
  | .send c =>
    { w with
      sender := (w.sender.call c).2
      calls := w.calls + 1
      sent := w.sent ++ ((w.sender.call c).1.map fun datagram => (c.plaintext, datagram)).toList }
  | .arrive c =>
    { w with
      receiver := c.next w.receiver
      arrived := w.arrived ++ [c.datagram]
      delivered := w.delivered ++ (c.plaintext w.receiver).toList }

/-- Both ends come from a handshake. -/
structure Started (w : SecureChannel S) : Prop where
  sendNonce : w.sender.sendNonce = 0
  nonceWindow : w.receiver.nonceWindow = {}
  calls : w.calls = 0
  sent : w.sent = []
  arrived : w.arrived = []
  delivered : w.delivered = []

/-- The counter of the sender does not start again; nobody else's datagrams are authentic; and no datagram moves the
top of the window by exactly its width. -/
def Unforged (w : SecureChannel S) : Action → Prop
  | .send _ => w.calls < UInt64.size
  | .arrive c => OffEdge w.receiver c ∧ ((c.plaintext w.receiver).isSome → ∃ p ∈ w.sent, p.2 = c.datagram)

/-- A datagram arrives for the first time, and none that is more than 128 ahead of it has arrived before. -/
def InTime (w : SecureChannel S) : Action → Prop
  | .send _ => w.calls < UInt64.size
  | .arrive c => c.datagram ∉ w.arrived ∧ (∃ p ∈ w.sent, p.2 = c.datagram ∧ p.1.length ≤ c.room) ∧
      ∀ d ∈ w.arrived, (SecureTransport.datagramNonce d).toNat ≤ c.nonce.toNat + 128

instance (w : SecureChannel S) : DecidablePred w.Unforged
  | .send _ => inferInstanceAs (Decidable (w.calls < UInt64.size))
  | .arrive c =>
    inferInstanceAs (Decidable (OffEdge w.receiver c ∧
      ((c.plaintext w.receiver).isSome → ∃ p ∈ w.sent, p.2 = c.datagram)))

instance (w : SecureChannel S) : DecidablePred w.InTime
  | .send _ => inferInstanceAs (Decidable (w.calls < UInt64.size))
  | .arrive c =>
    inferInstanceAs (Decidable (c.datagram ∉ w.arrived ∧ (∃ p ∈ w.sent, p.2 = c.datagram ∧ p.1.length ≤ c.room) ∧
      ∀ d ∈ w.arrived, (SecureTransport.datagramNonce d).toNat ≤ c.nonce.toNat + 128))

variable {w : SecureChannel S}

/-! ### The datagrams that were sent -/

/-- Every datagram was written under a nonce of its own. -/
structure Numbered (ts : S.StatelessTransportState) (w : SecureChannel S) : Prop where
  state_eq : w.sender.state = ts
  counter : w.sender.sendNonce = UInt64.ofNat w.calls
  wrote : ∀ p ∈ w.sent, ∃ nonce, SecureTransport.Wrote ts nonce p.1 p.2 ∧ nonce.toNat < w.calls
  distinct : (w.sent.map fun p => SecureTransport.datagramNonce p.2).Nodup

theorem Started.numbered (h : w.Started) : w.Numbered w.sender.state where
  state_eq := rfl
  counter := by
    rw [h.sendNonce, h.calls]
    rfl
  wrote p hp := absurd (h.sent ▸ hp) List.not_mem_nil
  distinct := by
    rw [h.sent]
    exact List.nodup_nil

theorem Numbered.send {ts : S.StatelessTransportState} (h : w.Numbered ts) (hcalls : w.calls < UInt64.size)
    (c : EncryptCall) : (w.next (.send c)).Numbered ts := by
  have hcall := w.sender.transport_call c
  have hnonce : w.sender.sendNonce.toNat = w.calls := by
    rw [h.counter]
    exact UInt64.toNat_ofNat_of_lt hcalls
  have hwrote : ∀ p ∈ ((w.sender.call c).1.map fun datagram => (c.plaintext, datagram)).toList,
      SecureTransport.Wrote ts w.sender.sendNonce p.1 p.2 := by
    intro p hp
    obtain ⟨datagram, hdatagram, rfl⟩ := Option.map_eq_some_iff.mp (Option.mem_toList.mp hp)
    rw [← h.state_eq]
    exact SecureTransport.wrote_of_call hdatagram
  refine ⟨?_, ?_, fun p hp => ?_, ?_⟩
  · show (w.sender.call c).2.state = ts
    rw [hcall]
    exact h.state_eq
  · show (w.sender.call c).2.sendNonce = UInt64.ofNat (w.calls + 1)
    rw [hcall, UInt64.ofNat_add, ← h.counter]
    rfl
  · show ∃ nonce, SecureTransport.Wrote ts nonce p.1 p.2 ∧ nonce.toNat < w.calls + 1
    rcases List.mem_append.mp hp with hp | hp
    · obtain ⟨nonce, hp, hlt⟩ := h.wrote p hp
      exact ⟨nonce, hp, Nat.lt_succ_of_lt hlt⟩
    · exact ⟨_, hwrote p hp, by omega⟩
  · -- the new nonce is the number of calls, and all others are smaller
    show ((w.sent ++ _).map _).Nodup
    rw [List.map_append, List.nodup_append']
    refine ⟨h.distinct, ?_, fun nonce hold hnew => ?_⟩
    · cases (w.sender.call c).1 with
      | none => exact List.nodup_nil
      | some datagram => exact List.nodup_singleton _
    · obtain ⟨p, hp, rfl⟩ := List.mem_map.mp hold
      obtain ⟨q, hq, heq⟩ := List.mem_map.mp hnew
      obtain ⟨nonce, hp, hlt⟩ := h.wrote p hp
      rw [(hwrote q hq).nonce_eq, hp.nonce_eq] at heq
      rw [← heq, hnonce] at hlt
      exact lt_irrefl _ hlt

theorem Numbered.arrive {ts : S.StatelessTransportState} (h : w.Numbered ts) (c : DecryptCall) :
    (w.next (.arrive c)).Numbered ts := ⟨h.state_eq, h.counter, h.wrote, h.distinct⟩

/-- Two messages with one nonce are one. -/
theorem Numbered.eq_of_nonce {ts : S.StatelessTransportState} (h : w.Numbered ts) {p q : Bytes × Bytes} (hp : p ∈ w.sent)
    (hq : q ∈ w.sent) (heq : SecureTransport.datagramNonce p.2 = SecureTransport.datagramNonce q.2) : p = q :=
  List.inj_on_of_nodup_map h.distinct hp hq heq

/-! ### At most once -/

/-- The messages that were delivered are some of those that were sent, and the window covers their nonces. -/
structure Once (ts ts' : S.StatelessTransportState) (w : SecureChannel S) : Prop extends Numbered ts w where
  receiver_eq : w.receiver.state = ts'
  delivered : ∃ (H : List UInt64) (ps : List (Bytes × Bytes)), w.receiver.nonceWindow.Covers H ∧
    w.delivered = ps.map Prod.fst ∧ ps.Nodup ∧ ∀ p ∈ ps, p ∈ w.sent ∧ SecureTransport.datagramNonce p.2 ∈ H

theorem Once.next {ts ts' : S.StatelessTransportState} (hfaithful : S.Faithful ts ts') (h : w.Once ts ts') {a : Action}
    (hok : w.Unforged a) : (w.next a).Once ts ts' := by
  obtain ⟨H, ps, hcovers, hdelivered, hnodup, hps⟩ := h.delivered
  cases a with
  | send c =>
      refine ⟨h.toNumbered.send hok c, h.receiver_eq, H, ps, hcovers, hdelivered, hnodup, fun p hp => ?_⟩
      exact ⟨List.mem_append_left _ (hps p hp).1, (hps p hp).2⟩
  | arrive c =>
      obtain ⟨hoff, hforged⟩ := hok
      refine ⟨h.toNumbered.arrive c, DecryptCall.next_state.trans h.receiver_eq, ?_⟩
      show ∃ (H' : List UInt64) (ps' : List (Bytes × Bytes)), (c.next w.receiver).nonceWindow.Covers H' ∧
        w.delivered ++ (c.plaintext w.receiver).toList = ps'.map Prod.fst ∧ ps'.Nodup ∧
          ∀ p ∈ ps', p ∈ w.sent ∧ SecureTransport.datagramNonce p.2 ∈ H'
      obtain ⟨H', hcovers', hsub, hplaintext⟩ := DecryptCall.covers_next hcovers hoff
      have hkeep : ∀ p ∈ ps, p ∈ w.sent ∧ SecureTransport.datagramNonce p.2 ∈ H' := fun p hp =>
        ⟨(hps p hp).1, hsub (hps p hp).2⟩
      cases hplain : c.plaintext w.receiver with
      | none => exact ⟨H', ps, hcovers', by rw [hdelivered]; exact List.append_nil _, hnodup, hkeep⟩
      | some plain =>
          obtain ⟨hmem, hnew⟩ := hplaintext plain hplain
          obtain ⟨p, hp, hbytes⟩ := hforged (by rw [hplain]; rfl)
          obtain ⟨nonce, hwrote, -⟩ := h.wrote p hp
          have hnonce : SecureTransport.datagramNonce p.2 = c.nonce := by
            rw [hbytes]
            rfl
          have hread := (DecryptCall.read_of_plaintext hplain).2.2
          have heq : plain = p.1 := by
            obtain ⟨room, ct, hwrite, hd⟩ := id hwrote
            rw [h.receiver_eq, ← hbytes, ← hnonce, hwrote.nonce_eq, hd,
              List.drop_left' (toLeBytes_length nonce)] at hread
            exact hfaithful _ _ _ _ _ _ hwrite hread
          refine ⟨H', ps ++ [p], hcovers', ?_, ?_, ?_⟩
          · rw [hdelivered, List.map_append, heq]
            rfl
          · refine List.nodup_append'.mpr ⟨hnodup, List.nodup_singleton p, fun q hq hqp => ?_⟩
            rw [List.mem_singleton.mp hqp] at hq
            exact hnew (hnonce ▸ (hps p hq).2)
          · exact List.forall_mem_append.mpr ⟨hkeep, List.forall_mem_singleton.mpr ⟨hp, hnonce ▸ hmem⟩⟩

/-- **Every message is delivered at most once**, and unchanged, however calls of the two ends interleave and whatever
arrives. -/
theorem delivered_at_most_once {w : SecureChannel S} (hfaithful : S.Faithful w.sender.state w.receiver.state)
    (hstart : w.Started) {as : List Action} (hok : Along next Unforged w as) :
    (exec next w as).delivered.Subperm ((exec next w as).sent.map Prod.fst) := by
  have honce : (exec next w as).Once w.sender.state w.receiver.state := by
    refine hok.invariant (fun v a hv ok => hv.next hfaithful ok) ⟨hstart.numbered, rfl, [], [], ?_, ?_, ?_, ?_⟩
    · rw [hstart.nonceWindow]
      exact NonceWindow.covers_default
    · exact hstart.delivered
    · exact List.nodup_nil
    · exact List.forall_mem_nil _
  obtain ⟨H, ps, -, hdelivered, hnodup, hps⟩ := honce.delivered
  obtain ⟨qs, hperm, hsub⟩ := hnodup.subperm fun p hp => (hps p hp).1
  rw [hdelivered]
  exact ⟨qs.map Prod.fst, hperm.map Prod.fst, hsub.map Prod.fst⟩

/-! ### In time -/

/-- What has arrived was delivered in this order, and the window remembers nothing else. -/
structure Prompt (ts ts' : S.StatelessTransportState) (w : SecureChannel S) : Prop extends Numbered ts w where
  receiver_eq : w.receiver.state = ts'
  justified : w.receiver.nonceWindow.Justified (w.arrived.map SecureTransport.datagramNonce)
  known : ∀ d ∈ w.arrived, ∃ p ∈ w.sent, p.2 = d
  delivered : List.Forall₂ (fun datagram plaintext => (plaintext, datagram) ∈ w.sent) w.arrived w.delivered

theorem Prompt.next {ts ts' : S.StatelessTransportState} (hreads : Snow.Reads ts ts')
    (htagged : ∀ nonce payload room ct, S.transportWrite ts nonce payload room = .ok ct →
      ct.length = payload.length + 16) (h : w.Prompt ts ts') {a : Action} (hok : w.InTime a) :
    (w.next a).Prompt ts ts' := by
  cases a with
  | send c =>
      refine ⟨h.toNumbered.send hok c, h.receiver_eq, h.justified, fun d hd => ?_,
        h.delivered.imp fun datagram plaintext hp => List.mem_append_left _ hp⟩
      obtain ⟨p, hp, heq⟩ := h.known d hd
      exact ⟨p, List.mem_append_left _ hp, heq⟩
  | arrive c =>
      obtain ⟨hnew, ⟨p, hp, hbytes, hroom⟩, hage⟩ := hok
      obtain ⟨nonce, hwrote, -⟩ := h.wrote p hp
      have hnonce : c.nonce = nonce := by
        rw [DecryptCall.nonce, ← hbytes]
        exact hwrote.nonce_eq
      obtain ⟨room, ct, hwrite, hd⟩ := hwrote
      have hlen := htagged _ _ _ _ hwrite
      have hlong : c.Long := by
        rw [DecryptCall.Long, ← hbytes, hd, List.length_append, toLeBytes_length]
        omega
      have hread : S.transportRead w.receiver.state c.nonce (c.datagram.drop nonceLen) c.room = .ok p.1 := by
        rw [h.receiver_eq, hnonce, ← hbytes, hd, List.drop_left' (toLeBytes_length nonce)]
        exact hreads _ _ _ _ hwrite _ hroom
      -- another datagram with this nonce would be the same one
      have hfresh : w.receiver.nonceWindow.fresh c.nonce = true := by
        refine h.justified.fresh (fun hmem => ?_) fun top htop => ?_
        · obtain ⟨d, hd', heq⟩ := List.mem_map.mp hmem
          obtain ⟨q, hq, rfl⟩ := h.known d hd'
          rw [DecryptCall.nonce, ← hbytes] at heq
          rw [h.eq_of_nonce hq hp heq, hbytes] at hd'
          exact hnew hd'
        · obtain ⟨d, hd', rfl⟩ := List.mem_map.mp ((h.justified.isGreatest htop).1)
          exact hage d hd'
      have hplain : c.plaintext w.receiver = some p.1 := by
        rw [DecryptCall.plaintext_of_long hlong, if_pos hfresh, hread]
        rfl
      refine ⟨h.toNumbered.arrive c, DecryptCall.next_state.trans h.receiver_eq, ?_, ?_, ?_⟩
      · show (c.next w.receiver).nonceWindow.Justified ((w.arrived ++ [c.datagram]).map _)
        rw [DecryptCall.window_next_of_long hlong, List.map_append]
        exact h.justified.check_fresh hfresh
      · exact List.forall_mem_append.mpr ⟨h.known, List.forall_mem_singleton.mpr ⟨p, hp, hbytes⟩⟩
      · show List.Forall₂ _ (w.arrived ++ [c.datagram]) (w.delivered ++ (c.plaintext w.receiver).toList)
        rw [hplain]
        refine List.rel_append h.delivered (.cons ?_ .nil)
        exact hbytes ▸ hp

/-- **What arrives in time is delivered**, in the order of arrival, as long as the send counter does not start again: the
messages delivered are, one by one, those of the datagrams that have arrived. -/
theorem delivered_in_time {w : SecureChannel S} (hreads : Snow.Reads w.sender.state w.receiver.state)
    (htagged : ∀ nonce payload room ct, S.transportWrite w.sender.state nonce payload room = .ok ct →
      ct.length = payload.length + 16)
    (hstart : w.Started) {as : List Action} (hok : Along next InTime w as) :
    List.Forall₂ (fun datagram plaintext => (plaintext, datagram) ∈ (exec next w as).sent)
      (exec next w as).arrived (exec next w as).delivered := by
  have hprompt : (exec next w as).Prompt w.sender.state w.receiver.state := by
    refine hok.invariant (fun v a hv ok => hv.next hreads htagged ok) ⟨hstart.numbered, rfl, ?_, ?_, ?_⟩
    · rw [hstart.nonceWindow, hstart.arrived]
      exact NonceWindow.justified_default
    · rw [hstart.arrived]
      exact List.forall_mem_nil _
    · rw [hstart.arrived, hstart.delivered]
      exact .nil
  exact hprompt.delivered

end SecureChannel

/-! ### Two runs -/

namespace Transparent

/-- The two ends of one transparent handshake. -/
def secureChannel : SecureChannel transparent where
  sender := firstTransport
  receiver := { firstTransport with state := Transport.peer ⟨true, 1, 2⟩ }

theorem secureChannel_started : secureChannel.Started := ⟨rfl, rfl, rfl, rfl, rfl, rfl⟩

theorem secureChannel_reads : Snow.Reads secureChannel.sender.state secureChannel.receiver.state :=
  fun _ _ _ _ hwrite _ hroom => transportRead_write hwrite hroom

theorem secureChannel_faithful : transparent.Faithful secureChannel.sender.state secureChannel.receiver.state := by
  intro nonce payload room ct room' plain hwrite hread
  have hplain := written_of_read hread
  rw [show Transport.peer secureChannel.receiver.state = secureChannel.sender.state from rfl] at hplain
  have hlen := length_of_transportWrite hwrite
  have hlen' := length_of_transportWrite hplain
  simp only [transparent, transportWrite] at hwrite hplain
  split_ifs at hwrite hplain
  cases hwrite
  exact (List.append_inj_left (Except.ok.inj hplain) (by omega))

/-- The datagram of a message of the sender. -/
def secured (nonce : UInt64) (plaintext : Bytes) : Bytes := datagramOf ⟨true, 1, 2⟩ nonce plaintext

/-- Two messages overtake each other; one of them is repeated, and somebody makes up a third one. -/
def disturbed : List SecureChannel.Action :=
  [.send (.encrypt [7]), .send (.encrypt [8, 9]), .arrive (.decrypt (secured 1 [8, 9])),
    .arrive (.decryptInto (toLeBytes 5 ++ List.replicate 16 0) (List.replicate 20 1)),
    .arrive (.decryptInto (secured 0 [7]) (List.replicate 20 1)), .arrive (.decrypt (secured 1 [8, 9]))]

/-- Two messages overtake each other. -/
def overtaken : List SecureChannel.Action :=
  [.send (.encrypt [7]), .send (.encrypt [8, 9]), .arrive (.decrypt (secured 1 [8, 9])),
    .arrive (.decryptInto (secured 0 [7]) (List.replicate 20 1))]

end Transparent

open Transparent in
theorem delivered_at_most_once_disturbed :
    (exec SecureChannel.next secureChannel disturbed).delivered = [[8, 9], [7]] ∧
      (exec SecureChannel.next secureChannel disturbed).delivered.Subperm
        ((exec SecureChannel.next secureChannel disturbed).sent.map Prod.fst) :=
  ⟨by decide +kernel,
    SecureChannel.delivered_at_most_once secureChannel_faithful secureChannel_started (by decide +kernel)⟩

open Transparent in
theorem delivered_in_time_overtaken :
    List.Forall₂ (fun datagram plaintext =>
        (plaintext, datagram) ∈ (exec SecureChannel.next secureChannel overtaken).sent)
      (exec SecureChannel.next secureChannel overtaken).arrived
      (exec SecureChannel.next secureChannel overtaken).delivered :=
  SecureChannel.delivered_in_time secureChannel_reads (fun _ _ _ _ => length_of_transportWrite) secureChannel_started
    (by decide +kernel)

end SeedNet
