import SeedNet.Run
import SeedNet.TransparentNoise

/-! # Replay protection of the transport

What `NonceWindow.checkAndInsert` does, and what `decrypt` / `decryptInto` make of it over
whole sequences of datagrams.

* `Records w n`: the window remembers `n` (it is the top, or its bit is set); `TooOld w n`: `n`
  lies more than 128 below the top.  `fresh_iff` says that exactly the other nonces are taken,
  and `records_insert` what the window remembers afterwards: everything it did and that still
  lies within 128 of the new top, *except* when the top moves by 128 or more.  The two bounds
  overlap in one point: a move by exactly 128 forgets the old top, which is still in the window.
* `Covers w H` ties the window to the whole history `H` of recorded nonces.  It survives every
  step but that one (`Covers.insert`), so without such a step no nonce is accepted twice
  (`accepted_nodup`); with it, the old top is taken again (`run_after_edge`).
* `decrypt` consults and updates the window before the ciphertext is authenticated.
  `atomic_iff` says for which datagrams a failing call leaves the window as it was, and
  `results_filter_authentic` that datagrams of this kind change nothing for the others. -/

namespace SeedNet

/-! ### The window, one nonce at a time -/

namespace NonceWindow

variable {w : NonceWindow} {n m top : UInt64}

/-- The window remembers `n`. -/
def Records (w : NonceWindow) (n : UInt64) : Prop :=
  ∃ top, w.top = some top ∧ (n = top ∨ n.toNat < top.toNat ∧ top.toNat - n.toNat ≤ 128 ∧
    w.mask.getLsbD (top.toNat - n.toNat - 1) = true)

/-- `n` lies outside the window. -/
def TooOld (w : NonceWindow) (n : UInt64) : Prop :=
  ∃ top, w.top = some top ∧ n.toNat + 128 < top.toNat

/-- A window as `check_and_insert` leaves it: a top from the first nonce on, and no bits before. -/
def Wf (w : NonceWindow) : Prop := (w.initialized = true ↔ w.top ≠ none) ∧ (w.top = none → w.mask = 0)

theorem wf_default : Wf {} := by simp [Wf]

theorem and_bit_ne_zero (mask : BitVec 128) {k : ℕ} (hk : k < 128) :
    mask &&& (1#128 <<< k) ≠ 0 ↔ mask.getLsbD k = true := by
  constructor
  · intro h
    by_contra hb
    refine h (BitVec.eq_of_getLsbD_eq fun i hi => ?_)
    simp only [BitVec.getLsbD_and, BitVec.getLsbD_shiftLeft, BitVec.getLsbD_one, BitVec.ofNat_eq_ofNat,
      BitVec.getLsbD_zero]
    grind
  · intro h h0
    have hbit := congrArg (BitVec.getLsbD · k) h0
    simp only [BitVec.getLsbD_and, h, BitVec.getLsbD_shiftLeft, BitVec.getLsbD_one] at hbit
    simp [hk] at hbit

/-- The bits after a move of the top by `s`: the old top becomes bit `s - 1`. -/
theorem getLsbD_advance (mask : BitVec 128) {s k : ℕ} (hs : 0 < s) (hk : k < 128) :
    ((mask <<< s) ||| (1#128 <<< (s - 1))).getLsbD k =
      (decide (k + 1 = s) || (decide (s ≤ k) && mask.getLsbD (k - s))) := by
  simp only [BitVec.getLsbD_or, BitVec.getLsbD_shiftLeft, BitVec.getLsbD_one]
  grind

theorem width_toNat : width.toNat = 128 := rfl

theorem check_first (hi : w.initialized = false) :
    w.checkAndInsert n = (true, { w with top := some n, initialized := true }) := by
  simp [checkAndInsert, hi]

theorem check_advance (hi : w.initialized = true) (ht : w.top = some top) (h : top.toNat < n.toNat) :
    w.checkAndInsert n = (true, { w with
      top := some n
      mask := if 128 ≤ n.toNat - top.toNat then 0
        else (w.mask <<< (n.toNat - top.toNat)) ||| (1#128 <<< (n.toNat - top.toNat - 1)) }) := by
  have hlt : n > top := UInt64.lt_iff_toNat_lt.mpr h
  have hsub : (n - top).toNat = n.toNat - top.toNat := UInt64.toNat_sub_of_le _ _ (by
    rw [UInt64.le_iff_toNat_le]; omega)
  have hone : (n - top - 1).toNat = n.toNat - top.toNat - 1 := by
    rw [UInt64.toNat_sub_of_le _ _ (by rw [UInt64.le_iff_toNat_le, hsub]; simp; omega), hsub]
    rfl
  have hge : (n - top ≥ width) ↔ 128 ≤ n.toNat - top.toNat := by
    rw [ge_iff_le, UInt64.le_iff_toNat_le, hsub, width_toNat]
  simp only [checkAndInsert, hi, ht, hlt, if_true, hsub, hone, hge, Bool.not_true, Bool.false_eq_true,
    if_false]

theorem check_top (hi : w.initialized = true) (ht : w.top = some n) :
    w.checkAndInsert n = (false, w) := by
  simp [checkAndInsert, hi, ht]

theorem check_behind (hi : w.initialized = true) (ht : w.top = some top) (h : n.toNat < top.toNat) :
    w.checkAndInsert n =
      if 128 < top.toNat - n.toNat then (false, w)
      else if w.mask.getLsbD (top.toNat - n.toNat - 1) = true then (false, w)
      else (true, { w with mask := w.mask ||| (1#128 <<< (top.toNat - n.toNat - 1)) }) := by
  have hlt : ¬ n > top := by rw [gt_iff_lt, UInt64.lt_iff_toNat_lt]; omega
  have hsub : (top - n).toNat = top.toNat - n.toNat := UInt64.toNat_sub_of_le _ _ (by
    rw [UInt64.le_iff_toNat_le]; omega)
  have hne : ¬ top - n = 0 := by
    intro h0
    have := congrArg UInt64.toNat h0
    rw [hsub] at this
    simp at this
    omega
  have hone : (top - n - 1).toNat = top.toNat - n.toNat - 1 := by
    rw [UInt64.toNat_sub_of_le _ _ (by rw [UInt64.le_iff_toNat_le, hsub]; simp; omega), hsub]
    rfl
  have hgt : (top - n > width) ↔ 128 < top.toNat - n.toNat := by
    rw [gt_iff_lt, UInt64.lt_iff_toNat_lt, hsub, width_toNat]
  simp only [checkAndInsert, hi, ht, hlt, hne, hgt, hone, if_false, Bool.not_true, Bool.false_eq_true]
  by_cases hold : 128 < top.toNat - n.toNat
  · simp only [hold, if_true]
  · simp only [hold, if_false]
    have hbit := and_bit_ne_zero w.mask (k := top.toNat - n.toNat - 1) (by omega)
    by_cases hset : w.mask.getLsbD (top.toNat - n.toNat - 1) = true
    · rw [if_pos (hbit.mpr hset), if_pos hset]
    · rw [if_neg (mt hbit.mp hset), if_neg hset]

/-- **Which nonces are taken**: those that are neither remembered nor too old. -/
theorem fresh_iff (hi : w.initialized = true) (ht : w.top = some top) :
    w.fresh n = true ↔ ¬ w.Records n ∧ ¬ w.TooOld n := by
  unfold fresh
  rcases Nat.lt_trichotomy top.toNat n.toNat with h | h | h
  · rw [check_advance hi ht h]
    refine iff_of_true rfl ⟨?_, ?_⟩
    · rintro ⟨t, ht', rfl | ⟨hlt, _⟩⟩ <;> rw [ht] at ht' <;> cases ht' <;> omega
    · rintro ⟨t, ht', hlt⟩
      rw [ht] at ht'; cases ht'; omega
  · obtain rfl := UInt64.toNat_inj.mp h
    rw [check_top hi ht]
    exact iff_of_false (by simp) fun ⟨h1, _⟩ => h1 ⟨top, ht, .inl rfl⟩
  · rw [check_behind hi ht h]
    have hne : n ≠ top := fun e => by rw [e] at h; omega
    by_cases hold : 128 < top.toNat - n.toNat
    · rw [if_pos hold]
      exact iff_of_false (by simp) fun ⟨_, h2⟩ => h2 ⟨top, ht, by omega⟩
    · rw [if_neg hold]
      by_cases hset : w.mask.getLsbD (top.toNat - n.toNat - 1) = true
      · rw [if_pos hset]
        exact iff_of_false (by simp) fun ⟨h1, _⟩ => h1 ⟨top, ht, .inr ⟨h, by omega, hset⟩⟩
      · rw [if_neg hset]
        refine iff_of_true rfl ⟨?_, ?_⟩
        · rintro ⟨t, ht', he | ⟨_, _, hb⟩⟩ <;> rw [ht] at ht' <;> cases ht'
          · exact hne he
          · exact hset hb
        · rintro ⟨t, ht', hlt⟩
          rw [ht] at ht'; cases ht'; omega

theorem check_of_not_fresh (h : w.fresh n = false) : (w.checkAndInsert n).2 = w := by
  unfold fresh at h
  cases hi : w.initialized with
  | false => rw [check_first hi] at h; simp at h
  | true =>
      cases ht : w.top with
      | none => simp [checkAndInsert, hi, ht] at h
      | some top =>
          rcases Nat.lt_trichotomy top.toNat n.toNat with hlt | he | hlt
          · rw [check_advance hi ht hlt] at h; simp at h
          · obtain rfl := UInt64.toNat_inj.mp he
            rw [check_top hi ht]
          · rw [check_behind hi ht hlt] at h ⊢
            split_ifs at h ⊢ <;> rfl

/-- A nonce taken as fresh always changes the window. -/
theorem check_ne_of_fresh (h : w.fresh n = true) : (w.checkAndInsert n).2 ≠ w := by
  unfold fresh at h
  intro he
  have hin := congrArg NonceWindow.initialized he
  have htop := congrArg NonceWindow.top he
  have hmask := congrArg NonceWindow.mask he
  cases hi : w.initialized with
  | false => rw [check_first hi] at hin; simp [hi] at hin
  | true =>
      cases ht : w.top with
      | none => simp [checkAndInsert, hi, ht] at htop
      | some top =>
          rcases Nat.lt_trichotomy top.toNat n.toNat with hlt | heq | hlt
          · rw [check_advance hi ht hlt] at htop
            simp only [ht, Option.some.injEq] at htop
            rw [htop] at hlt; omega
          · obtain rfl := UInt64.toNat_inj.mp heq
            rw [check_top hi ht] at h; simp at h
          · rw [check_behind hi ht hlt] at h hmask
            split_ifs at h hmask with hold hset
            apply hset
            have hbit := congrArg (BitVec.getLsbD · (top.toNat - n.toNat - 1)) hmask
            simp only [BitVec.getLsbD_or, BitVec.getLsbD_shiftLeft, BitVec.getLsbD_one] at hbit
            grind

/-- **What the window remembers after taking `n`.**  A move of the top by 128 or more forgets
everything; of what is then forgotten only the old top, after a move by exactly 128, is still
within 128 of the new top. -/
theorem records_insert (hi : w.initialized = true) (ht : w.top = some top) (hf : w.fresh n = true) :
    (w.checkAndInsert n).2.Records m ↔
      m = n ∨ (w.Records m ∧ n.toNat - m.toNat ≤ 128 ∧ n.toNat - top.toNat < 128) := by
  unfold fresh at hf
  rcases Nat.lt_trichotomy top.toNat n.toNat with h | h | h
  · rw [check_advance hi ht h]
    simp only [Records, ht, Option.some.injEq, exists_eq_left']
    by_cases hs : 128 ≤ n.toNat - top.toNat
    · simp only [hs, if_true]
      simp
      omega
    · simp only [hs, if_false]
      constructor
      · rintro (rfl | ⟨hmn, hle, hb⟩)
        · exact .inl rfl
        · rw [getLsbD_advance _ (by omega) (by omega)] at hb
          simp only [Bool.or_eq_true, Bool.and_eq_true, decide_eq_true_eq] at hb
          refine .inr ⟨?_, hle, by omega⟩
          rcases hb with hb | ⟨hb, hb'⟩
          · exact .inl (UInt64.toNat_inj.mp (by omega))
          · refine .inr ⟨by omega, by omega, ?_⟩
            rw [show top.toNat - m.toNat - 1 = n.toNat - m.toNat - 1 - (n.toNat - top.toNat) by omega]
            exact hb'
      · rintro (rfl | ⟨hm, hle, _⟩)
        · exact .inl rfl
        · right
          rcases hm with rfl | ⟨hmt, hle', hb⟩
          · refine ⟨h, hle, ?_⟩
            rw [getLsbD_advance _ (by omega) (by omega)]
            simp; omega
          · refine ⟨by omega, hle, ?_⟩
            rw [getLsbD_advance _ (by omega) (by omega)]
            simp only [Bool.or_eq_true, Bool.and_eq_true, decide_eq_true_eq]
            refine .inr ⟨by omega, ?_⟩
            rw [show n.toNat - m.toNat - 1 - (n.toNat - top.toNat) = top.toNat - m.toNat - 1 by omega]
            exact hb
  · obtain rfl := UInt64.toNat_inj.mp h
    rw [check_top hi ht] at hf; simp at hf
  · rw [check_behind hi ht h] at hf ⊢
    split_ifs at hf ⊢ with hold hset
    simp only [Records, ht, Option.some.injEq, exists_eq_left']
    constructor
    · rintro (rfl | ⟨hmt, hle, hb⟩)
      · exact .inr ⟨.inl rfl, by omega, by omega⟩
      · by_cases hmn : m = n
        · exact .inl hmn
        · have hne : m.toNat ≠ n.toNat := fun e => hmn (UInt64.toNat_inj.mp e)
          refine .inr ⟨.inr ⟨hmt, hle, ?_⟩, by omega, by omega⟩
          simp only [BitVec.getLsbD_or, BitVec.getLsbD_shiftLeft, BitVec.getLsbD_one] at hb
          grind
    · rintro (rfl | ⟨rfl | ⟨hmt, hle, hb⟩, _, _⟩)
      · refine .inr ⟨h, by omega, ?_⟩
        simp only [BitVec.getLsbD_or, BitVec.getLsbD_shiftLeft, BitVec.getLsbD_one]
        grind
      · exact .inl rfl
      · refine .inr ⟨hmt, hle, ?_⟩
        simp [hb]

/-! ### The window and the history -/

/-- Everything recorded so far is remembered or too old. -/
structure Covers (w : NonceWindow) (H : List UInt64) : Prop where
  wf : w.Wf
  empty : w.top = none → H = []
  seen : ∀ m ∈ H, w.Records m ∨ w.TooOld m

theorem covers_default : Covers {} [] := ⟨wf_default, fun _ => rfl, by simp⟩

theorem Covers.not_mem_of_fresh {H : List UInt64} (h : Covers w H) (hf : w.fresh n = true) : n ∉ H := by
  cases ht : w.top with
  | none => rw [h.empty ht]; simp
  | some top =>
      have hi : w.initialized = true := h.wf.1.mpr (by simp [ht])
      obtain ⟨h1, h2⟩ := (fresh_iff hi ht).mp hf
      exact fun hm => (h.seen n hm).elim h1 h2

theorem Wf.check (h : w.Wf) (n : UInt64) : (w.checkAndInsert n).2.Wf := by
  cases hf : w.fresh n with
  | false => rw [check_of_not_fresh hf]; exact h
  | true =>
      cases ht : w.top with
      | none =>
          have hi : w.initialized = false := by
            by_contra hc
            exact h.1.mp (by simpa using hc) ht
          rw [check_first hi]
          simp [Wf]
      | some top =>
          have hi : w.initialized = true := h.1.mpr (by simp [ht])
          rcases Nat.lt_trichotomy top.toNat n.toNat with hlt | he | hlt
          · rw [check_advance hi ht hlt]; simp [Wf, hi]
          · obtain rfl := UInt64.toNat_inj.mp he
            rw [check_top hi ht]; exact h
          · rw [check_behind hi ht hlt]
            split_ifs
            · exact h
            · exact h
            · simp [Wf, hi, ht]

theorem check_top_of_fresh (hf : w.fresh n = true) (hwf : w.Wf) :
    ∃ t, (w.checkAndInsert n).2.top = some t ∧ n.toNat ≤ t.toNat ∧
      ∀ top, w.top = some top → top.toNat ≤ t.toNat := by
  cases ht : w.top with
  | none =>
      have hi : w.initialized = false := by
        by_contra hc
        exact hwf.1.mp (by simpa using hc) ht
      rw [check_first hi]
      exact ⟨n, rfl, le_refl _, by simp⟩
  | some top =>
      have hi : w.initialized = true := hwf.1.mpr (by simp [ht])
      rcases Nat.lt_trichotomy top.toNat n.toNat with hlt | he | hlt
      · rw [check_advance hi ht hlt]
        exact ⟨n, rfl, le_refl _, fun t h => by cases h; omega⟩
      · obtain rfl := UInt64.toNat_inj.mp he
        rw [check_top hi ht]
        exact ⟨top, ht, le_refl _, fun t h => by cases h; omega⟩
      · rw [check_behind hi ht hlt]
        split_ifs <;> exact ⟨top, ht, by omega, fun t h => by cases h; omega⟩

/-- **One step keeps the history covered**, unless it moves the top by exactly 128. -/
theorem Covers.insert {H : List UInt64} (h : Covers w H) (hf : w.fresh n = true)
    (hedge : ∀ top, w.top = some top → n.toNat ≠ top.toNat + 128) :
    Covers (w.checkAndInsert n).2 (n :: H) := by
  obtain ⟨t, ht', hnt, htop⟩ := check_top_of_fresh hf h.wf
  refine ⟨h.wf.check n, fun he => (by rw [he] at ht'; cases ht'), fun m hm => ?_⟩
  cases ht : w.top with
  | none =>
      rw [h.empty ht, List.mem_singleton] at hm
      have hi : w.initialized = false := by
        by_contra hc
        exact h.wf.1.mp (by simpa using hc) ht
      rw [check_first hi, hm]
      exact .inl ⟨n, rfl, .inl rfl⟩
  | some top =>
      have hi : w.initialized = true := h.wf.1.mpr (by simp [ht])
      have hr := @records_insert w n m top hi ht hf
      have htt := htop top ht
      rcases List.mem_cons.mp hm with rfl | hm
      · exact .inl (hr.mpr (.inl rfl))
      · rcases h.seen m hm with hrec | ⟨t0, ht0, hold⟩
        · by_cases hin : n.toNat - m.toNat ≤ 128
          · obtain ⟨t0, ht0, hm0⟩ := hrec
            rw [ht] at ht0; cases ht0
            have hne := hedge top ht
            have hmt : m.toNat ≤ top.toNat := by rcases hm0 with rfl | ⟨h1, _⟩ <;> omega
            exact .inl (hr.mpr (.inr ⟨⟨top, ht, hm0⟩, hin, by omega⟩))
          · exact .inr ⟨t, ht', by omega⟩
        · rw [ht] at ht0; cases ht0
          exact .inr ⟨t, ht', by omega⟩

end NonceWindow

/-! ### Sequences of calls -/

variable {S : Snow}

/-- One call on a received datagram. -/
inductive DecryptCall where
  | decrypt (datagram : Bytes)
  | decryptInto (datagram out : Bytes)
deriving DecidableEq

namespace DecryptCall

open SecureTransport

def datagram : DecryptCall → Bytes
  | .decrypt d => d
  | .decryptInto d _ => d

def nonce (c : DecryptCall) : UInt64 := datagramNonce c.datagram

/-- The buffer that the call hands to `read_message`. -/
def room : DecryptCall → ℕ
  | .decrypt d => (d.drop nonceLen).length
  | .decryptInto _ out => out.length

/-- Whether the call returns `Ok`, and the transport it leaves behind. -/
def run (t : SecureTransport S) : DecryptCall → Bool × SecureTransport S
  | .decrypt d => ((t.decrypt d).1.isOk, (t.decrypt d).2)
  | .decryptInto d out => ((t.decryptInto d out).1.isOk, (t.decryptInto d out).2.2)

def next (t : SecureTransport S) (c : DecryptCall) : SecureTransport S := (c.run t).2

/-- The datagram is long enough to be looked at. -/
def Long (c : DecryptCall) : Prop := nonceLen + 16 ≤ c.datagram.length

instance (c : DecryptCall) : Decidable c.Long := inferInstanceAs (Decidable (_ ≤ _))

/-- Noise authenticates the datagram under its nonce, and the buffer holds the plaintext. -/
def authentic (ts : S.StatelessTransportState) (c : DecryptCall) : Bool :=
  (S.transportRead ts c.nonce (c.datagram.drop nonceLen) c.room).isOk

variable {t : SecureTransport S} {c : DecryptCall}

theorem run_of_not_long (h : ¬ c.Long) : c.run t = (false, t) := by
  cases c <;> simp only [Long, datagram] at h <;>
    simp [run, SecureTransport.decrypt, SecureTransport.decryptInto, checkHeader, Nat.not_le.mp h, Except.isOk,
      Except.toBool]

/-- What a call does: the window decides first, and Noise has the last word on the result only. -/
theorem run_of_long (h : c.Long) :
    c.run t = (t.nonceWindow.fresh c.nonce && c.authentic t.state,
      { t with nonceWindow := (t.nonceWindow.checkAndInsert c.nonce).2 }) := by
  have hl : ¬ c.datagram.length < nonceLen + 16 := Nat.not_lt.mpr h
  cases hf : t.nonceWindow.fresh c.nonce with
  | false =>
      have hf' : (t.nonceWindow.checkAndInsert c.nonce).1 = false := hf
      cases c <;> simp only [datagram, nonce] at hl hf' <;>
        simp [run, SecureTransport.decrypt, SecureTransport.decryptInto, checkHeader, hl, hf', Except.isOk,
          Except.toBool, nonce, datagram]
  | true =>
      have hf' : (t.nonceWindow.checkAndInsert c.nonce).1 = true := hf
      cases c with
      | decrypt d =>
          simp only [datagram, nonce] at hl hf'
          simp only [run, SecureTransport.decrypt, checkHeader, hl, hf', if_false, Bool.not_true,
            Bool.false_eq_true, Bool.true_and, authentic, nonce, datagram, room]
          cases S.transportRead t.state (datagramNonce d) (d.drop nonceLen) (d.drop nonceLen).length <;> rfl
      | decryptInto d out =>
          simp only [datagram, nonce] at hl hf'
          simp only [run, SecureTransport.decryptInto, checkHeader, hl, hf', if_false, Bool.not_true,
            Bool.false_eq_true, Bool.true_and, authentic, nonce, datagram, room]
          cases S.transportRead t.state (datagramNonce d) (d.drop nonceLen) out.length <;> rfl

theorem next_state : (c.next t).state = t.state := by
  by_cases h : c.Long
  · rw [next, run_of_long h]
  · rw [next, run_of_not_long h]

end DecryptCall

/-- The nonces of the calls that return `Ok`, in order. -/
def acceptedNonces (t : SecureTransport S) : List DecryptCall → List UInt64
  | [] => []
  | c :: cs => if (c.run t).1 then c.nonce :: acceptedNonces (c.next t) cs
      else acceptedNonces (c.next t) cs

/-- The call does not move the top of the window by exactly its width. -/
def OffEdge (t : SecureTransport S) (c : DecryptCall) : Prop :=
  c.Long → ∀ top ∈ t.nonceWindow.top, c.nonce.toNat ≠ top.toNat + 128

instance (t : SecureTransport S) (c : DecryptCall) : Decidable (OffEdge t c) :=
  have : Decidable (∀ top ∈ t.nonceWindow.top, c.nonce.toNat ≠ top.toNat + 128) :=
    Option.decidableForallMem _
  inferInstanceAs (Decidable (c.Long → _))

/-- `read_message` returns `Ok` only for what the other end wrote under that nonce. -/
def Snow.ReadsWritten (S : Snow) : Prop :=
  ∀ ts nonce ct room p, S.transportRead ts nonce ct room = .ok p →
    ∃ ts' room', S.transportWrite ts' nonce p room' = .ok ct

theorem window_of_intoTransport {hs : S.HandshakeState} {t : SecureTransport S}
    (h : intoTransport hs = .ok t) : t.nonceWindow = {} := by
  unfold intoTransport at h
  split at h
  · cases h
  · split at h <;> cases h
    rfl

/-- Along a run that never moves the top by exactly the width, no nonce of the history is
accepted again. -/
theorem accepted_not_mem {t : SecureTransport S} {H : List UInt64} {calls : List DecryptCall}
    (hc : t.nonceWindow.Covers H) (hedge : Run.Along DecryptCall.next OffEdge t calls) :
    (acceptedNonces t calls).Nodup ∧ ∀ n ∈ acceptedNonces t calls, n ∉ H := by
  induction calls generalizing t H with
  | nil => simp [acceptedNonces]
  | cons c cs ih =>
      obtain ⟨hoff, hrest⟩ := hedge
      by_cases hl : c.Long
      · have hrun := DecryptCall.run_of_long (t := t) hl
        have hnext : (c.next t).nonceWindow = (t.nonceWindow.checkAndInsert c.nonce).2 := by
          rw [DecryptCall.next, hrun]
        cases hf : t.nonceWindow.fresh c.nonce with
        | false =>
            have hc' : (c.next t).nonceWindow.Covers H := by
              rw [hnext, NonceWindow.check_of_not_fresh hf]; exact hc
            simpa [acceptedNonces, hrun, hf] using ih hc' hrest
        | true =>
            have hc' : (c.next t).nonceWindow.Covers (c.nonce :: H) := by
              rw [hnext]; exact hc.insert hf (hoff hl)
            obtain ⟨hnd, hnot⟩ := ih hc' hrest
            have hnew : ∀ n ∈ acceptedNonces (c.next t) cs, n ∉ H := fun n hn hH =>
              hnot n hn (List.mem_cons_of_mem _ hH)
            cases ha : c.authentic t.state with
            | false => simpa [acceptedNonces, hrun, hf, ha] using ⟨hnd, hnew⟩
            | true =>
                simp only [acceptedNonces, hrun, hf, ha, Bool.and_self, if_true, List.nodup_cons,
                  List.mem_cons, forall_eq_or_imp]
                exact ⟨⟨fun hn => hnot _ hn (List.mem_cons_self ..), hnd⟩, hc.not_mem_of_fresh hf, hnew⟩
      · have hrun := DecryptCall.run_of_not_long (t := t) hl
        have hnext : c.next t = t := by rw [DecryptCall.next, hrun]
        rw [hnext] at hrest
        simpa [acceptedNonces, hrun, hnext] using ih hc hrest

/-- **No nonce is accepted twice** by a transport fresh from a handshake, whatever datagrams are
passed to `decrypt` and `decrypt_into`, as long as none of them moves the top of the window by
exactly 128. -/
theorem accepted_nodup {hs : S.HandshakeState} {t : SecureTransport S} (h : intoTransport hs = .ok t)
    {calls : List DecryptCall} (hedge : Run.Along DecryptCall.next OffEdge t calls) :
    (acceptedNonces t calls).Nodup := by
  refine (accepted_not_mem (H := []) ?_ hedge).1
  rw [window_of_intoTransport h]
  exact NonceWindow.covers_default

/-- The receiving end of a completed transparent handshake. -/
def exampleState : Transparent.State where
  initiator := false
  prologue := []
  static := .replicate 1
  eph := 2
  peerEph := some 1
  peerStatic := some (.replicate 9)
  stage := 3

def exampleTransport : SecureTransport transparent where
  state := { initiator := false, initiatorEph := 1, responderEph := 2 }
  remoteStatic := .replicate 9
  sendNonce := 0
  nonceWindow := {}

/-- A call on the datagram that the other end of `exampleTransport` sends as number `n`. -/
def exampleCall (n : UInt64) : DecryptCall :=
  .decrypt (Transparent.datagramOf exampleTransport.state.peer n [])

theorem accepted_nodup_replay :
    acceptedNonces exampleTransport [exampleCall 0, exampleCall 127, exampleCall 0] = [0, 127] ∧
      (acceptedNonces exampleTransport [exampleCall 0, exampleCall 127, exampleCall 0]).Nodup :=
  ⟨by decide +kernel, @accepted_nodup transparent exampleState exampleTransport rfl _ (by decide +kernel)⟩

/-- The condition is needed: from every state in which a datagram with the top nonce is authentic,
a datagram 128 above it (forged or not) makes that nonce acceptable once more. -/
theorem run_after_edge {t : SecureTransport S} {c e : DecryptCall} {top : UInt64}
    (hi : t.nonceWindow.initialized = true) (ht : t.nonceWindow.top = some top)
    (hc : c.Long) (hn : c.nonce = top) (ha : c.authentic t.state = true)
    (he : e.Long) (hedge : e.nonce.toNat = top.toNat + 128) :
    (c.run (e.next t)).1 = true := by
  have hadv := NonceWindow.check_advance hi ht (n := e.nonce) (by omega)
  have hs : 128 ≤ e.nonce.toNat - top.toNat := by omega
  rw [DecryptCall.run_of_long hc, DecryptCall.next_state, ha, Bool.and_true, DecryptCall.next,
    DecryptCall.run_of_long he, hadv, hn, if_pos hs]
  refine (NonceWindow.fresh_iff (w := { t.nonceWindow with top := some e.nonce, mask := 0 }) hi
    rfl).mpr ⟨?_, ?_⟩
  · rintro ⟨t', ht', rfl | ⟨_, _, hb⟩⟩ <;> cases ht'
    · omega
    · simp at hb
  · rintro ⟨t', ht', hlt⟩
    cases ht'; omega

/-- Nonce 0 is accepted, then nonce 128, then nonce 0 again. -/
theorem accepted_twice_at_edge :
    ¬ ∀ S : Snow, S.ReadsWritten → ∀ (hs : S.HandshakeState) (t : SecureTransport S),
      intoTransport hs = .ok t → ∀ calls : List DecryptCall, (acceptedNonces t calls).Nodup := by
  intro h
  have := h transparent (fun ts nonce ct room p => Transparent.readsWritten_transport) exampleState
    exampleTransport rfl [exampleCall 0, exampleCall 128, exampleCall 0]
  revert this
  decide +kernel

/-! ### Failed calls -/

/-- Every call of the sequence with whether it returned `Ok`. -/
def results (t : SecureTransport S) : List DecryptCall → List (DecryptCall × Bool)
  | [] => []
  | c :: cs => (c, (c.run t).1) :: results (c.next t) cs

/-- The call cannot touch the window: its datagram is too short, or its nonce is not fresh. -/
def Inert (t : SecureTransport S) (c : DecryptCall) : Prop :=
  ¬ c.Long ∨ t.nonceWindow.fresh c.nonce = false

instance (t : SecureTransport S) (c : DecryptCall) : Decidable (Inert t c) :=
  inferInstanceAs (Decidable (_ ∨ _))

theorem next_of_inert {t : SecureTransport S} {c : DecryptCall} (h : Inert t c) :
    c.run t = (false, t) := by
  by_cases hl : c.Long
  · have hf := h.resolve_left (not_not.mpr hl)
    rw [DecryptCall.run_of_long hl, hf, NonceWindow.check_of_not_fresh hf]
    rfl
  · exact DecryptCall.run_of_not_long hl

theorem atomic_iff (t : SecureTransport S) (c : DecryptCall) :
    ((c.run t).1 = false → (c.next t).nonceWindow = t.nonceWindow) ↔
      Inert t c ∨ c.authentic t.state = true := by
  by_cases hi : Inert t c
  · refine iff_of_true (fun _ => ?_) (.inl hi)
    rw [DecryptCall.next, next_of_inert hi]
  · simp only [Inert, not_or, not_not, Bool.not_eq_false] at hi
    obtain ⟨hl, hf⟩ := hi
    have hne := NonceWindow.check_ne_of_fresh hf
    rw [DecryptCall.next, DecryptCall.run_of_long hl, hf, Bool.true_and]
    cases ha : c.authentic t.state with
    | true => simp
    | false => simpa [Inert, hl, hf] using hne

/-- Forged datagrams that cannot touch the window when they arrive change nothing for the others. -/
theorem results_filter_authentic {t : SecureTransport S} {calls : List DecryptCall}
    (h : Run.Along DecryptCall.next (fun t c => Inert t c ∨ c.authentic t.state = true) t calls) :
    (results t calls).filter (fun r => r.1.authentic t.state) =
      results t (calls.filter fun c => c.authentic t.state) := by
  induction calls generalizing t with
  | nil => rfl
  | cons c cs ih =>
      have ih' := ih h.2
      rw [DecryptCall.next_state] at ih'
      cases ha : c.authentic t.state with
      | true => simp [results, ha, ih']
      | false =>
          have hn : c.next t = t := by
            rw [DecryptCall.next, next_of_inert (h.1.resolve_right (by simp [ha]))]
          rw [hn] at ih'
          simp [results, ha, hn, ih']

/-- **When a failing call is atomic.**  A failing `decrypt` or `decrypt_into` leaves the window as
it was exactly if the datagram is too short or its nonce is not fresh; and if every forged
datagram of an interleaving is of this kind when it arrives, the authentic ones have the results
they have without the forged ones. -/
theorem failed_call_atomic (S : Snow) :
    (∀ (t : SecureTransport S) (c : DecryptCall),
      ((c.run t).1 = false → (c.next t).nonceWindow = t.nonceWindow) ↔
        Inert t c ∨ c.authentic t.state = true) ∧
    (∀ (t : SecureTransport S) (calls : List DecryptCall),
      Run.Along DecryptCall.next (fun t c => Inert t c ∨ c.authentic t.state = true) t calls →
        (results t calls).filter (fun r => r.1.authentic t.state) =
          results t (calls.filter fun c => c.authentic t.state)) :=
  ⟨atomic_iff, fun _ _ h => results_filter_authentic h⟩

/-- A datagram that nobody wrote, with the largest nonce. -/
def forgedCall : DecryptCall := .decrypt (toLeBytes 18446744073709551615 ++ List.replicate 16 0)

/-- The forged datagram fails, moves the window to the largest nonce, and every authentic datagram
after it is rejected as a replay. -/
theorem forged_call_poisons :
    (¬ ∀ (S : Snow) (t : SecureTransport S) (c : DecryptCall), (c.run t).1 = false →
      (c.next t).nonceWindow = t.nonceWindow) ∧
    results exampleTransport [exampleCall 0] = [(exampleCall 0, true)] ∧
    results exampleTransport [forgedCall, exampleCall 0] =
      [(forgedCall, false), (exampleCall 0, false)] := by
  refine ⟨fun h => ?_, by decide +kernel, by decide +kernel⟩
  have := h transparent exampleTransport forgedCall
  revert this
  decide +kernel

end SeedNet
