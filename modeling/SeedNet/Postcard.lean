import Mathlib.Data.Nat.Log
import Mathlib.Data.List.Basic
import Mathlib.Tactic.NormNum
import Mathlib.Tactic.Ring

/-! # The postcard wire format

A codec is an encoder together with a decoder that takes one value off the front of its input.
`Codec.Lossless c ok` says that decoding gives back every encoded value that satisfies `ok`,
whatever follows it in the input; one lemma per combinator proves it for a format built from
them.

* integers are base-128 varints, least significant group first, with a limit on the number of
  bytes and on the bits of the last byte (`varint`, `varint_lossless`);
* byte strings, text and lists carry their length as a varint in front (`bytes`, `string`,
  `list`), fixed-size arrays do not (`fixed`);
* an option is a byte `0` or `1` (`option`), a tuple the concatenation of its parts (`pair`).

`Codec.Minimal c` says that what was decoded does not grow if it is encoded again.

`Results` has the rules for successful calls that the decoders here and other fallible functions are taken apart with. -/

/-! ### Results of fallible calls

What the success of a call says about its parts. -/

namespace Results

variable {ε ε' α β : Type}

theorem bind_eq_ok {x : Except ε α} {f : α → Except ε β} {b : β} (h : x >>= f = .ok b) :
    ∃ a, x = .ok a ∧ f a = .ok b := by
  cases x with
  | error e => cases h
  | ok a => exact ⟨a, rfl, h⟩

theorem map_eq_ok {x : Except ε α} {f : α → β} {b : β} (h : x.map f = .ok b) :
    ∃ a, x = .ok a ∧ f a = b := by
  cases x with
  | error e => cases h
  | ok a => exact ⟨a, rfl, Except.ok.inj h⟩

theorem mapError_eq_ok {x : Except ε α} {f : ε → ε'} {a : α} (h : x.mapError f = .ok a) :
    x = .ok a := by
  cases x with
  | error e => cases h
  | ok a' => exact congrArg Except.ok (Except.ok.inj h)

end Results

namespace Postcard

open Results (bind_eq_ok map_eq_ok)

/-- The variants of `postcard::Error` that decoding returns. -/
inductive Error where
  | deserializeUnexpectedEnd
  | deserializeBadVarint
  | deserializeBadOption
  | deserializeBadUtf8
  | unknownVariant
deriving DecidableEq, Repr

/-- Takes a value off the front of the input. -/
abbrev Decoder (α : Type) := List UInt8 → Except Error (α × List UInt8)

structure Codec (α : Type) where
  encode : α → List UInt8
  decode : Decoder α

variable {α β : Type}

/-- Decoding undoes encoding on the values that satisfy `ok`, in front of any rest. -/
def Codec.Lossless (c : Codec α) (ok : α → Prop) : Prop :=
  ∀ a, ok a → ∀ rest, c.decode (c.encode a ++ rest) = .ok (a, rest)

theorem Codec.Lossless.mono {c : Codec α} {ok ok' : α → Prop} (h : c.Lossless ok)
    (hok : ∀ a, ok' a → ok a) : c.Lossless ok' := fun a ha rest => h a (hok a ha) rest

/-- The same format for another type. -/
def Codec.map (c : Codec α) (f : α → β) (g : β → α) : Codec β where
  encode b := c.encode (g b)
  decode bs := (c.decode bs).map fun r => (f r.1, r.2)

theorem Codec.Lossless.map {c : Codec α} {ok : α → Prop} {ok' : β → Prop} (h : c.Lossless ok)
    {f : α → β} {g : β → α} (hok : ∀ b, ok' b → ok (g b)) (hfg : ∀ b, ok' b → f (g b) = b) :
    (c.map f g).Lossless ok' := by
  intro b hb rest
  simp [Codec.map, h (g b) (hok b hb) rest, Except.map, hfg b hb]

/-! ### Integers -/

/-- `varint_max`: the number of bytes of an integer of `bits` bits. -/
def varintMax (bits : ℕ) : ℕ := (bits + 6) / 7

/-- `max_of_last_byte`: the bits left for the last byte. -/
def maxOfLastByte (bits : ℕ) : ℕ := 2 ^ (bits % 7) - 1

/-- Base-128 groups, least significant first, at most `k` of them. -/
def encodeVarint : ℕ → ℕ → List UInt8
  | 0, _ => []
  | k + 1, v => if v < 128 then [v.toUInt8] else (v % 128 + 128).toUInt8 :: encodeVarint k (v / 128)

/-- Reads at most `k` groups; the last one is at most `lastMax`. -/
def decodeVarint (lastMax : ℕ) : ℕ → Decoder ℕ
  | 0, _ => .error .deserializeBadVarint
  | _ + 1, [] => .error .deserializeUnexpectedEnd
  | k + 1, b :: bs =>
    if b.toNat < 128 then
      if k = 0 ∧ lastMax < b.toNat then .error .deserializeBadVarint else .ok (b.toNat, bs)
    else
      (decodeVarint lastMax k bs).map fun r => (b.toNat % 128 + 128 * r.1, r.2)

theorem decodeVarint_encodeVarint (lastMax : ℕ) (rest : List UInt8) :
    ∀ k v, v < 128 ^ k * (lastMax + 1) → v < 128 ^ (k + 1) →
      decodeVarint lastMax (k + 1) (encodeVarint (k + 1) v ++ rest) = .ok (v, rest)
  | 0, v, hv, hv' => by
      have hlt : v < 128 := by simpa using hv'
      have hb : v.toUInt8.toNat = v := by simp; omega
      simp only [pow_zero, one_mul] at hv
      simp [encodeVarint, decodeVarint, hlt, hb]
      omega
  | k + 1, v, hv, hv' => by
      by_cases hlt : v < 128
      · have hb : v.toUInt8.toNat = v := by simp; omega
        simp [encodeVarint, decodeVarint, hlt, hb]
      · have hb : (v % 128 + 128).toUInt8.toNat = v % 128 + 128 := by simp; omega
        have ih := decodeVarint_encodeVarint lastMax rest k (v / 128)
          (Nat.div_lt_of_lt_mul (by rw [← mul_assoc, mul_comm 128, ← pow_succ]; exact hv))
          (Nat.div_lt_of_lt_mul (by rw [mul_comm, ← pow_succ]; exact hv'))
        rw [encodeVarint, if_neg hlt, List.cons_append, decodeVarint, hb, if_neg (by omega), ih]
        simp only [Except.map, Except.ok.injEq, Prod.mk.injEq, and_true]
        omega

theorem encodeVarint_length_le : ∀ k v, (encodeVarint k v).length ≤ k
  | 0, _ => le_refl 0
  | k + 1, v => by
      have ih := encodeVarint_length_le k (v / 128)
      rw [encodeVarint]
      split
      · exact Nat.le_add_left 1 k
      · rw [List.length_cons]
        omega

/-- The number of groups of a value that fits into them. -/
theorem length_encodeVarint : ∀ {k v : ℕ}, v < 128 ^ (k + 1) → (encodeVarint (k + 1) v).length = Nat.log 128 v + 1
  | 0, v, hv => by
      have hlt : v < 128 := by simpa using hv
      rw [encodeVarint, if_pos hlt, Nat.log_of_lt hlt]
      rfl
  | k + 1, v, hv => by
      by_cases hlt : v < 128
      · rw [encodeVarint, if_pos hlt, Nat.log_of_lt hlt]
        rfl
      · have hdiv : v / 128 < 128 ^ (k + 1) := Nat.div_lt_of_lt_mul (by rw [mul_comm, ← pow_succ]; exact hv)
        have hlog : 0 < Nat.log 128 v := Nat.log_pos (by norm_num) (by omega)
        rw [encodeVarint, if_neg hlt, List.length_cons, length_encodeVarint hdiv, Nat.log_div_base]
        omega

/-- An unsigned integer of `bits` bits. -/
def varint (bits : ℕ) : Codec ℕ where
  encode v := encodeVarint (varintMax bits) v
  decode := decodeVarint (maxOfLastByte bits) (varintMax bits)

theorem varint_lossless {bits : ℕ} (h : bits % 7 ≠ 0) : (varint bits).Lossless (· < 2 ^ bits) := by
  intro v hv rest
  have hk : varintMax bits = bits / 7 + 1 := by unfold varintMax; omega
  have hpos : 0 < 2 ^ (bits % 7) := Nat.two_pow_pos _
  have hbits : (2 : ℕ) ^ bits = 128 ^ (bits / 7) * 2 ^ (bits % 7) := by
    rw [show (128 : ℕ) = 2 ^ 7 by norm_num, ← pow_mul, ← pow_add, Nat.div_add_mod]
  simp only [varint, hk]
  refine decodeVarint_encodeVarint _ rest _ v ?_ ?_
  · rw [maxOfLastByte, Nat.sub_add_cancel hpos, ← hbits]; exact hv
  · refine lt_of_lt_of_le hv ?_
    rw [show (128 : ℕ) = 2 ^ 7 by norm_num, ← pow_mul]
    exact Nat.pow_le_pow_right (by norm_num) (by omega)

def u16 : Codec UInt16 := (varint 16).map Nat.toUInt16 UInt16.toNat

def u32 : Codec UInt32 := (varint 32).map Nat.toUInt32 UInt32.toNat

def u64 : Codec UInt64 := (varint 64).map Nat.toUInt64 UInt64.toNat

/-- `usize` on a 64-bit target. -/
def usize : Codec ℕ := varint 64

theorem u16_lossless : u16.Lossless fun _ => True :=
  (varint_lossless (by decide)).map (fun v _ => v.toNat_lt) fun v _ => by simp [Nat.toUInt16]

theorem u32_lossless : u32.Lossless fun _ => True :=
  (varint_lossless (by decide)).map (fun v _ => v.toNat_lt) fun v _ => by simp [Nat.toUInt32]

theorem u64_lossless : u64.Lossless fun _ => True :=
  (varint_lossless (by decide)).map (fun v _ => v.toNat_lt) fun v _ => by simp [Nat.toUInt64]

theorem usize_lossless : usize.Lossless (· < 2 ^ 64) := varint_lossless (by decide)

/-- A byte stands for itself. -/
def u8 : Codec UInt8 where
  encode v := [v]
  decode
    | [] => .error .deserializeUnexpectedEnd
    | b :: bs => .ok (b, bs)

theorem u8_lossless : u8.Lossless fun _ => True := fun _ _ _ => rfl

/-! ### Byte strings and text -/

/-- `try_take_n`. -/
def takeN (n : ℕ) : Decoder (List UInt8) := fun bs =>
  if n ≤ bs.length then .ok (bs.take n, bs.drop n) else .error .deserializeUnexpectedEnd

theorem takeN_append (xs rest : List UInt8) : takeN xs.length (xs ++ rest) = .ok (xs, rest) := by
  simp [takeN]

/-- `[u8; n]`. -/
def fixed (n : ℕ) : Codec (List UInt8) where
  encode xs := xs
  decode := takeN n

theorem fixed_lossless (n : ℕ) : (fixed n).Lossless (·.length = n) := by
  rintro xs rfl rest
  exact takeN_append xs rest

/-- A byte string behind its length. -/
def bytes : Codec (List UInt8) where
  encode xs := usize.encode xs.length ++ xs
  decode bs := do
    let (n, bs) ← usize.decode bs
    takeN n bs

theorem bytes_lossless : bytes.Lossless (·.length < 2 ^ 64) := by
  intro xs hxs rest
  simp only [bytes, List.append_assoc, usize_lossless xs.length hxs]
  exact takeN_append xs rest

/-- UTF-8 text behind its length. -/
def string : Codec String where
  encode s := bytes.encode s.toByteArray.data.toList
  decode bs := do
    let (xs, bs) ← bytes.decode bs
    match String.fromUTF8? xs.toByteArray with
    | some s => .ok (s, bs)
    | none => .error .deserializeBadUtf8

theorem string_lossless : string.Lossless (·.toByteArray.size < 2 ^ 64) := by
  intro s hs rest
  have h := bytes_lossless s.toByteArray.data.toList (by simpa using hs) rest
  have hb : s.toByteArray.data.toList.toByteArray = s.toByteArray := by
    ext1
    rw [List.data_toByteArray]
  have hv : String.fromUTF8? s.toByteArray = some s := by
    rw [String.fromUTF8?, dif_pos s.isValidUTF8]
    rfl
  simp only [string, h, bind, Except.bind, hb, hv]

/-! ### Compound values -/

def option (c : Codec α) : Codec (Option α) where
  encode
    | none => [0]
    | some a => 1 :: c.encode a
  decode
    | [] => .error .deserializeUnexpectedEnd
    | b :: bs =>
      if b = 0 then .ok (none, bs)
      else if b = 1 then (c.decode bs).map fun r => (some r.1, r.2)
      else .error .deserializeBadOption

theorem option_lossless {c : Codec α} {ok : α → Prop} (h : c.Lossless ok) :
    (option c).Lossless (fun o => ∀ a ∈ o, ok a) := by
  rintro (_ | a) ho rest
  · rfl
  · simp [option, h a (ho a rfl) rest, Except.map]

def pair (c : Codec α) (d : Codec β) : Codec (α × β) where
  encode p := c.encode p.1 ++ d.encode p.2
  decode bs := do
    let (a, bs) ← c.decode bs
    let (b, bs) ← d.decode bs
    .ok ((a, b), bs)

theorem pair_lossless {c : Codec α} {d : Codec β} {ok : α → Prop} {ok' : β → Prop}
    (hc : c.Lossless ok) (hd : d.Lossless ok') :
    (pair c d).Lossless (fun p => ok p.1 ∧ ok' p.2) := by
  rintro ⟨a, b⟩ ⟨ha, hb⟩ rest
  simp only [pair, List.append_assoc, hc a ha, hd b hb, bind, Except.bind]

/-- `n` values in a row. -/
def decodeN (c : Codec α) : ℕ → Decoder (List α)
  | 0, bs => .ok ([], bs)
  | n + 1, bs => do
    let (a, bs) ← c.decode bs
    let (as, bs) ← decodeN c n bs
    .ok (a :: as, bs)

theorem decodeN_append {c : Codec α} {ok : α → Prop} (h : c.Lossless ok) (rest : List UInt8) :
    ∀ as : List α, (∀ a ∈ as, ok a) →
      decodeN c as.length ((as.map c.encode).flatten ++ rest) = .ok (as, rest)
  | [], _ => rfl
  | a :: as, hok => by
      have ih := decodeN_append h rest as fun b hb => hok b (List.mem_cons_of_mem _ hb)
      simp only [List.map_cons, List.flatten_cons, List.append_assoc, List.length_cons, decodeN,
        h a (hok a (List.mem_cons_self ..)), bind, Except.bind, ih]

/-- A list behind its length. -/
def list (c : Codec α) : Codec (List α) where
  encode as := usize.encode as.length ++ (as.map c.encode).flatten
  decode bs := do
    let (n, bs) ← usize.decode bs
    decodeN c n bs

theorem list_lossless {c : Codec α} {ok : α → Prop} (h : c.Lossless ok) :
    (list c).Lossless (fun as => as.length < 2 ^ 64 ∧ ∀ a ∈ as, ok a) := by
  rintro as ⟨hlen, hok⟩ rest
  simp only [list, List.append_assoc, usize_lossless as.length hlen, bind, Except.bind]
  exact decodeN_append h rest as hok

/-! ### Encoding again -/

/-- What was decoded is encoded in no more bytes than it was decoded from. -/
def Codec.Minimal (c : Codec α) : Prop :=
  ∀ bs a rest, c.decode bs = .ok (a, rest) → (c.encode a).length + rest.length ≤ bs.length

theorem length_encodeVarint_mono : ∀ {k v w : ℕ}, v ≤ w → (encodeVarint k v).length ≤ (encodeVarint k w).length
  | 0, _, _, _ => le_refl 0
  | k + 1, v, w, h => by
      have ih : (encodeVarint k (v / 128)).length ≤ (encodeVarint k (w / 128)).length :=
        length_encodeVarint_mono (Nat.div_le_div_right h)
      rw [encodeVarint, encodeVarint]
      by_cases hw : w < 128
      · rw [if_pos hw, if_pos (h.trans_lt hw)]
        rfl
      · rw [if_neg hw, List.length_cons]
        split
        · exact Nat.le_add_left 1 _
        · rw [List.length_cons]
          exact Nat.succ_le_succ ih

theorem decodeVarint_minimal (lastMax : ℕ) : ∀ k bs v rest, decodeVarint lastMax k bs = .ok (v, rest) →
    (encodeVarint k v).length + rest.length ≤ bs.length
  | 0, _, _, _, h => by cases h
  | k + 1, [], _, _, h => by cases h
  | k + 1, b :: bs, v, rest, h => by
      rw [decodeVarint] at h
      split at h
      · next hlt =>
          split at h
          · cases h
          · cases h
            rw [encodeVarint, if_pos hlt, List.length_cons]
            exact le_of_eq (Nat.add_comm 1 _)
      · obtain ⟨r, hrec, heq⟩ := map_eq_ok h
        cases heq
        have ih := decodeVarint_minimal lastMax k bs r.1 r.2 hrec
        have hdiv : (b.toNat % 128 + 128 * r.1) / 128 = r.1 := by omega
        rw [encodeVarint, hdiv, List.length_cons]
        split
        · rw [List.length_singleton]
          omega
        · rw [List.length_cons]
          omega

theorem varint_minimal (bits : ℕ) : (varint bits).Minimal := decodeVarint_minimal _ _

/-- The same format for another type, if the other type needs no more bytes for a decoded value. -/
theorem Codec.Minimal.map {c : Codec α} (h : c.Minimal) {f : α → β} {g : β → α}
    (hle : ∀ bs a rest, c.decode bs = .ok (a, rest) → (c.encode (g (f a))).length ≤ (c.encode a).length) :
    (c.map f g).Minimal := by
  intro bs b rest hdecode
  obtain ⟨r, hc, heq⟩ := map_eq_ok hdecode
  cases heq
  exact (Nat.add_le_add_right (hle bs r.1 r.2 hc) _).trans (h bs r.1 r.2 hc)

theorem u16_minimal : u16.Minimal :=
  (varint_minimal 16).map fun _ v _ _ => length_encodeVarint_mono (by simpa using Nat.mod_le v _)

theorem u32_minimal : u32.Minimal :=
  (varint_minimal 32).map fun _ v _ _ => length_encodeVarint_mono (by simpa using Nat.mod_le v _)

theorem u8_minimal : u8.Minimal := by
  intro bs a rest h
  cases bs with
  | nil => cases h
  | cons b bs =>
      cases h
      exact le_of_eq (Nat.add_comm 1 _)

/-- An array of `n` bytes for a type whose values have `n` bytes. -/
theorem fixed_map_minimal {n : ℕ} {f : List UInt8 → β} {g : β → List UInt8} (hg : ∀ b, (g b).length = n) :
    ((fixed n).map f g).Minimal := by
  intro bs b rest h
  simp only [Codec.map, fixed, takeN] at h
  split at h
  · next hle =>
      cases h
      simp only [Codec.map, fixed, hg, List.length_drop]
      omega
  · cases h

theorem pair_minimal {c : Codec α} {d : Codec β} (hc : c.Minimal) (hd : d.Minimal) : (pair c d).Minimal := by
  intro bs p rest h
  obtain ⟨r, hfst, h⟩ := bind_eq_ok h
  obtain ⟨q, hsnd, h⟩ := bind_eq_ok h
  cases h
  have hleft := hc bs r.1 r.2 hfst
  have hright := hd r.2 q.1 q.2 hsnd
  simp only [pair, List.length_append]
  omega

theorem decodeN_minimal {c : Codec α} (h : c.Minimal) : ∀ n bs as rest, decodeN c n bs = .ok (as, rest) →
    as.length = n ∧ (as.map c.encode).flatten.length + rest.length ≤ bs.length
  | 0, _, _, _, hdecode => by
      cases hdecode
      exact ⟨rfl, le_of_eq (Nat.zero_add _)⟩
  | n + 1, bs, as, rest, hdecode => by
      obtain ⟨r, hfst, hdecode⟩ := bind_eq_ok hdecode
      obtain ⟨q, hrest, hdecode⟩ := bind_eq_ok hdecode
      cases hdecode
      obtain ⟨hlen, hle⟩ := decodeN_minimal h n r.2 q.1 q.2 hrest
      have hone := h bs r.1 r.2 hfst
      refine ⟨by rw [List.length_cons, hlen], ?_⟩
      rw [List.map_cons, List.flatten_cons, List.length_append]
      omega

theorem list_minimal {c : Codec α} (h : c.Minimal) : (list c).Minimal := by
  intro bs as rest hdecode
  obtain ⟨r, hn, hdecode⟩ := bind_eq_ok hdecode
  obtain ⟨hlen, hle⟩ := decodeN_minimal h r.1 r.2 as rest hdecode
  have hcount := varint_minimal 64 bs r.1 r.2 hn
  have hsame : usize.encode as.length = (varint 64).encode r.1 := by rw [hlen]; rfl
  simp only [list, List.length_append, hsame]
  omega

end Postcard
