import SeedNet.Digits
import SeedNet.PeersSnapshot
import SeedNet.Utf8

/-! # Identifiers as text

`Display` and `FromStr` of `PeerId` and `InfoHash` (`crates/common/src/types.rs`) over one decoder, `hex_decode`.
The decoder looks at the UTF-8 bytes of the string two at a time.

`identifier_text`: what is read are exactly the strings of hexadecimal digits of the right length, what is read is
shown again as the string in lower case, what is shown is read again, and which of the three errors any other string
has. -/

namespace SeedNet

open Digits (IsDigit isDigit_digitChar toNat_lt_of_isDigit)
open Results (map_eq_ok)

/-- The variants of `seednet_common::Error` that the decoder and the identifiers return. -/
inductive TextError where
  | invalidHexLength (len : ℕ)
  | invalidHexChar (c : Char)
  | invalidInfoHashLen (len : ℕ)
  | invalidPeerIdLen (len : ℕ)
deriving DecidableEq, Repr

/-! ### The decoder -/

def hexVal (c : UInt8) : Except TextError UInt8 :=
  if 48 ≤ c ∧ c ≤ 57 then .ok (c - 48)
  else if 97 ≤ c ∧ c ≤ 102 then .ok (c - 97 + 10)
  else if 65 ≤ c ∧ c ≤ 70 then .ok (c - 65 + 10)
  else .error (.invalidHexChar (Char.ofNat c.toNat))

/-- The loop over `chunks_exact(2)`. -/
def hexPairs : Bytes → Except TextError Bytes
  | hi :: lo :: rest => do
    let hi ← hexVal hi
    let lo ← hexVal lo
    let out ← hexPairs rest
    return (hi <<< 4 ||| lo) :: out
  | _ => .ok []

def hexDecode (s : String) : Except TextError Bytes :=
  if s.utf8ByteSize % 2 ≠ 0 then .error (.invalidHexLength s.utf8ByteSize)
  else hexPairs s.toByteArray.data.toList

/-- An array of `len` bytes from text. -/
def arrayFromStr (len : ℕ) (wrongLen : ℕ → TextError) (s : String) :
    Except TextError { bytes : Bytes // bytes.length = len } := do
  let bytes ← hexDecode s
  if h : bytes.length = len then return ⟨bytes, h⟩
  else throw (wrongLen bytes.length)

/-! ### The identifiers -/

/-- The length of a SHA-1. -/
def infohashLen : ℕ := 20

/-- The info-hash of a network, under which its peers find each other. -/
structure InfoHash where
  bytes : Bytes
  length_eq : bytes.length = infohashLen
deriving DecidableEq

def InfoHash.display (hash : InfoHash) : String := hex hash.bytes

def InfoHash.fromStr (s : String) : Except TextError InfoHash :=
  (arrayFromStr infohashLen .invalidInfoHashLen s).map fun a => ⟨a.1, a.2⟩

def PeerId.fromStr (s : String) : Except TextError PeerId :=
  (arrayFromStr publicKeyLen .invalidPeerIdLen s).map fun a => .fromBytes ⟨a.1, a.2⟩

/-! ### Hexadecimal digits -/

/-- The byte of a hexadecimal digit. -/
def IsHexByte (b : UInt8) : Prop := IsDigit (Char.ofNat b.toNat)

instance (b : UInt8) : Decidable (IsHexByte b) := inferInstanceAs (Decidable (IsDigit _))

/-- What holds of every number below 256 holds of every byte. -/
theorem forall_byte {p : UInt8 → Prop} (h : ∀ n < 256, p (UInt8.ofNat n)) (b : UInt8) : p b := by
  have hb := h b.toNat b.toNat_lt
  rwa [UInt8.ofNat_toNat] at hb

/-- The value of a digit, which is shown again as the digit in lower case. -/
theorem hexVal_ok : ∀ b, IsHexByte b →
    ∃ v < 16, hexVal b = .ok (UInt8.ofNat v) ∧ Nat.digitChar v = (Char.ofNat b.toNat).toLower :=
  forall_byte (by decide +kernel)

theorem hexVal_error : ∀ b, ¬ IsHexByte b → hexVal b = .error (.invalidHexChar (Char.ofNat b.toNat)) :=
  forall_byte (by decide +kernel)

theorem hexVal_digitChar : ∀ v < 16, hexVal (Nat.digitChar v).toNat.toUInt8 = .ok (UInt8.ofNat v) := by decide +kernel

/-- The digits of the byte that two values make up. -/
theorem shiftLeft_or : ∀ hi < 16, ∀ lo < 16,
    (UInt8.ofNat hi <<< 4 ||| UInt8.ofNat lo).toNat = 16 * hi + lo := by
  decide +kernel

theorem toNat_lt_of_isHexByte : ∀ b, IsHexByte b → b.toNat < 128 := forall_byte (by decide +kernel)

theorem isHexByte_iff (c : Char) : c.toNat < 128 ∧ IsHexByte c.toNat.toUInt8 ↔ IsDigit c := by
  have hascii (h : c.toNat < 128) : IsHexByte c.toNat.toUInt8 ↔ IsDigit c := by
    rw [IsHexByte, Nat.toUInt8_eq, UInt8.toNat_ofNat', Nat.mod_eq_of_lt (by omega), Char.ofNat_toNat]
  refine ⟨fun ⟨h, hb⟩ => (hascii h).mp hb, fun h => ?_⟩
  have hlt := toNat_lt_of_isDigit h
  exact ⟨hlt, (hascii hlt).mpr h⟩

/-- The bytes of a string are hexadecimal digits if its characters are. -/
theorem isHexByte_bytes_iff (s : String) :
    (∀ b ∈ Utf8.bytes s.toList, IsHexByte b) ↔ ∀ c ∈ s.toList, IsDigit c := by
  rw [Utf8.forall_bytes_iff toNat_lt_of_isHexByte]
  exact forall₂_congr fun c _ => isHexByte_iff c

/-! ### Pairs of digits -/

/-- `{:02x}`. -/
def byteDigits (b : UInt8) : List Char := [Nat.digitChar (b.toNat / 16), Nat.digitChar (b.toNat % 16)]

theorem toList_hex (bs : Bytes) : (hex bs).toList = bs.flatMap byteDigits := String.toList_ofList

/-- Digits are read as bytes, which are shown again as the digits in lower case. -/
theorem hexPairs_ok {bs : Bytes} (heven : bs.length % 2 = 0) (h : ∀ b ∈ bs, IsHexByte b) :
    ∃ out, hexPairs bs = .ok out ∧ 2 * out.length = bs.length ∧
      out.flatMap byteDigits = bs.map fun b => (Char.ofNat b.toNat).toLower := by
  induction bs using hexPairs.induct with
  | case1 hi lo rest ih =>
      obtain ⟨x, hx, hhi, hxlower⟩ := hexVal_ok hi (h hi List.mem_cons_self)
      obtain ⟨y, hy, hlo, hylower⟩ := hexVal_ok lo (h lo (List.mem_cons_of_mem hi List.mem_cons_self))
      have hlen : rest.length % 2 = 0 := by
        rw [List.length_cons, List.length_cons] at heven
        omega
      obtain ⟨out, hrest, hout, hdigits⟩ :=
        ih hlen fun b hb => h b (List.mem_cons_of_mem hi (List.mem_cons_of_mem lo hb))
      refine ⟨(UInt8.ofNat x <<< 4 ||| UInt8.ofNat y) :: out, ?_, ?_, ?_⟩
      · simp only [hexPairs, hhi, hlo, hrest]
        rfl
      · rw [List.length_cons, List.length_cons, List.length_cons]
        omega
      · have hbyte : byteDigits (UInt8.ofNat x <<< 4 ||| UInt8.ofNat y) = [Nat.digitChar x, Nat.digitChar y] := by
          rw [byteDigits, shiftLeft_or x hx y hy]
          congr 2 <;> first | omega | (congr 1; omega)
        rw [List.flatMap_cons, hbyte, hdigits, hxlower, hylower]
        rfl
  | case2 bs hnot =>
      cases bs with
      | nil => exact ⟨[], rfl, rfl, rfl⟩
      | cons b bs =>
          cases bs with
          | nil => cases heven
          | cons c bs => exact absurd rfl (hnot b c bs)

/-- The first byte that is not a digit is reported. -/
theorem hexPairs_error {bs : Bytes} (heven : bs.length % 2 = 0) {b : UInt8}
    (h : bs.find? (fun b => ¬ IsHexByte b) = some b) :
    hexPairs bs = .error (.invalidHexChar (Char.ofNat b.toNat)) := by
  induction bs using hexPairs.induct with
  | case1 hi lo rest ih =>
      have hlen : rest.length % 2 = 0 := by
        rw [List.length_cons, List.length_cons] at heven
        omega
      by_cases hhi : IsHexByte hi
      · obtain ⟨x, -, hx, -⟩ := hexVal_ok hi hhi
        rw [List.find?_cons_of_neg (by simpa using hhi)] at h
        by_cases hlo : IsHexByte lo
        · obtain ⟨y, -, hy, -⟩ := hexVal_ok lo hlo
          rw [List.find?_cons_of_neg (by simpa using hlo)] at h
          simp only [hexPairs, hx, hy, ih hlen h]
          rfl
        · rw [List.find?_cons_of_pos (by simpa using hlo), Option.some.injEq] at h
          subst h
          simp only [hexPairs, hx, hexVal_error lo hlo]
          rfl
      · rw [List.find?_cons_of_pos (by simpa using hhi), Option.some.injEq] at h
        subst h
        simp only [hexPairs, hexVal_error hi hhi]
        rfl
  | case2 bs hnot =>
      cases bs with
      | nil => cases h
      | cons b bs =>
          cases bs with
          | nil => cases heven
          | cons c bs => exact absurd rfl (hnot b c bs)

/-- What is shown of bytes is read as these bytes. -/
theorem hexPairs_digits (bs : Bytes) : hexPairs ((bs.flatMap byteDigits).map fun c => c.toNat.toUInt8) = .ok bs := by
  induction bs with
  | nil => rfl
  | cons b bs ih =>
      have hb := b.toNat_lt
      have hhi := hexVal_digitChar (b.toNat / 16) (by omega)
      have hlo := hexVal_digitChar (b.toNat % 16) (by omega)
      have hbyte : UInt8.ofNat (b.toNat / 16) <<< 4 ||| UInt8.ofNat (b.toNat % 16) = b := by
        apply UInt8.toNat_inj.mp
        rw [shiftLeft_or _ (by omega) _ (by omega)]
        omega
      have hcons : ((b :: bs).flatMap byteDigits).map (fun c => c.toNat.toUInt8) =
          (Nat.digitChar (b.toNat / 16)).toNat.toUInt8 :: (Nat.digitChar (b.toNat % 16)).toNat.toUInt8 ::
            (bs.flatMap byteDigits).map (fun c => c.toNat.toUInt8) := rfl
      rw [hcons, hexPairs, hhi, hlo, ih]
      exact congrArg (fun x => Except.ok (x :: bs)) hbyte

theorem isDigit_of_mem_digits {bs : Bytes} {c : Char} (h : c ∈ bs.flatMap byteDigits) : IsDigit c := by
  obtain ⟨b, -, hc⟩ := List.mem_flatMap.mp h
  have hb := b.toNat_lt
  rcases List.mem_pair.mp hc with rfl | rfl
  · exact isDigit_digitChar _ (by omega)
  · exact isDigit_digitChar _ (by omega)

theorem length_digits (bs : Bytes) : (bs.flatMap byteDigits).length = 2 * bs.length := by
  induction bs with
  | nil => rfl
  | cons b bs ih =>
      rw [List.flatMap_cons, List.length_append, ih, List.length_cons, byteDigits, List.length_cons,
        List.length_singleton]
      omega

/-! ### Strings -/

theorem bytes_of_isDigit {t : List Char} (h : ∀ c ∈ t, IsDigit c) :
    Utf8.bytes t = t.map fun c => c.toNat.toUInt8 := Utf8.bytes_ascii fun c hc => toNat_lt_of_isDigit (h c hc)

/-- A string of digits has as many bytes as characters. -/
theorem utf8ByteSize_of_isDigit {s : String} (h : ∀ c ∈ s.toList, IsDigit c) : s.utf8ByteSize = s.length := by
  rw [← Utf8.length_bytes, bytes_of_isDigit h, List.length_map, String.length_toList]

theorem hexDecode_odd {s : String} (h : s.utf8ByteSize % 2 = 1) :
    hexDecode s = .error (.invalidHexLength s.utf8ByteSize) := by
  rw [hexDecode, if_pos (by omega)]

theorem hexDecode_even {s : String} (h : s.utf8ByteSize % 2 = 0) : hexDecode s = hexPairs (Utf8.bytes s.toList) := by
  rw [hexDecode, if_neg (not_not.mpr h), Utf8.data_toByteArray]

theorem hexDecode_badChar {s : String} (heven : s.utf8ByteSize % 2 = 0)
    (h : ∃ b ∈ Utf8.bytes s.toList, ¬ IsHexByte b) :
    ∃ b, (Utf8.bytes s.toList).find? (fun b => ¬ IsHexByte b) = some b ∧
      hexDecode s = .error (.invalidHexChar (Char.ofNat b.toNat)) := by
  have hfound : ((Utf8.bytes s.toList).find? fun b => ¬ IsHexByte b).isSome = true := by
    simpa only [List.find?_isSome, decide_eq_true_eq] using h
  obtain ⟨b, hb⟩ := Option.isSome_iff_exists.mp hfound
  rw [← Utf8.length_bytes] at heven
  refine ⟨b, hb, ?_⟩
  rw [hexDecode_even (Utf8.length_bytes s ▸ heven)]
  exact hexPairs_error heven hb

/-- What is decoded from digits is shown as the string in lower case. -/
theorem hexDecode_ok {s : String} (heven : s.utf8ByteSize % 2 = 0) (h : ∀ c ∈ s.toList, IsDigit c) :
    ∃ out, hexDecode s = .ok out ∧ 2 * out.length = s.length ∧ hex out = s.map Char.toLower := by
  have hlen : (Utf8.bytes s.toList).length = s.utf8ByteSize := Utf8.length_bytes s
  obtain ⟨out, hout, hsize, hdigits⟩ := hexPairs_ok (hlen ▸ heven) ((isHexByte_bytes_iff s).mpr h)
  refine ⟨out, (hexDecode_even heven).trans hout, ?_, ?_⟩
  · rw [hsize, hlen, utf8ByteSize_of_isDigit h]
  · apply String.toList_inj.mp
    rw [toList_hex, hdigits, bytes_of_isDigit h, List.map_map, String.toList_map]
    refine List.map_congr_left fun c hc => ?_
    have hc := toNat_lt_of_isDigit (h c hc)
    rw [Function.comp_apply, Nat.toUInt8_eq, UInt8.toNat_ofNat', Nat.mod_eq_of_lt (by omega), Char.ofNat_toNat]

theorem hexDecode_hex (bs : Bytes) : hexDecode (hex bs) = .ok bs := by
  have hdigits : ∀ c ∈ (hex bs).toList, IsDigit c := fun c hc => isDigit_of_mem_digits (toList_hex bs ▸ hc)
  have hsize : (hex bs).utf8ByteSize = 2 * bs.length := by
    rw [utf8ByteSize_of_isDigit hdigits, ← String.length_toList, toList_hex, length_digits]
  rw [hexDecode_even (by omega), bytes_of_isDigit hdigits, toList_hex, hexPairs_digits]

/-! ### Identifiers and strings -/

/-- How the texts of an identifier of `len` bytes correspond to strings. -/
structure TextBijection {α : Type} (len : ℕ) (wrongLen : ℕ → TextError) (fromStr : String → Except TextError α)
    (display : α → String) : Prop where
  accepts : ∀ s, (∃ a, fromStr s = .ok a) ↔ s.length = 2 * len ∧ ∀ c ∈ s.toList, IsDigit c
  display_fromStr : ∀ s a, fromStr s = .ok a → display a = s.map Char.toLower
  fromStr_display : ∀ a, fromStr (display a) = .ok a
  oddLength : ∀ s, s.utf8ByteSize % 2 = 1 → fromStr s = .error (.invalidHexLength s.utf8ByteSize)
  /-- The first byte that is not a digit is reported, as the character with its number. -/
  badChar : ∀ s, s.utf8ByteSize % 2 = 0 → (∃ b ∈ Utf8.bytes s.toList, ¬ IsHexByte b) →
    ∃ b, (Utf8.bytes s.toList).find? (fun b => ¬ IsHexByte b) = some b ∧
      fromStr s = .error (.invalidHexChar (Char.ofNat b.toNat))
  wrongLength : ∀ s, s.utf8ByteSize % 2 = 0 → (∀ b ∈ Utf8.bytes s.toList, IsHexByte b) →
    s.utf8ByteSize ≠ 2 * len → fromStr s = .error (wrongLen (s.utf8ByteSize / 2))

section

variable {len : ℕ} {wrongLen : ℕ → TextError} {s : String}

theorem arrayFromStr_error {e : TextError} (h : hexDecode s = .error e) : arrayFromStr len wrongLen s = .error e := by
  rw [arrayFromStr, h]
  rfl

/-- Digits are read as an array exactly if there are enough of them. -/
theorem arrayFromStr_digits (wrongLen : ℕ → TextError) (heven : s.utf8ByteSize % 2 = 0)
    (h : ∀ c ∈ s.toList, IsDigit c) :
    (∃ a, arrayFromStr len wrongLen s = .ok a ∧ s.length = 2 * len ∧ hex a.1 = s.map Char.toLower) ∨
      s.length ≠ 2 * len ∧ arrayFromStr len wrongLen s = .error (wrongLen (s.utf8ByteSize / 2)) := by
  obtain ⟨out, hout, hlen, hlower⟩ := hexDecode_ok heven h
  rw [utf8ByteSize_of_isDigit h]
  by_cases hl : out.length = len
  · refine .inl ⟨⟨out, hl⟩, ?_, by omega, hlower⟩
    rw [arrayFromStr, hout]
    exact dif_pos hl
  · refine .inr ⟨by omega, ?_⟩
    rw [arrayFromStr, hout, ← hlen, Nat.mul_div_cancel_left _ (by omega)]
    exact dif_neg hl

/-- A string that is read as an array consists of digits. -/
theorem isDigit_of_arrayFromStr {a : { bytes : Bytes // bytes.length = len }}
    (h : arrayFromStr len wrongLen s = .ok a) :
    s.utf8ByteSize % 2 = 0 ∧ ∀ c ∈ s.toList, IsDigit c := by
  have heven : s.utf8ByteSize % 2 = 0 := by
    by_contra hodd
    rw [arrayFromStr_error (hexDecode_odd (by omega))] at h
    cases h
  refine ⟨heven, (isHexByte_bytes_iff s).mp ?_⟩
  by_contra hbad
  obtain ⟨b, -, herr⟩ := hexDecode_badChar heven (by simpa only [not_forall, exists_prop] using hbad)
  rw [arrayFromStr_error herr] at h
  cases h

end

theorem textBijection_arrayFromStr (len : ℕ) (wrongLen : ℕ → TextError) :
    TextBijection len wrongLen (arrayFromStr len wrongLen) fun a => hex a.1 where
  accepts s := by
    constructor
    · rintro ⟨a, ha⟩
      obtain ⟨heven, hdigits⟩ := isDigit_of_arrayFromStr ha
      rcases arrayFromStr_digits wrongLen heven hdigits with ⟨-, -, hlen, -⟩ | ⟨-, herr⟩
      · exact ⟨hlen, hdigits⟩
      · rw [herr] at ha
        cases ha
    · rintro ⟨hlen, hdigits⟩
      have heven : s.utf8ByteSize % 2 = 0 := by
        rw [utf8ByteSize_of_isDigit hdigits]
        omega
      rcases arrayFromStr_digits wrongLen heven hdigits with ⟨a, ha, -, -⟩ | ⟨hne, -⟩
      · exact ⟨a, ha⟩
      · exact absurd hlen hne
  display_fromStr s a ha := by
    obtain ⟨heven, hdigits⟩ := isDigit_of_arrayFromStr ha
    rcases arrayFromStr_digits wrongLen heven hdigits with ⟨a', ha', -, hlower⟩ | ⟨-, herr⟩
    · rw [ha] at ha'
      cases ha'
      exact hlower
    · rw [herr] at ha
      cases ha
  fromStr_display a := by
    rw [arrayFromStr, hexDecode_hex]
    exact dif_pos a.2
  oddLength s hodd := arrayFromStr_error (hexDecode_odd hodd)
  badChar s heven hbad := by
    obtain ⟨b, hb, herr⟩ := hexDecode_badChar heven hbad
    exact ⟨b, hb, arrayFromStr_error herr⟩
  wrongLength s heven hhex hlen := by
    have hdigits := (isHexByte_bytes_iff s).mp hhex
    rw [utf8ByteSize_of_isDigit hdigits] at hlen
    rcases arrayFromStr_digits wrongLen heven hdigits with ⟨-, -, hlen', -⟩ | ⟨-, herr⟩
    · exact absurd hlen' hlen
    · exact herr

/-- A type with the same values has the same texts. -/
theorem TextBijection.map {α β : Type} {len : ℕ} {wrongLen : ℕ → TextError} {fromStr : String → Except TextError α}
    {display : α → String} (h : TextBijection len wrongLen fromStr display) (e : α ≃ β) :
    TextBijection len wrongLen (fun s => (fromStr s).map e) fun b => display (e.symm b) where
  accepts s := by
    rw [← h.accepts s]
    constructor
    · rintro ⟨b, hb⟩
      obtain ⟨a, ha, -⟩ := map_eq_ok hb
      exact ⟨a, ha⟩
    · rintro ⟨a, ha⟩
      exact ⟨e a, by rw [ha]; rfl⟩
  display_fromStr s b hb := by
    obtain ⟨a, ha, rfl⟩ := map_eq_ok hb
    rw [e.symm_apply_apply]
    exact h.display_fromStr s a ha
  fromStr_display b := by
    rw [h.fromStr_display]
    exact congrArg Except.ok (e.apply_symm_apply b)
  oddLength s hodd := by rw [h.oddLength s hodd]; rfl
  badChar s heven hbad := by
    obtain ⟨b, hb, herr⟩ := h.badChar s heven hbad
    exact ⟨b, hb, by rw [herr]; rfl⟩
  wrongLength s heven hhex hlen := by rw [h.wrongLength s heven hhex hlen]; rfl

/-- A peer id is an array. -/
def PeerId.ofArray : { bytes : Bytes // bytes.length = publicKeyLen } ≃ PeerId where
  toFun a := .fromBytes ⟨a.1, a.2⟩
  invFun id := ⟨id.asBytes, id.bytes.length_eq⟩
  left_inv _ := rfl
  right_inv _ := rfl

/-- An info-hash is an array. -/
def InfoHash.ofArray : { bytes : Bytes // bytes.length = infohashLen } ≃ InfoHash where
  toFun a := ⟨a.1, a.2⟩
  invFun hash := ⟨hash.bytes, hash.length_eq⟩
  left_inv _ := rfl
  right_inv _ := rfl

/-- **The text of an identifier is the identifier**, up to the case of its letters: strings of 64 digits are the
peer ids, and strings of 40 digits the info-hashes. -/
theorem identifier_text :
    TextBijection publicKeyLen .invalidPeerIdLen PeerId.fromStr PeerId.display ∧
      TextBijection infohashLen .invalidInfoHashLen InfoHash.fromStr InfoHash.display :=
  ⟨(textBijection_arrayFromStr publicKeyLen .invalidPeerIdLen).map PeerId.ofArray,
    (textBijection_arrayFromStr infohashLen .invalidInfoHashLen).map InfoHash.ofArray⟩

/-- The length is looked at first, then the digits, then how many they are. -/
example : PeerId.fromStr "zzz" = .error (.invalidHexLength 3) ∧
    PeerId.fromStr "deadzeef" = .error (.invalidHexChar 'z') ∧
    PeerId.fromStr "deadbeef" = .error (.invalidPeerIdLen 4) := by
  decide +kernel

end SeedNet
