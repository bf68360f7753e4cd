import Mathlib.Data.List.TakeWhile
import SeedNet.Digits

/-! # Percent-encoding and query strings

Texts are lists of characters.  `encode keep` writes the bytes that `keep` holds of as characters and escapes the
others; `decode` reads both.  A query is a list of fields: `render` joins them and `fields` takes them apart.

* `decode_encode`: bytes are read back, whichever of them are escaped, as long as no percent sign is kept.
* `fields_render`: fields are read back if no separator is in them; `read` also decodes their values.
* `query_append`: the query of an address with a query is what follows the question mark. -/

namespace PercentEncoding

open Digits (IsDigit value)

/-! ### Bytes -/

/-- A hexadecimal digit, in upper case. -/
def upperDigit (v : ℕ) : Char := (Nat.digitChar v).toUpper

/-- `%XX`. -/
def escape (b : UInt8) : List Char := ['%', upperDigit (b.toNat / 16), upperDigit (b.toNat % 16)]

/-- The character with the code of the byte. -/
def character (b : UInt8) : Char := Char.ofNat b.toNat

def encode (keep : UInt8 → Bool) (bytes : List UInt8) : List Char :=
  bytes.flatMap fun b => if keep b then [character b] else escape b

/-- The bytes that a text stands for, if every percent sign has two digits behind it. -/
def decode : List Char → Option (List UInt8)
  | [] => some []
  | c :: t =>
    if c = '%' then
      match t with
      | a :: b :: rest =>
        if IsDigit a ∧ IsDigit b then (decode rest).map ((value a * 16 + value b).toUInt8 :: ·) else none
      | _ => none
    else (decode t).map (c.toNat.toUInt8 :: ·)

theorem decode_cons_of_ne {c : Char} (hc : c ≠ '%') (t : List Char) :
    decode (c :: t) = (decode t).map (c.toNat.toUInt8 :: ·) := by
  rw [decode.eq_def]
  exact if_neg hc

theorem isDigit_upperDigit : ∀ v < 16, IsDigit (upperDigit v) := by decide

theorem value_upperDigit : ∀ v < 16, value (upperDigit v) = v := by decide

/-- An escaped byte is read back. -/
theorem decode_escape (b : UInt8) (t : List Char) : decode (escape b ++ t) = (decode t).map (b :: ·) := by
  have hb : b.toNat < 256 := b.toNat_lt
  have hhigh : b.toNat / 16 < 16 := by omega
  have hlow : b.toNat % 16 < 16 := Nat.mod_lt _ (by decide)
  have hbyte : (b.toNat / 16 * 16 + b.toNat % 16).toUInt8 = b := by
    rw [Nat.div_add_mod', Nat.toUInt8_eq, UInt8.ofNat_toNat]
  simp only [escape, List.cons_append, List.nil_append, decode, if_true, isDigit_upperDigit _ hhigh,
    isDigit_upperDigit _ hlow, and_self, value_upperDigit _ hhigh, value_upperDigit _ hlow, hbyte]

theorem toNat_character (b : UInt8) : (character b).toNat = b.toNat := by
  have hvalid : b.toNat.isValidChar := .inl (Nat.lt_trans b.toNat_lt (by decide))
  rw [character, Char.ofNat, dif_pos hvalid]
  rfl

theorem eq_of_character {b : UInt8} {c : Char} (h : character b = c) : b = c.toNat.toUInt8 := by
  rw [← h, toNat_character, Nat.toUInt8_eq, UInt8.ofNat_toNat]

/-- A byte that is written as a character is read back. -/
theorem decode_character {b : UInt8} (hb : character b ≠ '%') (t : List Char) :
    decode (character b :: t) = (decode t).map (b :: ·) := by
  rw [decode_cons_of_ne hb, ← eq_of_character rfl]

theorem decode_encode {keep : UInt8 → Bool} (hkeep : ∀ b, keep b = true → character b ≠ '%') (bytes : List UInt8) :
    decode (encode keep bytes) = some bytes := by
  induction bytes with
  | nil => rfl
  | cons b bytes ih =>
      rw [encode] at ih
      rw [encode, List.flatMap_cons]
      split
      · next h => rw [List.singleton_append, decode_character (hkeep b h), ih, Option.map_some]
      · rw [decode_escape, ih, Option.map_some]

/-- A text without percent signs stands for its characters. -/
theorem decode_of_notMem {t : List Char} (h : '%' ∉ t) : decode t = some (t.map fun c => c.toNat.toUInt8) := by
  induction t with
  | nil => rfl
  | cons c t ih =>
      obtain ⟨hc, ht⟩ := not_or.mp (List.mem_cons.not.mp h)
      rw [decode_cons_of_ne (Ne.symm hc), ih ht]
      rfl

/-- What stands before a character that is neither a digit nor a percent sign is read on its own. -/
theorem decode_append_cons {c : Char} (hdigit : ¬ IsDigit c) (hc : c ≠ '%') (a t : List Char) :
    decode (a ++ c :: t) = (decode a).bind fun x => (decode t).map fun y => x ++ c.toNat.toUInt8 :: y := by
  induction a using decode.induct with
  | case1 =>
      rw [List.nil_append, decode_cons_of_ne hc]
      rfl
  | case2 x y rest hdigits ih =>
      simp only [List.cons_append, decode, if_true, hdigits, and_self, ih]
      cases decode rest <;> simp [Function.comp_def]
  | case3 x y rest hdigits => simp only [List.cons_append, decode, if_true, if_neg hdigits, Option.bind_none]
  | case4 rest hshort =>
      match rest, hshort with
      | [], _ =>
          cases t with
          | nil => simp [decode]
          | cons y t => simp [decode, hdigit]
      | [x], _ => simp [decode, hdigit]
      | x :: y :: rest, hshort => exact absurd rfl (hshort x y rest)
  | case5 x rest hx ih =>
      rw [List.cons_append, decode_cons_of_ne hx, decode_cons_of_ne hx, ih]
      cases decode rest <;> simp [Function.comp_def]

/-- A character of an encoded text is kept, a percent sign or a digit. -/
theorem mem_encode {keep : UInt8 → Bool} {bytes : List UInt8} {c : Char} (h : c ∈ encode keep bytes) :
    (∃ b, keep b = true ∧ c = character b) ∨ c = '%' ∨ IsDigit c := by
  obtain ⟨b, -, hc⟩ := List.mem_flatMap.mp h
  split at hc
  · next hkeep => exact .inl ⟨b, hkeep, List.mem_singleton.mp hc⟩
  · have hb : b.toNat < 256 := b.toNat_lt
    simp only [escape, List.mem_cons, List.not_mem_nil, or_false] at hc
    rcases hc with rfl | rfl | rfl
    · exact .inr (.inl rfl)
    · exact .inr (.inr (isDigit_upperDigit _ (by omega)))
    · exact .inr (.inr (isDigit_upperDigit _ (Nat.mod_lt _ (by decide))))

/-! ### Queries -/

/-- A name and a value. -/
abbrev Field := List Char × List Char

def renderField (f : Field) : List Char := f.1 ++ '=' :: f.2

def render (fs : List Field) : List Char := ['&'].intercalate (fs.map renderField)

/-- The name ends at the first `=`. -/
def field (t : List Char) : Field := (t.takeWhile (· ≠ '='), (t.dropWhile (· ≠ '=')).drop 1)

def fields (q : List Char) : List Field := (q.splitOn '&').map field

/-- The names of the fields and what their values stand for. -/
def read (q : List Char) : List (List Char × Option (List UInt8)) := (fields q).map (Prod.map id decode)

/-- No separator is in the name, and no `&` in the value. -/
def Field.Plain (f : Field) : Prop := '=' ∉ f.1 ∧ '&' ∉ f.1 ∧ '&' ∉ f.2

theorem takeWhile_append_of_notMem {c : Char} {a : List Char} (h : c ∉ a) (b : List Char) :
    (a ++ c :: b).takeWhile (· ≠ c) = a := by
  rw [List.takeWhile_append_of_pos fun x hx => decide_eq_true (ne_of_mem_of_not_mem hx h)]
  simp

theorem dropWhile_append_of_notMem {c : Char} {a : List Char} (h : c ∉ a) (b : List Char) :
    (a ++ c :: b).dropWhile (· ≠ c) = c :: b := by
  rw [List.dropWhile_append_of_pos fun x hx => decide_eq_true (ne_of_mem_of_not_mem hx h)]
  simp

theorem field_append {a : List Char} (h : '=' ∉ a) (b : List Char) : field (a ++ '=' :: b) = (a, b) := by
  rw [field, takeWhile_append_of_notMem h, dropWhile_append_of_notMem h]
  rfl

theorem field_renderField {f : Field} (h : f.Plain) : field (renderField f) = f := by
  rw [renderField, field_append h.1]

theorem render_cons {f : Field} {fs : List Field} (h : fs ≠ []) :
    render (f :: fs) = renderField f ++ '&' :: render fs := by
  obtain ⟨g, gs, rfl⟩ := List.exists_cons_of_ne_nil h
  rw [render, List.map_cons, List.map_cons, List.intercalate_cons_cons, List.append_assoc]
  rfl

theorem fields_render {fs : List Field} (hne : fs ≠ []) (h : ∀ f ∈ fs, f.Plain) : fields (render fs) = fs := by
  have hplain : ∀ t ∈ fs.map renderField, '&' ∉ t := by
    intro t ht
    obtain ⟨f, hf, rfl⟩ := List.mem_map.mp ht
    simp only [renderField, List.mem_append, List.mem_cons, not_or]
    exact ⟨(h f hf).2.1, by decide, (h f hf).2.2⟩
  rw [fields, render, List.splitOn_intercalate '&' hplain (by simpa using hne), List.map_map]
  exact (List.map_congr_left fun f hf => field_renderField (h f hf)).trans (List.map_id fs)

theorem fields_append (a b : List Char) : fields (a ++ '&' :: b) = fields a ++ fields b := by
  rw [fields, List.splitOn_append_cons_self, List.map_append]
  rfl

/-- A text with one field has no `&`. -/
theorem fields_of_length {t : List Char} (h : (fields t).length = 1) : fields t = [field t] := by
  rw [fields, List.length_map] at h
  obtain ⟨x, hx⟩ := List.length_eq_one_iff.mp h
  have ht : ['&'].intercalate (t.splitOn '&') = t := List.intercalate_splitOn '&'
  rw [hx, List.intercalate_singleton] at ht
  rw [fields, hx, ht]
  rfl

theorem mem_render {fs : List Field} {c : Char} (h : c ∈ render fs) :
    c = '&' ∨ c = '=' ∨ ∃ f ∈ fs, c ∈ f.1 ∨ c ∈ f.2 := by
  have hfield {f : Field} (h : c ∈ renderField f) : c = '=' ∨ c ∈ f.1 ∨ c ∈ f.2 := by
    simp only [renderField, List.mem_append, List.mem_cons] at h
    tauto
  induction fs with
  | nil => cases h
  | cons f fs ih =>
      cases fs with
      | nil =>
          rw [render, List.map_singleton, List.intercalate_singleton] at h
          exact .inr ((hfield h).imp_right fun hf => ⟨f, List.mem_singleton_self f, hf⟩)
      | cons g fs =>
          rw [render_cons (List.cons_ne_nil g fs), List.mem_append, List.mem_cons] at h
          rcases h with h | h | h
          · exact .inr ((hfield h).imp_right fun hf => ⟨f, List.mem_cons_self, hf⟩)
          · exact .inl h
          · exact (ih h).imp_right fun h => h.imp_right fun ⟨f', hf', hc⟩ => ⟨f', List.mem_cons_of_mem f hf', hc⟩

/-- What is between the first question mark and the fragment of an address. -/
def query (address : List Char) : List Char := ((address.takeWhile (· ≠ '#')).dropWhile (· ≠ '?')).drop 1

theorem query_append {base q : List Char} (hfragment : '#' ∉ base ++ '?' :: q) (hquery : '?' ∉ base) :
    query (base ++ '?' :: q) = q := by
  have hall : (base ++ '?' :: q).takeWhile (· ≠ '#') = base ++ '?' :: q :=
    List.takeWhile_eq_self_iff.mpr fun x hx => decide_eq_true (ne_of_mem_of_not_mem hx hfragment)
  rw [query, hall, dropWhile_append_of_notMem hquery]
  rfl

end PercentEncoding
