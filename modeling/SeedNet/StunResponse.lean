import SeedNet.StunQueries

/-! # Responses to STUN queries

`parse_stun_response` of `crates/nat/src/stun.rs` scans the attributes of a response by position.  `scanAttributes`
is that loop with every index and slice checked, `none` standing for a panic; `scanAttributes_eq` says that no check
ever fails and that it finds what `stunAddress` finds.

A `StunAttribute` is an attribute as it is put on the wire.  `stunAddress_flatMap`: the address of a response is
that of the first attribute that has one, be it `XOR-MAPPED-ADDRESS` or `MAPPED-ADDRESS`.  So a response with one
`XOR-MAPPED-ADDRESS` gives that address in every order of its attributes exactly if no `MAPPED-ADDRESS` in it says
something else (`stun_order_iff`). -/

namespace SeedNet

/-! ### The parser by positions -/

/-- `&buf[i..j]`. -/
def slice (buf : Bytes) (i j : ℕ) : Option Bytes :=
  if i ≤ j ∧ j ≤ buf.length then some ((buf.drop i).take (j - i)) else none

/-- `u16::from_be_bytes(bytes.try_into().unwrap())`. -/
def fromBe16 : Bytes → Option UInt16
  | [a, b] => some (be16 a b).toUInt16
  | _ => none

/-- `u32::from_be_bytes(bytes.try_into().unwrap())`. -/
def fromBe32 : Bytes → Option UInt32
  | [a, b, c, d] => some (be16 a b * 65536 + be16 c d).toUInt32
  | _ => none

/-- `Ipv4Addr::from(u32)`. -/
def ipv4OfBits (ip : UInt32) : Ipv4Addr :=
  ⟨(ip >>> 24).toUInt8, (ip >>> 16).toUInt8, (ip >>> 8).toUInt8, ip.toUInt8⟩

/-- `STUN_MAGIC`. -/
def stunMagicBits : UInt32 := 0x2112A442

/-- The address in an attribute, if it has one. -/
def attributeAddress (attrType : ℕ) (attrLen : ℕ) (value : Bytes) : Option (Option SocketAddr) := do
  let isIpv4 ←
    if (attrType = attrXorMappedAddress ∨ attrType = attrMappedAddress) ∧ 8 ≤ attrLen then
      (value[1]?).map fun family => decide (family = 1)
    else some false
  if isIpv4 then
    let port ← (slice value 2 4).bind fromBe16
    let ip ← (slice value 4 8).bind fromBe32
    if attrType = attrXorMappedAddress then
      some (some (.v4 (ipv4OfBits (ip ^^^ stunMagicBits)) (port ^^^ (stunMagicBits >>> 16).toUInt16)))
    else some (some (.v4 (ipv4OfBits ip) port))
  else some none

/-- The loop over the attributes, from position `pos`. -/
def scanAttributes (buf : Bytes) (pos : ℕ) : Option (Option SocketAddr) :=
  if _h : pos + 4 ≤ buf.length then do
    let attrType ← (slice buf pos (pos + 2)).bind fromBe16
    let attrLen ← (slice buf (pos + 2) (pos + 4)).bind fromBe16
    if buf.length < pos + 4 + attrLen.toNat then some none
    else
      let value ← slice buf (pos + 4) (pos + 4 + attrLen.toNat)
      match ← attributeAddress attrType.toNat attrLen.toNat value with
      | some addr => some (some addr)
      | none => scanAttributes buf (pos + 4 + (attrLen.toNat + 3) / 4 * 4)
  else some none
termination_by buf.length - pos

/-- `parse_stun_response` with all accesses checked. -/
def parseStunResponseChecked (buf : Bytes) : Option (Except String SocketAddr) :=
  if buf.length < 20 then some (.error "response too short")
  else do
    match ← scanAttributes buf 20 with
    | some addr => some (.ok addr)
    | none => some (.error "no MAPPED-ADDRESS attribute found")

/-! ### Its accesses -/

theorem slice_eq {buf : Bytes} {i n : ℕ} (h : i + n ≤ buf.length) :
    slice buf i (i + n) = some ((buf.drop i).take n) := by
  rw [slice, if_pos ⟨Nat.le_add_right i n, h⟩, Nat.add_sub_cancel_left]

theorem toNat_be16 (a b : UInt8) : (be16 a b).toUInt16.toNat = be16 a b := by
  have ha := a.toNat_lt
  have hb := b.toNat_lt
  unfold be16
  exact UInt16.toNat_ofNat_of_lt' (show _ < 65536 by omega)

theorem toNat_bits (a b c d : UInt8) :
    (be16 a b * 65536 + be16 c d).toUInt32.toNat = be16 a b * 65536 + be16 c d := by
  have ha := a.toNat_lt
  have hb := b.toNat_lt
  have hc := c.toNat_lt
  have hd := d.toNat_lt
  unfold be16
  exact UInt32.toNat_ofNat_of_lt' (show _ < 4294967296 by omega)

theorem ipv4OfBits_eq (a b c d : UInt8) : ipv4OfBits (be16 a b * 65536 + be16 c d).toUInt32 = ⟨a, b, c, d⟩ := by
  have hbits := toNat_bits a b c d
  have ha := a.toNat_lt
  have hb := b.toNat_lt
  have hc := c.toNat_lt
  have hd := d.toNat_lt
  generalize (be16 a b * 65536 + be16 c d).toUInt32 = ip at hbits
  unfold be16 at hbits
  rw [ipv4OfBits, Ipv4Addr.mk.injEq]
  refine ⟨?_, ?_, ?_, ?_⟩ <;> apply UInt8.toNat_inj.mp
  · rw [UInt32.toNat_toUInt8, UInt32.toNat_shiftRight, hbits, Nat.shiftRight_eq_div_pow]
    show _ / 2 ^ 24 % 2 ^ 8 = _
    omega
  · rw [UInt32.toNat_toUInt8, UInt32.toNat_shiftRight, hbits, Nat.shiftRight_eq_div_pow]
    show _ / 2 ^ 16 % 2 ^ 8 = _
    omega
  · rw [UInt32.toNat_toUInt8, UInt32.toNat_shiftRight, hbits, Nat.shiftRight_eq_div_pow]
    show _ / 2 ^ 8 % 2 ^ 8 = _
    omega
  · rw [UInt32.toNat_toUInt8, hbits]
    omega

theorem ipv4OfBits_xor (ip m : UInt32) : ipv4OfBits (ip ^^^ m) = ⟨(ipv4OfBits ip).a ^^^ (ipv4OfBits m).a,
    (ipv4OfBits ip).b ^^^ (ipv4OfBits m).b, (ipv4OfBits ip).c ^^^ (ipv4OfBits m).c,
    (ipv4OfBits ip).d ^^^ (ipv4OfBits m).d⟩ := by
  simp only [ipv4OfBits, UInt32.shiftRight_xor, UInt32.toUInt8_xor]

/-- What `stunAddress` makes of the value of one attribute. -/
def valueAddress (attrType : ℕ) (value : Bytes) : Option SocketAddr :=
  match value with
  | _ :: family :: p₀ :: p₁ :: a :: b :: c :: d :: _ =>
    if family ≠ 1 then none
    else if attrType = attrXorMappedAddress then
      some (.v4 ⟨a ^^^ 0x21, b ^^^ 0x12, c ^^^ 0xA4, d ^^^ 0x42⟩ ((be16 p₀ p₁).toUInt16 ^^^ 0x2112))
    else if attrType = attrMappedAddress then some (.v4 ⟨a, b, c, d⟩ (be16 p₀ p₁).toUInt16)
    else none
  | _ => none

theorem exists_eight {value : Bytes} (h : 8 ≤ value.length) :
    ∃ v₀ v₁ v₂ v₃ v₄ v₅ v₆ v₇ more, value = v₀ :: v₁ :: v₂ :: v₃ :: v₄ :: v₅ :: v₆ :: v₇ :: more := by
  match value, h with
  | v₀ :: v₁ :: v₂ :: v₃ :: v₄ :: v₅ :: v₆ :: v₇ :: more, _ => exact ⟨v₀, v₁, v₂, v₃, v₄, v₅, v₆, v₇, more, rfl⟩

theorem exists_four {bytes : Bytes} (h : 4 ≤ bytes.length) :
    ∃ b₀ b₁ b₂ b₃ more, bytes = b₀ :: b₁ :: b₂ :: b₃ :: more := by
  match bytes, h with
  | b₀ :: b₁ :: b₂ :: b₃ :: more, _ => exact ⟨b₀, b₁, b₂, b₃, more, rfl⟩

theorem valueAddress_short {value : Bytes} (h : ¬ 8 ≤ value.length) (attrType : ℕ) :
    valueAddress attrType value = none := by
  unfold valueAddress
  split
  · next v₀ family p₀ p₁ a b c d more =>
      exfalso
      simp only [List.length_cons] at h
      omega
  · rfl

/-- The checked accesses to the value of an attribute succeed. -/
theorem attributeAddress_eq (attrType : ℕ) (value : Bytes) :
    attributeAddress attrType value.length value = some (valueAddress attrType value) := by
  by_cases hlen : 8 ≤ value.length
  · obtain ⟨v₀, family, p₀, p₁, a, b, c, d, more, rfl⟩ := exists_eight hlen
    have hport : (slice (v₀ :: family :: p₀ :: p₁ :: a :: b :: c :: d :: more) 2 4).bind fromBe16 =
        some (be16 p₀ p₁).toUInt16 := by
      rw [slice_eq (i := 2) (n := 2) (by simp only [List.length_cons]; omega)]
      rfl
    have hip : (slice (v₀ :: family :: p₀ :: p₁ :: a :: b :: c :: d :: more) 4 8).bind fromBe32 =
        some (be16 a b * 65536 + be16 c d).toUInt32 := by
      rw [slice_eq (i := 4) (n := 4) (by simp only [List.length_cons]; omega)]
      rfl
    have hmagic : ipv4OfBits stunMagicBits = ⟨0x21, 0x12, 0xA4, 0x42⟩ := rfl
    have hxor : ipv4OfBits ((be16 a b * 65536 + be16 c d).toUInt32 ^^^ stunMagicBits) =
        ⟨a ^^^ 0x21, b ^^^ 0x12, c ^^^ 0xA4, d ^^^ 0x42⟩ := by
      rw [ipv4OfBits_xor, ipv4OfBits_eq, hmagic]
    have hportMagic : (stunMagicBits >>> 16).toUInt16 = 0x2112 := rfl
    rw [attributeAddress, hport, hip]
    simp only [hlen, and_true, List.getElem?_cons_succ, List.getElem?_cons_zero, Option.map_some, bind,
      Option.bind_some, hxor, hportMagic, ipv4OfBits_eq, valueAddress]
    by_cases hx : attrType = attrXorMappedAddress
    · by_cases hf : family = 1 <;> simp [hx, hf]
    · by_cases hm : attrType = attrMappedAddress
      · by_cases hf : family = 1 <;> simp [hm, hf, attrXorMappedAddress, attrMappedAddress]
      · simp [hx, hm]
  · rw [valueAddress_short hlen, attributeAddress, if_neg fun h => hlen h.2]
    rfl

/-- An attribute and what comes behind it. -/
theorem stunAddress_cons (t₀ t₁ l₀ l₁ : UInt8) (rest : Bytes) : stunAddress (t₀ :: t₁ :: l₀ :: l₁ :: rest) =
    if rest.length < be16 l₀ l₁ then none
    else (valueAddress (be16 t₀ t₁) (rest.take (be16 l₀ l₁))).or
      (stunAddress (rest.drop ((be16 l₀ l₁ + 3) / 4 * 4))) := by
  rw [stunAddress]
  split
  · rfl
  · next hlen =>
      by_cases h8 : 8 ≤ be16 l₀ l₁
      · have hrest : 8 ≤ rest.length := by omega
        obtain ⟨v₀, family, p₀, p₁, a, b, c, d, more, rfl⟩ := exists_eight hrest
        obtain ⟨k, hk⟩ : ∃ k, be16 l₀ l₁ = k + 8 := ⟨be16 l₀ l₁ - 8, by omega⟩
        simp only [hk, List.take_succ_cons, valueAddress, List.getD_cons_succ, List.getD_cons_zero]
        by_cases hx : be16 t₀ t₁ = attrXorMappedAddress
        · by_cases hf : family = 1 <;> simp [hx, hf, attrXorMappedAddress, attrMappedAddress]
        · by_cases hm : be16 t₀ t₁ = attrMappedAddress
          · by_cases hf : family = 1 <;> simp [hm, hf, attrXorMappedAddress, attrMappedAddress]
          · simp [hx, hm]
      · rw [valueAddress_short (by rw [List.length_take]; omega), Option.none_or]
        simp [h8]

theorem stunAddress_of_short {buf : Bytes} (h : buf.length < 4) : stunAddress buf = none := by
  unfold stunAddress
  split
  · simp only [List.length_cons] at h
    omega
  · rfl

/-- No access of the loop is out of range, and it finds the first address. -/
theorem scanAttributes_eq (buf : Bytes) (pos : ℕ) : scanAttributes buf pos = some (stunAddress (buf.drop pos)) := by
  induction hn : buf.length - pos using Nat.strong_induction_on generalizing pos with
  | _ n ih =>
      rw [scanAttributes]
      by_cases h : pos + 4 ≤ buf.length
      · have hfour : 4 ≤ (buf.drop pos).length := by
          rw [List.length_drop]
          omega
        obtain ⟨t₀, t₁, l₀, l₁, rest, hdrop⟩ := exists_four hfour
        have htype : (slice buf pos (pos + 2)).bind fromBe16 = some (be16 t₀ t₁).toUInt16 := by
          rw [slice_eq (by omega), hdrop]
          rfl
        have hlen : (slice buf (pos + 2) (pos + 4)).bind fromBe16 = some (be16 l₀ l₁).toUInt16 := by
          rw [slice_eq (i := pos + 2) (n := 2) (by omega), ← List.drop_drop, hdrop]
          rfl
        have hrest : buf.drop (pos + 4) = rest := by
          rw [← List.drop_drop, hdrop]
          rfl
        have hrestLen : rest.length = buf.length - (pos + 4) := by
          rw [← hrest, List.length_drop]
        rw [dif_pos h, htype, hlen, hdrop, stunAddress_cons]
        simp only [bind, Option.bind_some, toNat_be16]
        by_cases hshort : buf.length < pos + 4 + be16 l₀ l₁
        · rw [if_pos hshort, if_pos (by omega)]
        · have hvalue : (rest.take (be16 l₀ l₁)).length = be16 l₀ l₁ := by
            rw [List.length_take]
            omega
          have haddress := attributeAddress_eq (be16 t₀ t₁) (rest.take (be16 l₀ l₁))
          rw [hvalue] at haddress
          rw [if_neg hshort, if_neg (by omega), slice_eq (by omega), hrest, Option.bind_some, haddress,
            Option.bind_some]
          cases valueAddress (be16 t₀ t₁) (rest.take (be16 l₀ l₁)) with
          | some addr => rfl
          | none =>
              dsimp only
              rw [ih _ (by omega) _ rfl, Option.none_or, ← List.drop_drop, hrest]
      · rw [dif_neg h, stunAddress_of_short (by rw [List.length_drop]; omega)]

theorem parseStunResponseChecked_eq (buf : Bytes) : parseStunResponseChecked buf = some (parseStunResponse buf) := by
  rw [parseStunResponseChecked, parseStunResponse, scanAttributes_eq]
  split
  · rfl
  · cases stunAddress (buf.drop 20) <;> rfl

/-! ### Attributes on the wire -/

/-- `u16::to_be_bytes`. -/
def toBe16 (n : UInt16) : Bytes := [(n >>> 8).toUInt8, n.toUInt8]

theorem be16_toBe16 (n : UInt16) : be16 (n >>> 8).toUInt8 n.toUInt8 = n.toNat := by
  have hlt : n.toNat < 65536 := n.toNat_lt
  have hhigh : (n >>> 8).toNat = n.toNat / 256 := by
    rw [UInt16.toNat_shiftRight, Nat.shiftRight_eq_div_pow]
    rfl
  rw [be16, UInt16.toNat_toUInt8, UInt16.toNat_toUInt8, hhigh]
  omega

/-- An attribute with its padding to a multiple of four bytes, whatever the padding holds. -/
structure StunAttribute where
  type : UInt16
  value : Bytes
  padding : Bytes := []
  length_lt : value.length < UInt16.size := by decide
  padded : value.length + padding.length = (value.length + 3) / 4 * 4 := by decide
deriving DecidableEq

namespace StunAttribute

variable (a : StunAttribute)

def encode : Bytes := toBe16 a.type ++ toBe16 a.value.length.toUInt16 ++ a.value ++ a.padding

/-- The value is long enough for an address, and of the IPv4 family. -/
def Ipv4 : Prop := 8 ≤ a.value.length ∧ a.value[1]? = some 1

/-- An IPv4 `XOR-MAPPED-ADDRESS`. -/
def XorMapped : Prop := a.type.toNat = attrXorMappedAddress ∧ a.Ipv4

/-- An IPv4 `MAPPED-ADDRESS`. -/
def Mapped : Prop := a.type.toNat = attrMappedAddress ∧ a.Ipv4

instance : Decidable a.XorMapped :=
  inferInstanceAs (Decidable (a.type.toNat = attrXorMappedAddress ∧ 8 ≤ a.value.length ∧ a.value[1]? = some 1))

/-- The address in the attribute: decoded with the magic cookie if it is an `XOR-MAPPED-ADDRESS`. -/
def address : Option SocketAddr := valueAddress a.type.toNat a.value

variable {a}

theorem address_isSome : a.address.isSome = true ↔ a.XorMapped ∨ a.Mapped := by
  unfold address XorMapped Mapped Ipv4
  by_cases hlen : 8 ≤ a.value.length
  · obtain ⟨v₀, family, p₀, p₁, b, c, d, e, more, hvalue⟩ := exists_eight hlen
    rw [hvalue] at hlen ⊢
    simp only [valueAddress, hlen, true_and, List.getElem?_cons_succ, List.getElem?_cons_zero, Option.some.injEq]
    by_cases hf : family = 1
    · by_cases hx : a.type.toNat = attrXorMappedAddress
      · simp [hf, hx]
      · by_cases hm : a.type.toNat = attrMappedAddress
        · simp [hf, hm, attrXorMappedAddress, attrMappedAddress]
        · simp [hf, hx, hm]
    · simp [hf]
  · rw [valueAddress_short hlen]
    simp [hlen]

/-- An attribute in front of any bytes. -/
theorem stunAddress_encode (a : StunAttribute) (rest : Bytes) :
    stunAddress (a.encode ++ rest) = a.address.or (stunAddress rest) := by
  have hlen : be16 (a.value.length.toUInt16 >>> 8).toUInt8 a.value.length.toUInt16.toUInt8 = a.value.length := by
    rw [be16_toBe16]
    exact UInt16.toNat_ofNat_of_lt' a.length_lt
  have hlong : ¬ (a.value ++ (a.padding ++ rest)).length < a.value.length := by
    rw [List.length_append]
    omega
  have hpadded : (a.value.length + 3) / 4 * 4 = (a.value ++ a.padding).length := by
    rw [List.length_append, a.padded]
  have hwire : a.encode ++ rest = (a.type >>> 8).toUInt8 :: a.type.toUInt8 ::
      (a.value.length.toUInt16 >>> 8).toUInt8 :: a.value.length.toUInt16.toUInt8 ::
        (a.value ++ (a.padding ++ rest)) := by
    simp only [encode, toBe16, List.append_assoc, List.cons_append, List.nil_append]
  rw [hwire, stunAddress_cons, hlen, if_neg hlong, be16_toBe16, List.take_left, hpadded, ← List.append_assoc,
    List.drop_left, address]

end StunAttribute

open StunAttribute (encode address)

/-- The first attribute with an address decides. -/
theorem stunAddress_flatMap (attrs : List StunAttribute) (rest : Bytes) :
    stunAddress (attrs.flatMap encode ++ rest) = (attrs.findSome? address).or (stunAddress rest) := by
  induction attrs with
  | nil => rfl
  | cons a attrs ih =>
      rw [List.flatMap_cons, List.append_assoc, a.stunAddress_encode, ih, List.findSome?_cons]
      cases a.address <;> rfl

theorem parseStunResponse_append {header : Bytes} (hheader : header.length = 20) (body : Bytes) :
    parseStunResponse (header ++ body) =
      (stunAddress body).elim (.error "no MAPPED-ADDRESS attribute found") .ok := by
  have hlong : ¬ (header ++ body).length < 20 := by
    rw [List.length_append]
    omega
  rw [parseStunResponse, if_neg hlong, List.drop_left' hheader]
  cases stunAddress body <;> rfl

theorem parseStunResponse_flatMap {header : Bytes} (hheader : header.length = 20) (attrs : List StunAttribute) :
    parseStunResponse (header ++ attrs.flatMap encode) =
      (attrs.findSome? address).elim (.error "no MAPPED-ADDRESS attribute found") .ok := by
  have hend : stunAddress (attrs.flatMap encode) = attrs.findSome? address := by
    rw [← List.append_nil (attrs.flatMap encode), stunAddress_flatMap, stunAddress_of_short (by decide), Option.or_none]
  rw [parseStunResponse_append hheader, hend]

/-- An IPv4 `XOR-MAPPED-ADDRESS` for an address. -/
def xorMappedAddress (reserved : UInt8) (ip : Ipv4Addr) (port : UInt16) : StunAttribute where
  type := 0x0020
  value := reserved :: 1 :: toBe16 (port ^^^ 0x2112) ++ [ip.a ^^^ 0x21, ip.b ^^^ 0x12, ip.c ^^^ 0xA4, ip.d ^^^ 0x42]
  length_lt := by simp only [toBe16, List.length_append, List.length_cons, List.length_nil]; decide
  padded := by simp only [toBe16, List.length_append, List.length_cons, List.length_nil]

theorem xorMappedAddress_address (reserved : UInt8) (ip : Ipv4Addr) (port : UInt16) :
    (xorMappedAddress reserved ip port).address = some (.v4 ip port) := by
  have hport : (be16 ((port ^^^ 0x2112) >>> 8).toUInt8 (port ^^^ 0x2112).toUInt8).toUInt16 ^^^ 0x2112 = port := by
    rw [be16_toBe16, Nat.toUInt16_eq, UInt16.ofNat_toNat, UInt16.xor_assoc, UInt16.xor_self, UInt16.xor_zero]
  have hoctet : ∀ octet magic : UInt8, octet ^^^ magic ^^^ magic = octet := fun octet magic => by
    rw [UInt8.xor_assoc, UInt8.xor_self, UInt8.xor_zero]
  show valueAddress attrXorMappedAddress (reserved :: 1 :: toBe16 (port ^^^ 0x2112) ++ _) = _
  simp only [toBe16, List.cons_append, List.nil_append, valueAddress, hport, hoctet]
  rfl

/-- The parser accepts any bytes without an access out of range.  Behind any attributes without an address it finds
the address of an `XOR-MAPPED-ADDRESS`, whatever comes after. -/
theorem parse_stun_response_correct :
    (∀ buf, ∃ response, parseStunResponseChecked buf = some response) ∧
    ∀ (header : Bytes) (before : List StunAttribute) (reserved : UInt8) (ip : Ipv4Addr) (port : UInt16)
      (suffix : Bytes), header.length = 20 → (∀ a ∈ before, ¬ a.XorMapped ∧ ¬ a.Mapped) →
        parseStunResponseChecked (header ++ before.flatMap encode ++ (xorMappedAddress reserved ip port).encode ++
          suffix) = some (.ok (.v4 ip port)) := by
  refine ⟨fun buf => ⟨_, parseStunResponseChecked_eq buf⟩, ?_⟩
  intro header before reserved ip port suffix hheader hbefore
  have hnone : before.findSome? address = none := by
    rw [List.findSome?_eq_none_iff]
    intro a ha
    by_contra hsome
    rcases StunAttribute.address_isSome.mp (Option.isSome_iff_ne_none.mpr hsome) with hxor | hmapped
    · exact (hbefore a ha).1 hxor
    · exact (hbefore a ha).2 hmapped
  rw [parseStunResponseChecked_eq, List.append_assoc, List.append_assoc, parseStunResponse_append hheader,
    stunAddress_flatMap, hnone, Option.none_or, StunAttribute.stunAddress_encode, xorMappedAddress_address]
  rfl

/-- A Binding success response: type, length of the attributes, magic cookie and transaction id. -/
def successHeader (attrs : List StunAttribute) : Bytes :=
  [0x01, 0x01] ++ toBe16 (attrs.flatMap encode).length.toUInt16 ++ [0x21, 0x12, 0xA4, 0x42] ++
    [115, 101, 101, 100, 110, 101, 116, 45, 115, 116, 117, 110]

/-- A `SOFTWARE` attribute of three bytes and one byte of padding. -/
def software : StunAttribute where
  type := 0x8022
  value := [115, 101, 101]
  padding := [0]

/-- The address of the test `parse_xor_mapped_address`, `203.0.113.42:54321`. -/
def reflexive : StunAttribute := xorMappedAddress 0 ⟨203, 0, 113, 42⟩ 54321

theorem parse_stun_response_software :
    parseStunResponseChecked (successHeader [software, reflexive] ++ [software].flatMap encode ++
      (xorMappedAddress 0 ⟨203, 0, 113, 42⟩ 54321).encode ++ [1, 2, 3]) = some (.ok (.v4 ⟨203, 0, 113, 42⟩ 54321)) :=
  parse_stun_response_correct.2 (successHeader [software, reflexive]) [software] 0 ⟨203, 0, 113, 42⟩ 54321 [1, 2, 3]
    (by decide) (by simp [StunAttribute.XorMapped, StunAttribute.Mapped, StunAttribute.Ipv4, software])

/-! ### The order of the attributes -/

theorem findSome?_of_forall {α β : Type*} {f : α → Option β} {l : List α} {x : α} {b : β} (hx : x ∈ l)
    (hb : f x = some b) (h : ∀ a ∈ l, (f a).isSome = true → f a = some b) : l.findSome? f = some b := by
  have hsome : (l.findSome? f).isSome = true := List.findSome?_isSome_iff.mpr ⟨x, hx, by rw [hb]; rfl⟩
  obtain ⟨c, hc⟩ := Option.isSome_iff_exists.mp hsome
  obtain ⟨a, ha, hac⟩ := List.exists_of_findSome?_eq_some hc
  rw [hc, ← hac, h a ha (by rw [hac]; rfl)]

/-- A response with exactly one `XOR-MAPPED-ADDRESS` gives the address in it for every order of its attributes exactly
if no `MAPPED-ADDRESS` in it holds another one. -/
theorem stun_order_iff {header : Bytes} (hheader : header.length = 20) {attrs : List StunAttribute}
    {x : StunAttribute} (hx : attrs.filter StunAttribute.XorMapped = [x]) :
    ∃ addr, x.address = some addr ∧
      ((∀ l : List StunAttribute, l.Perm attrs → parseStunResponse (header ++ l.flatMap encode) = .ok addr) ↔
        ∀ a ∈ attrs, a.Mapped → a.address = some addr) := by
  have hmem : x ∈ attrs ∧ x.XorMapped := by
    have hxmem : x ∈ attrs.filter StunAttribute.XorMapped := by
      rw [hx]
      exact List.mem_singleton_self x
    rw [List.mem_filter, decide_eq_true_iff] at hxmem
    exact hxmem
  obtain ⟨addr, haddr⟩ := Option.isSome_iff_exists.mp (StunAttribute.address_isSome.mpr (.inl hmem.2))
  refine ⟨addr, haddr, ?_, ?_⟩
  · intro h a ha hmapped
    obtain ⟨front, back, rfl⟩ := List.append_of_mem ha
    obtain ⟨other, hother⟩ := Option.isSome_iff_exists.mp (StunAttribute.address_isSome.mpr (.inr hmapped))
    -- `a` is the first attribute
    have hfirst := h (a :: (front ++ back)) List.perm_middle.symm
    rw [parseStunResponse_flatMap hheader, List.findSome?_cons, hother] at hfirst
    rw [hother, Except.ok.inj hfirst]
  · intro h l hl
    rw [parseStunResponse_flatMap hheader, findSome?_of_forall (hl.mem_iff.mpr hmem.1) haddr, Option.elim_some]
    intro a ha hsome
    have hattr := hl.mem_iff.mp ha
    rcases StunAttribute.address_isSome.mp hsome with hxor | hmapped
    · have hax : a ∈ attrs.filter StunAttribute.XorMapped := List.mem_filter.mpr ⟨hattr, decide_eq_true hxor⟩
      rw [hx, List.mem_singleton] at hax
      rw [hax, haddr]
    · exact h a hattr hmapped

/-- A `MAPPED-ADDRESS` with the address of the other attribute. -/
def mapped : StunAttribute where
  type := 0x0001
  value := [0, 1, 0xd4, 0x31, 203, 0, 113, 42]

theorem stun_order_software :
    [mapped, software, reflexive].filter StunAttribute.XorMapped = [reflexive] ∧
    ∀ l : List StunAttribute, l.Perm [mapped, software, reflexive] →
      parseStunResponse (successHeader [mapped, software, reflexive] ++ l.flatMap encode) =
        .ok (.v4 ⟨203, 0, 113, 42⟩ 54321) := by
  have hone : [mapped, software, reflexive].filter StunAttribute.XorMapped = [reflexive] := by decide
  obtain ⟨addr, haddr, hiff⟩ := @stun_order_iff (successHeader [mapped, software, reflexive]) (by decide)
    [mapped, software, reflexive] reflexive hone
  have hmapped : mapped.address = some (.v4 ⟨203, 0, 113, 42⟩ 54321) := by decide
  cases haddr.symm.trans (show reflexive.address = some (.v4 ⟨203, 0, 113, 42⟩ 54321) by decide)
  refine ⟨hone, hiff.mpr fun a ha h => ?_⟩
  rcases List.mem_cons.mp ha with rfl | ha
  · exact hmapped
  · rcases List.mem_pair.mp ha with rfl | rfl
    · exact absurd h.1 (by decide)
    · exact absurd h.1 (by decide)

/-- A `MAPPED-ADDRESS` that a NAT has rewritten to `10.0.0.1:4242`. -/
def rewritten : StunAttribute where
  type := 0x0001
  value := [0, 1, 0x10, 0x92, 10, 0, 0, 1]

/-- In front of the `XOR-MAPPED-ADDRESS` the rewritten address wins, behind it it does not. -/
theorem mapped_first_wins :
    [rewritten, reflexive].filter StunAttribute.XorMapped = [reflexive] ∧
    reflexive.address = some (.v4 ⟨203, 0, 113, 42⟩ 54321) ∧
    parseStunResponse (successHeader [reflexive, rewritten] ++ [reflexive, rewritten].flatMap encode) =
      .ok (.v4 ⟨203, 0, 113, 42⟩ 54321) ∧
    parseStunResponse (successHeader [rewritten, reflexive] ++ [rewritten, reflexive].flatMap encode) =
      .ok (.v4 ⟨10, 0, 0, 1⟩ 4242) := by
  refine ⟨by decide, by decide, ?_, ?_⟩
  · rw [parseStunResponse_flatMap (by decide)]
    rfl
  · rw [parseStunResponse_flatMap (by decide)]
    rfl

end SeedNet
