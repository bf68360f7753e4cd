import SeedNet.Digits
import SeedNet.PeersSnapshot

/-! # Socket addresses as text

`parse` reads a socket address as the standard library does (`core::net::parser`): from the front, and each reader
either takes what it wants of the text or fails.  `SocketAddr.display` (`PeersSnapshot`) writes one; an IPv6 address
is written with its first longest run of zeros as `::`, or with an IPv4 address at its end.

`parse_display`: every address is read back from its text, whatever its zeros, up to the flow label, which is not in
the text. -/

namespace SeedNet

open Digits (isDigit mem_toDigits number_toDigits isDigit_toDigits number)
open Json (Text)

/-! ### Readers -/

/-- What is read from the front of a text, and the rest of it. -/
abbrev TextReader (β : Type) := Text → Option (β × Text)

namespace TextReader

def givenChar (c : Char) : TextReader Unit
  | d :: t => if d = c then some ((), t) else none
  | [] => none

/-- `read_number` of a type with `bound` values. -/
def readNumber (radix : ℕ) (maxDigits : Option ℕ) (allowZeroPrefix : Bool) (bound : ℕ) : TextReader ℕ := fun t =>
  let digits := t.takeWhile (isDigit radix)
  if digits = [] ∨ (∃ max ∈ maxDigits, max < digits.length) then none
  else if allowZeroPrefix = false ∧ digits.head? = some '0' ∧ 1 < digits.length then none
  else if number radix digits < bound then some (number radix digits, t.dropWhile (isDigit radix))
  else none

/-- `read_separator`: nothing in front of the first. -/
def readSeparator {β : Type} (c : Char) (first : Bool) (r : TextReader β) : TextReader β := fun t =>
  if first then r t else (givenChar c t).bind fun x => r x.2

def readOctet : TextReader UInt8 := fun t => (readNumber 10 (some 3) false 256 t).map fun x => (x.1.toUInt8, x.2)

def readIpv4Addr : TextReader Ipv4Addr := fun t => do
  let (a, t) ← readOctet t
  let (b, t) ← readSeparator '.' false readOctet t
  let (c, t) ← readSeparator '.' false readOctet t
  let (d, t) ← readSeparator '.' false readOctet t
  return (⟨a, b, c, d⟩, t)

/-- `read_groups` into `n` groups: how far it gets, and whether an IPv4 address is at the end. -/
def readGroups : ℕ → Bool → Text → List ℕ × Bool × Text
  | 0, _, t => ([], false, t)
  | n + 1, first, t =>
    match if 0 < n then readSeparator ':' first readIpv4Addr t else none with
    | some (ip, t) => ([ip.a.toNat * 256 + ip.b.toNat, ip.c.toNat * 256 + ip.d.toNat], true, t)
    | none =>
      match readSeparator ':' first (readNumber 16 (some 4) true 65536) t with
      | some (g, t) => (g :: (readGroups n false t).1, (readGroups n false t).2)
      | none => ([], false, t)

/-- The eight groups of an IPv6 address. -/
def readIpv6Groups : TextReader (List ℕ) := fun t =>
  let (head, ipv4, t) := readGroups 8 true t
  if head.length = 8 then some (head, t)
  else if ipv4 then none
  else do
    let (_, t) ← givenChar ':' t
    let (_, t) ← givenChar ':' t
    -- the `::` stands for one group of zeros at least
    let (tail, _, t) := readGroups (8 - (head.length + 1)) true t
    return (head ++ List.replicate (8 - head.length - tail.length) 0 ++ tail, t)

end TextReader

open TextReader

/-- `Ipv6Addr::new`. -/
def Ipv6Addr.ofSegments (segments : List ℕ) : Ipv6Addr where
  octets := (List.range 8).flatMap fun i =>
    [(segments.getD i 0 / 256).toUInt8, (segments.getD i 0).toUInt8]
  length_eq := rfl

namespace SocketAddr

def readPort : TextReader UInt16 := fun t => do
  let (_, t) ← givenChar ':' t
  let (port, t) ← readNumber 10 none true 65536 t
  return (port.toUInt16, t)

/-- `read_scope_id`, or 0. -/
def readScopeId (t : Text) : UInt32 × Text :=
  match (givenChar '%' t).bind fun x => readNumber 10 none true (2 ^ 32) x.2 with
  | some (scopeId, t) => (scopeId.toUInt32, t)
  | none => (0, t)

def readV4 : TextReader SocketAddr := fun t => do
  let (ip, t) ← readIpv4Addr t
  let (port, t) ← readPort t
  return (.v4 ip port, t)

def readV6 : TextReader SocketAddr := fun t => do
  let (_, t) ← givenChar '[' t
  let (segments, t) ← readIpv6Groups t
  let (scopeId, t) := readScopeId t
  let (_, t) ← givenChar ']' t
  let (port, t) ← readPort t
  return (.v6 (.ofSegments segments) port 0 scopeId, t)

/-- `SocketAddr::from_str`: the whole text is an address. -/
def parse (t : Text) : Option SocketAddr :=
  match (readV4 t).or (readV6 t) with
  | some (addr, []) => some addr
  | _ => none

end SocketAddr

/-! ### Reading numbers -/

section digits

variable {radix n bound : ℕ} {max : Option ℕ} {zero : Bool} {t rest : Text}

/-- No digit comes first. -/
def Stops (radix : ℕ) (t : Text) : Prop := ∀ c ∈ t.head?, isDigit radix c = false

theorem Stops.takeWhile (h : Stops radix t) : t.takeWhile (isDigit radix) = [] := by
  cases t with
  | nil => rfl
  | cons c t => exact List.takeWhile_cons_of_neg (by rw [h c rfl]; exact Bool.false_ne_true)

theorem Stops.dropWhile (h : Stops radix t) : t.dropWhile (isDigit radix) = t := by
  cases t with
  | nil => rfl
  | cons c t => exact List.dropWhile_cons_of_neg (by rw [h c rfl]; exact Bool.false_ne_true)

theorem readNumber_eq_none (h : Stops radix t) : readNumber radix max zero bound t = none := if_pos (.inl h.takeWhile)

/-- A number is read from its digits. -/
theorem readNumber_toDigits (hradix : 1 < radix) (hle : radix ≤ 16) (hbound : n < bound)
    (hmax : ∀ m ∈ max, (Nat.toDigits radix n).length ≤ m)
    (hzero : zero = true ∨ ((Nat.toDigits radix n).head? = some '0' → (Nat.toDigits radix n).length ≤ 1))
    (hrest : Stops radix rest) :
    readNumber radix max zero bound (Nat.toDigits radix n ++ rest) = some (n, rest) := by
  have htake : (Nat.toDigits radix n ++ rest).takeWhile (isDigit radix) = Nat.toDigits radix n := by
    rw [List.takeWhile_append_of_pos (isDigit_toDigits hradix hle), hrest.takeWhile, List.append_nil]
  have hdrop : (Nat.toDigits radix n ++ rest).dropWhile (isDigit radix) = rest := by
    rw [List.dropWhile_append_of_pos (isDigit_toDigits hradix hle), hrest.dropWhile]
  have hsome : ¬ (Nat.toDigits radix n = [] ∨ ∃ m ∈ max, m < (Nat.toDigits radix n).length) := by
    rintro (hnil | ⟨m, hm, hlt⟩)
    · exact Nat.toDigits_ne_nil hnil
    · exact absurd (hmax m hm) (Nat.not_le.mpr hlt)
  have hplain : ¬ (zero = false ∧ (Nat.toDigits radix n).head? = some '0' ∧ 1 < (Nat.toDigits radix n).length) := by
    rintro ⟨hfalse, hhead, hlong⟩
    rcases hzero with htrue | hshort
    · exact Bool.false_ne_true (hfalse.symm.trans htrue)
    · exact absurd (hshort hhead) (Nat.not_le.mpr hlong)
  rw [readNumber]
  simp only [htake, hdrop]
  rw [if_neg hsome, if_neg hplain, number_toDigits hradix hle, if_pos hbound]

end digits

/-! ### Reading IPv4 addresses -/

section ipv4

variable {t rest : Text}

theorem Stops.of_hex (h : Stops 16 t) : Stops 10 t := by
  intro c hc
  have hnot := h c hc
  simp only [isDigit, Bool.and_eq_false_iff, decide_eq_false_iff_not] at hnot ⊢
  exact hnot.imp id fun hlarge hlt => hlarge (by omega)

theorem readOctet_toDigits (b : UInt8) (hrest : Stops 10 rest) :
    readOctet (Nat.toDigits 10 b.toNat ++ rest) = some (b, rest) := by
  have hlen : ∀ n < 256, (Nat.toDigits 10 n).length ≤ 3 := by decide +kernel
  have hzero : ∀ n < 256, (Nat.toDigits 10 n).head? = some '0' → (Nat.toDigits 10 n).length ≤ 1 := by decide +kernel
  have hmax : ∀ m ∈ some 3, (Nat.toDigits 10 b.toNat).length ≤ m := by
    rintro m ⟨⟩
    exact hlen _ b.toNat_lt
  rw [readOctet, readNumber_toDigits (by decide) (by decide) b.toNat_lt hmax (.inr (hzero _ b.toNat_lt)) hrest,
    Option.map_some, Nat.toUInt8_eq, UInt8.ofNat_toNat]

theorem stops_dot : Stops 10 ('.' :: t) := by
  rintro c ⟨⟩
  rfl

theorem readSeparator_cons {β : Type} (c : Char) (r : TextReader β) (t : Text) :
    readSeparator c false r (c :: t) = r t := by
  simp only [readSeparator, givenChar, Bool.false_eq_true, if_false, if_true, Option.bind_some]

theorem readSeparator_eq_none {β : Type} {c : Char} (r : TextReader β) (h : t.head? ≠ some c) :
    readSeparator c false r t = none := by
  cases t with
  | nil => rfl
  | cons d t =>
      have hne : d ≠ c := fun heq => h (congrArg some heq)
      simp only [readSeparator, givenChar, Bool.false_eq_true, if_false, if_neg hne, Option.bind_none]

theorem Ipv4Addr.toList_display (ip : Ipv4Addr) : ip.display.toList = Nat.toDigits 10 ip.a.toNat ++
    ('.' :: (Nat.toDigits 10 ip.b.toNat ++ ('.' :: (Nat.toDigits 10 ip.c.toNat ++
      ('.' :: Nat.toDigits 10 ip.d.toNat))))) := by
  rw [display, String.toList_intercalate]
  simp only [octets, List.map_cons, List.map_nil, toList_decimal, List.intercalate_cons_cons,
    List.intercalate_singleton, String.reduceToList, List.append_assoc, List.cons_append, List.nil_append]

theorem readIpv4Addr_display (ip : Ipv4Addr) (hrest : Stops 10 rest) :
    readIpv4Addr (ip.display.toList ++ rest) = some (ip, rest) := by
  rw [ip.toList_display]
  simp only [readIpv4Addr, List.append_assoc, List.cons_append, readSeparator_cons, readOctet_toDigits _ stops_dot,
    readOctet_toDigits _ hrest, Option.bind_eq_bind, Option.bind_some]
  rfl

/-- Without a dot behind the first digits there is no IPv4 address. -/
theorem readIpv4Addr_eq_none (h : (t.dropWhile (isDigit 10)).head? ≠ some '.') : readIpv4Addr t = none := by
  rw [readIpv4Addr]
  cases hoctet : readOctet t with
  | none => rfl
  | some x =>
      obtain ⟨a, rest⟩ := x
      obtain ⟨⟨n, rest'⟩, hread, heq⟩ := Option.map_eq_some_iff.mp hoctet
      obtain rfl : rest' = rest := (Prod.mk.inj heq).2
      have hrest : rest' = t.dropWhile (isDigit 10) := by
        rw [readNumber] at hread
        split at hread
        · cases hread
        · split at hread
          · cases hread
          · split at hread
            · exact (Prod.mk.inj (Option.some.inj hread)).2.symm
            · cases hread
      simp only [Option.bind_eq_bind, Option.bind_some]
      rw [readSeparator_eq_none _ (hrest ▸ h)]
      rfl

end ipv4

/-! ### Reading groups -/

section groups

variable {t rest : Text} {first : Bool}

/-- Neither a digit nor a dot comes first. -/
def Ends (t : Text) : Prop := Stops 16 t ∧ t.head? ≠ some '.'

/-- No group follows. -/
def NoGroup (first : Bool) (t : Text) : Prop :=
  readSeparator ':' first readIpv4Addr t = none ∧ readSeparator ':' first (readNumber 16 (some 4) true 65536) t = none

theorem noGroup_of_stops (h : Stops 16 t) : NoGroup true t :=
  ⟨by simp only [readSeparator, if_true, readIpv4Addr, readOctet, readNumber_eq_none h.of_hex]; rfl,
    readNumber_eq_none h⟩

theorem noGroup_of_ne (h : t.head? ≠ some ':') : NoGroup false t :=
  ⟨readSeparator_eq_none _ h, readSeparator_eq_none _ h⟩

/-- No group begins with a colon. -/
theorem noGroup_colons : NoGroup false (':' :: ':' :: t) := by
  have hstops : Stops 16 (':' :: t) := by
    rintro c ⟨⟩
    rfl
  obtain ⟨hipv4, hnumber⟩ := noGroup_of_stops hstops
  exact ⟨(readSeparator_cons ':' _ _).trans hipv4, (readSeparator_cons ':' _ _).trans hnumber⟩

theorem NoGroup.readGroups (h : NoGroup first t) (n : ℕ) : readGroups n first t = ([], false, t) := by
  cases n with
  | zero => rfl
  | succ n => simp only [TextReader.readGroups, h.1, h.2, ite_self]

/-- A group is no beginning of an IPv4 address. -/
theorem readIpv4Addr_group (g : ℕ) (h : Ends rest) : readIpv4Addr (Nat.toDigits 16 g ++ rest) = none := by
  refine readIpv4Addr_eq_none ?_
  rw [List.dropWhile_append]
  split
  · rw [h.1.of_hex.dropWhile]
    exact h.2
  · next hsome =>
      intro hdot
      have hne : (Nat.toDigits 16 g).dropWhile (isDigit 10) ≠ [] := fun hnil => hsome (by rw [hnil]; rfl)
      rw [List.head?_append_of_ne_nil _ hne] at hdot
      have hmem := (List.dropWhile_sublist _).subset (List.mem_of_head? hdot)
      obtain ⟨v, hv, hchar⟩ := mem_toDigits (by decide) hmem
      have hdots : ∀ v < 16, '.' ≠ Nat.digitChar v := by decide
      exact hdots v hv hchar

theorem readNumber_group {g : ℕ} (hg : g < 65536) (h : Ends rest) :
    readNumber 16 (some 4) true 65536 (Nat.toDigits 16 g ++ rest) = some (g, rest) := by
  refine readNumber_toDigits (by decide) le_rfl hg ?_ (.inl rfl) h.1
  rintro m ⟨⟩
  exact (Nat.length_toDigits_le_iff (by decide) (by decide)).mpr hg

/-- Groups, each behind a colon. -/
def moreGroups (gs : List ℕ) : Text := gs.flatMap fun g => ':' :: Nat.toDigits 16 g

theorem ends_moreGroups (gs : List ℕ) (h : Ends rest) : Ends (moreGroups gs ++ rest) := by
  cases gs with
  | nil => exact h
  | cons g gs => exact ⟨by rintro c ⟨⟩; rfl, by rintro ⟨⟩⟩

theorem readGroups_succ_group {n g : ℕ} (hg : g < 65536) (h : Ends rest) :
    readGroups (n + 1) true (Nat.toDigits 16 g ++ rest) =
      (g :: (readGroups n false rest).1, (readGroups n false rest).2) := by
  simp only [readGroups, readSeparator, if_true, readIpv4Addr_group g h, readNumber_group hg h, ite_self]

theorem readGroups_moreGroups {gs : List ℕ} {n : ℕ} (hlen : gs.length ≤ n) (hlt : ∀ g ∈ gs, g < 65536) (h : Ends rest)
    (hstop : gs.length = n ∨ NoGroup false rest) : readGroups n false (moreGroups gs ++ rest) = (gs, false, rest) := by
  induction gs generalizing n with
  | nil =>
      rcases hstop with rfl | hstop
      · rfl
      · exact hstop.readGroups n
  | cons g gs ih =>
      obtain ⟨n, rfl⟩ : ∃ m, n = m + 1 := ⟨n - 1, by rw [List.length_cons] at hlen; omega⟩
      have hrest := ih (Nat.le_of_succ_le_succ hlen) (fun g' hg' => hlt g' (List.mem_cons_of_mem g hg'))
        (hstop.imp Nat.succ.inj id)
      have hends := ends_moreGroups gs h
      have htext : moreGroups (g :: gs) ++ rest = ':' :: (Nat.toDigits 16 g ++ (moreGroups gs ++ rest)) := by
        rw [moreGroups, List.flatMap_cons, ← moreGroups, List.append_assoc, List.cons_append]
      rw [htext]
      simp only [readGroups, readSeparator_cons, readIpv4Addr_group g hends,
        readNumber_group (hlt g List.mem_cons_self) hends, hrest, ite_self]

/-- Groups with colons between them. -/
def groupsText : List ℕ → Text
  | [] => []
  | g :: gs => Nat.toDigits 16 g ++ moreGroups gs

theorem readGroups_groupsText {gs : List ℕ} {n : ℕ} (hlen : gs.length ≤ n) (hlt : ∀ g ∈ gs, g < 65536) (h : Ends rest)
    (hstop : gs.length = n ∨ NoGroup false rest) : readGroups n true (groupsText gs ++ rest) = (gs, false, rest) := by
  cases gs with
  | nil => exact (noGroup_of_stops h.1).readGroups n
  | cons g gs =>
      obtain ⟨n, rfl⟩ : ∃ m, n = m + 1 := ⟨n - 1, by rw [List.length_cons] at hlen; omega⟩
      rw [groupsText, List.append_assoc, readGroups_succ_group (hlt g List.mem_cons_self) (ends_moreGroups gs h),
        readGroups_moreGroups (Nat.le_of_succ_le_succ hlen) (fun g' hg' => hlt g' (List.mem_cons_of_mem g hg')) h
          (hstop.imp Nat.succ.inj id)]

end groups

/-! ### IPv6 addresses -/

namespace Ipv6Addr

/-- The segments of a span are zeros. -/
def ZeroSpan (segments : List ℕ) (span : Span) : Prop :=
  span.start + span.len ≤ segments.length ∧ ∀ i, span.start ≤ i → i < span.start + span.len → segments[i]? = some 0

/-- One segment of the loop that looks for the longest run of zeros. -/
def longestStep (spans : Span × Span) (x : ℕ × ℕ) : Span × Span :=
  if x.1 = 0 then
    let current : Span :=
      { start := if spans.2.len = 0 then x.2 else spans.2.start, len := spans.2.len + 1 }
    (if spans.1.len < current.len then current else spans.1, current)
  else (spans.1, {})

theorem longestZeros_eq (segments : List ℕ) :
    longestZeros segments = (segments.zipIdx.foldl longestStep (({} : Span), ({} : Span))).1 := rfl

/-- The longest run so far and the one that ends here are runs of zeros. -/
theorem zeroSpan_foldl (segments : List ℕ) (rest : List ℕ) (k : ℕ) (hrest : segments.drop k = rest)
    (spans : Span × Span) (hlongest : ZeroSpan segments spans.1) (hcurrent : ZeroSpan segments spans.2)
    (hend : spans.2.len ≠ 0 → spans.2.start + spans.2.len = k) :
    ZeroSpan segments ((rest.zipIdx k).foldl longestStep spans).1 := by
  induction rest generalizing k spans with
  | nil => exact hlongest
  | cons x rest ih =>
      have hx : segments[k]? = some x := by rw [← List.head?_drop, hrest]; rfl
      have hk : k < segments.length := List.getElem?_eq_some_iff.mp hx |>.1
      have hdrop : segments.drop (k + 1) = rest := by rw [← List.drop_drop, hrest]; rfl
      rw [List.zipIdx_cons, List.foldl_cons]
      by_cases hzero : x = 0
      · subst hzero
        have hstart : (if spans.2.len = 0 then k else spans.2.start) + (spans.2.len + 1) = k + 1 := by
          split
          · omega
          · next hne => rw [← hend hne, Nat.add_assoc]
        obtain ⟨current, hcur⟩ : ∃ current : Span,
          current = { start := if spans.2.len = 0 then k else spans.2.start, len := spans.2.len + 1 } := ⟨_, rfl⟩
        have hspan : ZeroSpan segments current := by
          subst hcur
          refine ⟨by rw [hstart]; exact hk, fun i hi hlt => ?_⟩
          dsimp only at hi hlt
          rw [hstart] at hlt
          by_cases hik : i = k
          · rw [hik, hx]
          · split at hi
            · omega
            · next hne => exact hcurrent.2 i hi (by rw [hend hne]; omega)
        have hstep : longestStep spans (0, k) =
            (if spans.1.len < current.len then current else spans.1, current) := by
          rw [hcur]
          exact if_pos rfl
        rw [hstep]
        refine ih (k + 1) hdrop _ ?_ hspan fun _ => by rw [hcur]; exact hstart
        dsimp only
        split
        · exact hspan
        · exact hlongest
      · have hstep : longestStep spans (x, k) = (spans.1, {}) := if_neg hzero
        rw [hstep]
        exact ih (k + 1) hdrop _ hlongest ⟨Nat.zero_le _, fun i _ hlt => absurd hlt (Nat.not_lt_zero i)⟩
          fun hne => absurd rfl hne

theorem zeroSpan_longestZeros (segments : List ℕ) : ZeroSpan segments (longestZeros segments) := by
  have hnone : ZeroSpan segments {} := ⟨Nat.zero_le _, fun i _ hlt => absurd hlt (Nat.not_lt_zero i)⟩
  rw [longestZeros_eq]
  exact zeroSpan_foldl segments segments 0 rfl _ hnone hnone fun hne => absurd rfl hne

/-- The segments are what is before the zeros, the zeros, and what is behind them. -/
theorem ZeroSpan.segments_eq {segments : List ℕ} {span : Span} (h : ZeroSpan segments span) :
    segments.take span.start ++ List.replicate span.len 0 ++ segments.drop (span.start + span.len) = segments := by
  have hzeros : (segments.drop span.start).take span.len = List.replicate span.len 0 := by
    refine List.ext_getElem? fun i => ?_
    rw [List.getElem?_take, List.getElem?_drop, List.getElem?_replicate]
    split
    · exact h.2 _ (Nat.le_add_right _ _) (by omega)
    · rfl
  rw [← hzeros, ← List.drop_drop, List.append_assoc, List.take_append_drop, List.take_append_drop]

theorem length_segments (ip : Ipv6Addr) : ip.segments.length = 8 := by
  rw [segments, List.length_map, List.length_range]

theorem segments_lt (ip : Ipv6Addr) : ∀ g ∈ ip.segments, g < 65536 := by
  intro g hg
  obtain ⟨i, -, rfl⟩ := List.mem_map.mp hg
  have ha := (ip.octets.getD (2 * i) 0).toNat_lt
  have hb := (ip.octets.getD (2 * i + 1) 0).toNat_lt
  omega

theorem flatMap_range_pairs (f : ℕ → UInt8) (n : ℕ) :
    (List.range n).flatMap (fun i => [f (2 * i), f (2 * i + 1)]) = (List.range (2 * n)).map f := by
  induction n with
  | zero => rfl
  | succ n ih =>
      rw [List.range_succ, List.flatMap_append, ih, List.flatMap_singleton, Nat.mul_succ, List.range_succ,
        List.range_succ, List.map_append, List.map_append, List.append_assoc]
      rfl

theorem getD_segments (ip : Ipv6Addr) {i : ℕ} (hi : i < 8) : ip.segments.getD i 0 =
    (ip.octets.getD (2 * i) 0).toNat * 256 + (ip.octets.getD (2 * i + 1) 0).toNat := by
  rw [segments, List.getD_eq_getElem?_getD, List.getElem?_map, List.getElem?_range hi]
  rfl

theorem ext_octets {ip ip' : Ipv6Addr} (h : ip.octets = ip'.octets) : ip = ip' := by
  cases ip
  cases ip'
  cases h
  rfl

/-- An address is made of its segments. -/
theorem ofSegments_segments (ip : Ipv6Addr) : ofSegments ip.segments = ip := by
  have hhigh (a b : UInt8) : ((a.toNat * 256 + b.toNat) / 256).toUInt8 = a := by
    have hb := b.toNat_lt
    have hdiv : (a.toNat * 256 + b.toNat) / 256 = a.toNat := by omega
    rw [hdiv, Nat.toUInt8_eq, UInt8.ofNat_toNat]
  have hlow (a b : UInt8) : (a.toNat * 256 + b.toNat).toUInt8 = b := by
    have hb := b.toNat_lt
    have hmod : (a.toNat * 256 + b.toNat) % 2 ^ 8 = b.toNat := by omega
    rw [Nat.toUInt8_eq, ← UInt8.toNat_inj, UInt8.toNat_ofNat', hmod]
  have hoctets : (ofSegments ip.segments).octets = ip.octets := by
    rw [ofSegments]
    refine (List.flatMap_congr fun i hi => ?_).trans
      ((flatMap_range_pairs (fun i => ip.octets.getD i 0) 8).trans ?_)
    · rw [ip.getD_segments (List.mem_range.mp hi), hhigh, hlow]
    · refine List.ext_getElem (by rw [List.length_map, List.length_range, ip.length_eq]) fun i _ hi => ?_
      rw [List.getElem_map, List.getElem_range, List.getD_eq_getElem?_getD, List.getElem?_eq_getElem hi]
      rfl
  exact ext_octets hoctets

theorem intercalate_toDigits (g : ℕ) (gs : List ℕ) :
    [':'].intercalate ((g :: gs).map (Nat.toDigits 16)) = Nat.toDigits 16 g ++ moreGroups gs := by
  induction gs generalizing g with
  | nil => rw [List.map_singleton, List.intercalate_singleton, moreGroups, List.flatMap_nil, List.append_nil]
  | cons g' gs ih =>
      rw [List.map_cons, List.map_cons, List.intercalate_cons_cons, ← List.map_cons, ih, moreGroups, moreGroups,
        List.flatMap_cons, List.append_assoc, List.cons_append]
      rfl

theorem toList_subslice (segments : List ℕ) : (subslice segments).toList = groupsText segments := by
  have htoList : String.toList ∘ (fun n => String.ofList (Nat.toDigits 16 n)) = Nat.toDigits 16 := by
    funext n
    exact String.toList_ofList
  rw [subslice, String.toList_intercalate, List.map_map, htoList]
  cases segments with
  | nil => rfl
  | cons g gs => exact intercalate_toDigits g gs

/-- The end of an address inside of brackets. -/
theorem ends_of_mem {c : Char} {t : Text} (hc : c ∈ [']', '%']) : Ends (c :: t) ∧ NoGroup false (c :: t) := by
  have hsigns : ∀ c ∈ [']', '%'], isDigit 16 c = false ∧ c ≠ '.' ∧ c ≠ ':' := by simp [isDigit, Digits.IsDigit]
  obtain ⟨hdigit, hdot, hcolon⟩ := hsigns c hc
  refine ⟨⟨?_, fun heq => hdot (Option.some.inj heq)⟩, noGroup_of_ne fun heq => hcolon (Option.some.inj heq)⟩
  rintro c ⟨⟩
  exact hdigit

theorem ends_colons (t : Text) : Ends (':' :: ':' :: t) := ⟨by rintro c ⟨⟩; rfl, by rintro ⟨⟩⟩

theorem readIpv6Groups_zeros {before after : List ℕ} {rest : Text} (hlen : before.length + after.length < 8)
    (hbefore : ∀ g ∈ before, g < 65536) {ipv4 : Bool} {text : Text}
    (hafter : readGroups (8 - (before.length + 1)) true text = (after, ipv4, rest)) :
    readIpv6Groups (groupsText before ++ (':' :: ':' :: text)) =
      some (before ++ List.replicate (8 - before.length - after.length) 0 ++ after, rest) := by
  have hhead : readGroups 8 true (groupsText before ++ (':' :: ':' :: text)) = (before, false, ':' :: ':' :: text) :=
    readGroups_groupsText (by omega) hbefore (ends_colons text) (.inr noGroup_colons)
  have hne : before.length ≠ 8 := by omega
  rw [readIpv6Groups]
  simp only [hhead, if_neg hne, hafter, givenChar, Bool.false_eq_true, if_false, if_true, Option.bind_eq_bind,
    Option.bind_some]
  rfl

theorem segments_of_mapped {ip : Ipv6Addr} {ipv4 : Ipv4Addr} (h : ip.toIpv4Mapped = some ipv4) :
    ip.segments =
      List.replicate 5 0 ++ [65535, ipv4.a.toNat * 256 + ipv4.b.toNat, ipv4.c.toNat * 256 + ipv4.d.toNat] := by
  rw [toIpv4Mapped] at h
  split at h
  · next hfront =>
      cases h
      have hget (i : ℕ) (hi : i < 12) :
          ip.octets.getD i 0 = (List.replicate 10 (0 : UInt8) ++ [255, 255]).getD i 0 := by
        rw [← hfront, List.getD_eq_getElem?_getD, List.getD_eq_getElem?_getD, List.getElem?_take, if_pos hi]
      have hrange : List.range 8 = [0, 1, 2, 3, 4, 5, 6, 7] := rfl
      simp only [segments, hrange, List.map_cons, List.map_nil, hget, Nat.reduceMul, Nat.reduceAdd, Nat.reduceLT]
      rfl
  · cases h

/-- The groups of an address are read back from its text. -/
theorem readIpv6Groups_display (ip : Ipv6Addr) {rest : Text} (hends : Ends rest) (hgroup : NoGroup false rest) :
    readIpv6Groups (ip.display.toList ++ rest) = some (ip.segments, rest) := by
  have hlen := ip.length_segments
  unfold display
  split
  · next ipv4 hmapped =>
      have hfour : readGroups 6 false (':' :: (ipv4.display.toList ++ rest)) =
          ([ipv4.a.toNat * 256 + ipv4.b.toNat, ipv4.c.toNat * 256 + ipv4.d.toNat], true, rest) := by
        simp only [readGroups, readSeparator_cons, readIpv4Addr_display ipv4 hends.1.of_hex, Nat.succ_pos, if_true]
      have hcolon : Ends (':' :: (ipv4.display.toList ++ rest)) := ⟨by rintro c ⟨⟩; rfl, by rintro ⟨⟩⟩
      have htail : readGroups (8 - (([] : List ℕ).length + 1)) true
          (Nat.toDigits 16 65535 ++ (':' :: (ipv4.display.toList ++ rest))) = _ :=
        readGroups_succ_group (by decide) hcolon
      rw [hfour] at htail
      have hread := readIpv6Groups_zeros (by simp) (fun g hg => absurd hg List.not_mem_nil) htail
      have hdigits : Nat.toDigits 16 65535 = ['f', 'f', 'f', 'f'] := by decide
      have htext : ("::ffff:" ++ ipv4.display).toList ++ rest =
          groupsText [] ++ (':' :: ':' :: (Nat.toDigits 16 65535 ++ (':' :: (ipv4.display.toList ++ rest)))) := by
        simp only [hdigits, groupsText, String.toList_append, String.reduceToList, List.nil_append,
          List.cons_append]
      rw [htext, hread, segments_of_mapped hmapped]
      simp only [List.nil_append, List.length_nil, List.length_cons, Nat.reduceAdd, Nat.reduceSub]
  · dsimp only
    split
    · next hlong =>
        have hspan := zeroSpan_longestZeros ip.segments
        obtain ⟨span, hspaneq⟩ : ∃ span, span = longestZeros ip.segments := ⟨_, rfl⟩
        rw [← hspaneq] at hlong hspan ⊢
        have hle : span.start + span.len ≤ 8 := hlen ▸ hspan.1
        have hbefore : (ip.segments.take span.start).length = span.start := by
          rw [List.length_take, hlen]
          omega
        have hafter : (ip.segments.drop (span.start + span.len)).length = 8 - (span.start + span.len) := by
          rw [List.length_drop, hlen]
        have htail : readGroups (8 - ((ip.segments.take span.start).length + 1)) true
            (groupsText (ip.segments.drop (span.start + span.len)) ++ rest) =
              (ip.segments.drop (span.start + span.len), false, rest) :=
          readGroups_groupsText (by omega) (fun g hg => ip.segments_lt g (List.mem_of_mem_drop hg)) hends (.inr hgroup)
        have hread := readIpv6Groups_zeros (by omega) (fun g hg => ip.segments_lt g (List.mem_of_mem_take hg)) htail
        rw [hbefore, hafter] at hread
        have hzeros : 8 - span.start - (8 - (span.start + span.len)) = span.len := by omega
        rw [hzeros, hspan.segments_eq] at hread
        rw [String.toList_append, String.toList_append, toList_subslice, toList_subslice, List.append_assoc,
          List.append_assoc]
        exact hread
    · rw [toList_subslice, readIpv6Groups,
        readGroups_groupsText (Nat.le_of_eq hlen) ip.segments_lt hends (.inl hlen)]
      exact if_pos hlen

end Ipv6Addr

/-! ### Socket addresses -/

namespace SocketAddr

/-- The address with flow label 0. -/
def withoutFlowinfo : SocketAddr → SocketAddr
  | .v4 ip port => .v4 ip port
  | .v6 ip port _ scopeId => .v6 ip port 0 scopeId

theorem stops_nil (radix : ℕ) : Stops radix [] := by
  rintro c ⟨⟩

theorem readPort_toDigits (port : UInt16) : readPort (':' :: Nat.toDigits 10 port.toNat) = some (port, []) := by
  have hread : readNumber 10 none true (2 ^ 16) (Nat.toDigits 10 port.toNat ++ []) = some (port.toNat, []) :=
    readNumber_toDigits (by decide) (by decide) port.toNat_lt (fun m hm => by cases hm) (.inl rfl) (stops_nil 10)
  rw [List.append_nil] at hread
  simp only [readPort, givenChar, if_true, Option.bind_eq_bind, Option.bind_some]
  rw [show 65536 = 2 ^ 16 from rfl, hread, Option.bind_some, Nat.toUInt16_eq, UInt16.ofNat_toNat]
  rfl

theorem readScopeId_percent (scopeId : UInt32) (t : Text) :
    readScopeId ('%' :: (Nat.toDigits 10 scopeId.toNat ++ (']' :: t))) = (scopeId, ']' :: t) := by
  have hstops : Stops 10 (']' :: t) := by
    rintro c ⟨⟩
    rfl
  have hread : readNumber 10 none true (2 ^ 32) (Nat.toDigits 10 scopeId.toNat ++ (']' :: t)) =
      some (scopeId.toNat, ']' :: t) :=
    readNumber_toDigits (by decide) (by decide) scopeId.toNat_lt (fun m hm => by cases hm) (.inl rfl) hstops
  simp only [readScopeId, givenChar, if_true, Option.bind_some]
  rw [hread]
  simp only [Nat.toUInt32_eq, UInt32.ofNat_toNat]

theorem readV4_display (ip : Ipv4Addr) (port : UInt16) :
    readV4 (SocketAddr.v4 ip port).display.toList = some (.v4 ip port, []) := by
  have hstops : Stops 10 (':' :: Nat.toDigits 10 port.toNat) := by
    rintro c ⟨⟩
    rfl
  have htext : (SocketAddr.v4 ip port).display.toList = ip.display.toList ++ (':' :: Nat.toDigits 10 port.toNat) := by
    rw [display, String.toList_append, String.toList_append, toList_decimal, List.append_assoc]
    rfl
  rw [htext, readV4, readIpv4Addr_display ip hstops]
  simp only [Option.bind_eq_bind, Option.bind_some, readPort_toDigits]
  rfl

theorem readV6_display (ip : Ipv6Addr) (port : UInt16) (flowinfo scopeId : UInt32) :
    readV6 (SocketAddr.v6 ip port flowinfo scopeId).display.toList = some (.v6 ip port 0 scopeId, []) := by
  have hport := readPort_toDigits port
  have hbracket (t : Text) : readScopeId (']' :: t) = (0, ']' :: t) := rfl
  rw [display]
  split
  · next hzero =>
      subst hzero
      have htext : ("[" ++ ip.display ++ "]:" ++ decimal port.toNat).toList =
          '[' :: (ip.display.toList ++ (']' :: ':' :: Nat.toDigits 10 port.toNat)) := by
        simp only [String.toList_append, toList_decimal, List.append_assoc]
        rfl
      obtain ⟨hends, hgroup⟩ := Ipv6Addr.ends_of_mem (c := ']') (t := ':' :: Nat.toDigits 10 port.toNat) (by decide)
      rw [htext, readV6]
      simp only [givenChar, if_true, Option.bind_eq_bind, Option.bind_some, ip.readIpv6Groups_display hends hgroup,
        hbracket, hport, ip.ofSegments_segments]
      rfl
  · have htext : ("[" ++ ip.display ++ "%" ++ decimal scopeId.toNat ++ "]:" ++ decimal port.toNat).toList =
        '[' :: (ip.display.toList ++ ('%' :: (Nat.toDigits 10 scopeId.toNat ++
          (']' :: ':' :: Nat.toDigits 10 port.toNat)))) := by
      simp only [String.toList_append, toList_decimal, List.append_assoc]
      rfl
    obtain ⟨hends, hgroup⟩ := Ipv6Addr.ends_of_mem (c := '%')
      (t := Nat.toDigits 10 scopeId.toNat ++ (']' :: ':' :: Nat.toDigits 10 port.toNat)) (by decide)
    rw [htext, readV6]
    simp only [givenChar, if_true, Option.bind_eq_bind, Option.bind_some, ip.readIpv6Groups_display hends hgroup,
      readScopeId_percent, hport, ip.ofSegments_segments]
    rfl

/-- **An address is read back from its text**, up to the flow label. -/
theorem parse_display (addr : SocketAddr) : parse addr.display.toList = some addr.withoutFlowinfo := by
  cases addr with
  | v4 ip port =>
      rw [parse, readV4_display, Option.some_or]
      rfl
  | v6 ip port flowinfo scopeId =>
      have hnone : readV4 (SocketAddr.v6 ip port flowinfo scopeId).display.toList = none := by
        have hhead : ∃ t, (SocketAddr.v6 ip port flowinfo scopeId).display.toList = '[' :: t := by
          rw [display]
          split <;> simp only [String.toList_append, List.append_assoc] <;> exact ⟨_, rfl⟩
        obtain ⟨t, ht⟩ := hhead
        have hstops : Stops 16 ('[' :: t) := by
          rintro c ⟨⟩
          rfl
        have hread : readIpv4Addr ('[' :: t) = none := (noGroup_of_stops hstops).1
        rw [ht, readV4, hread]
        rfl
      rw [parse, hnone, Option.none_or, readV6_display]
      rfl

/-- An address that was read has flow label 0. -/
theorem withoutFlowinfo_of_parse {t : Text} {addr : SocketAddr} (h : parse t = some addr) :
    addr.withoutFlowinfo = addr := by
  have hv6 {rest : Text} (hread : readV6 t = some (addr, rest)) : addr.withoutFlowinfo = addr := by
    simp only [readV6, Option.bind_eq_bind, Option.bind_eq_some_iff, Option.pure_def, Option.some.injEq] at hread
    obtain ⟨_, -, _, -, _, -, _, -, heq⟩ := hread
    rw [← (Prod.mk.inj heq).1]
    rfl
  have hv4 {rest : Text} (hread : readV4 t = some (addr, rest)) : addr.withoutFlowinfo = addr := by
    simp only [readV4, Option.bind_eq_bind, Option.bind_eq_some_iff, Option.pure_def, Option.some.injEq] at hread
    obtain ⟨_, -, _, -, heq⟩ := hread
    rw [← (Prod.mk.inj heq).1]
    rfl
  rw [parse] at h
  split at h
  · next addr' hread =>
      cases h
      rcases Option.or_eq_some_iff.mp hread with hread | ⟨-, hread⟩
      · exact hv4 hread
      · exact hv6 hread
  · cases h

/-- What the text of an address is made of. -/
def addressChars : List Char :=
  ['0', '1', '2', '3', '4', '5', '6', '7', '8', '9', 'a', 'b', 'c', 'd', 'e', 'f', '.', ':', '%', '[', ']']

/-- The text of an address has no other characters. -/
theorem mem_display {addr : SocketAddr} {c : Char} (h : c ∈ addr.display.toList) : c ∈ addressChars := by
  have hdigits {radix n : ℕ} (hradix : 1 < radix) (hle : radix ≤ 16) (hc : c ∈ Nat.toDigits radix n) :
      c ∈ addressChars := by
    obtain ⟨v, hv, rfl⟩ := mem_toDigits hradix hc
    have hall : ∀ v < 16, Nat.digitChar v ∈ addressChars := by decide
    exact hall v (by omega)
  have hten {n : ℕ} (hc : c ∈ Nat.toDigits 10 n) : c ∈ addressChars := hdigits (by decide) (by decide) hc
  have hipv4 {ip : Ipv4Addr} (hc : c ∈ ip.display.toList) : c ∈ addressChars := by
    rw [ip.toList_display] at hc
    simp only [List.mem_append, List.mem_cons] at hc
    rcases hc with hc | rfl | hc | rfl | hc | rfl | hc
    all_goals first | exact hten hc | decide
  have hgroups {gs : List ℕ} (hc : c ∈ groupsText gs) : c ∈ addressChars := by
    cases gs with
    | nil => exact absurd hc List.not_mem_nil
    | cons g gs =>
        rcases List.mem_append.mp hc with hc | hc
        · exact hdigits (by decide) le_rfl hc
        · obtain ⟨g', -, hc⟩ := List.mem_flatMap.mp hc
          rcases List.mem_cons.mp hc with rfl | hc
          · decide
          · exact hdigits (by decide) le_rfl hc
  have hipv6 {ip : Ipv6Addr} (hc : c ∈ ip.display.toList) : c ∈ addressChars := by
    unfold Ipv6Addr.display at hc
    split at hc
    · rw [String.toList_append] at hc
      rcases List.mem_append.mp hc with hc | hc
      · have hfront : ∀ c ∈ "::ffff:".toList, c ∈ addressChars := by simp [addressChars]
        exact hfront c hc
      · exact hipv4 hc
    · dsimp only at hc
      split at hc
      · rw [String.toList_append, String.toList_append, Ipv6Addr.toList_subslice, Ipv6Addr.toList_subslice] at hc
        simp only [List.mem_append] at hc
        rcases hc with (hc | hc) | hc
        · exact hgroups hc
        · have hcolons : ∀ c ∈ "::".toList, c ∈ addressChars := by simp [addressChars]
          exact hcolons c hc
        · exact hgroups hc
      · rw [Ipv6Addr.toList_subslice] at hc
        exact hgroups hc
  have hsigns : ∀ t ∈ [":", "[", "]:", "%"], ∀ c ∈ t.toList, c ∈ addressChars := by simp [addressChars]
  cases addr with
  | v4 ip port =>
      simp only [display, String.toList_append, List.mem_append, toList_decimal] at h
      rcases h with (h | h) | h
      · exact hipv4 h
      · exact hsigns ":" (by simp) c h
      · exact hten h
  | v6 ip port flowinfo scopeId =>
      rw [display] at h
      split at h
      · simp only [String.toList_append, List.mem_append, toList_decimal] at h
        rcases h with ((h | h) | h) | h
        · exact hsigns "[" (by simp) c h
        · exact hipv6 h
        · exact hsigns "]:" (by simp) c h
        · exact hten h
      · simp only [String.toList_append, List.mem_append, toList_decimal] at h
        rcases h with ((((h | h) | h) | h) | h) | h
        · exact hsigns "[" (by simp) c h
        · exact hipv6 h
        · exact hsigns "%" (by simp) c h
        · exact hten h
        · exact hsigns "]:" (by simp) c h
        · exact hten h

end SocketAddr

end SeedNet
