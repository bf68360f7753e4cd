import Mathlib.Data.List.Basic
import Mathlib.Data.List.Forall2
import Mathlib.Tactic.Ring
import SeedNet.Digits

/-! # IPv6 addresses and networks as text

The text of an address consists of eight groups of one to four hexadecimal digits, separated by colons.  One `::` may
stand for one or more groups of zeros, and the last two groups may be written as an IPv4 address.  The text of a
network is an address, a slash and the length of the prefix in bits.  `address` and `network` read such texts.

`address_intercalate` reads eight groups; `address_eq_none` says that a text whose first group is too long is no
address. -/

namespace Ipv6Text

open Digits (IsDigit number)

abbrev Text := List Char

/-! ### Addresses -/

/-- One to four hexadecimal digits. -/
def group (t : Text) : Option ℕ :=
  if 1 ≤ t.length ∧ t.length ≤ 4 ∧ t.all (IsDigit ·) then some (number 16 t) else none

/-- One to three decimal digits. -/
def decimal (t : Text) : Option ℕ :=
  if 1 ≤ t.length ∧ t.length ≤ 3 ∧ t.all Char.isDigit then some (number 10 t) else none

/-- Two groups as an IPv4 address. -/
def dotted (t : Text) : Option (List ℕ) :=
  match (t.splitOn '.').mapM decimal with
  | some [a, b, c, d] => if a < 256 ∧ b < 256 ∧ c < 256 ∧ d < 256 then some [a * 256 + b, c * 256 + d] else none
  | _ => none

/-- Groups, of which the last two may be written as an IPv4 address. -/
def groups : List Text → Option (List ℕ)
  | [] => some []
  | [t] => ((group t).map fun g => [g]).orElse fun _ => dotted t
  | t :: ts => (group t).bind fun g => (groups ts).map (g :: ·)

/-- The texts before and after the first `::`. -/
def halves : Text → Option (Text × Text)
  | ':' :: ':' :: t => some ([], t)
  | c :: t => (halves t).map fun (before, after) => (c :: before, after)
  | [] => none

/-- The eight groups of an address. -/
def address (t : Text) : Option (List ℕ) :=
  match halves t with
  | none => (groups (t.splitOn ':')).filter (·.length = 8)
  | some (before, after) => do
    let before ← if before = [] then some [] else (before.splitOn ':').mapM group
    let after ← if after = [] then some [] else groups (after.splitOn ':')
    if before.length + after.length < 8 then
      some (before ++ List.replicate (8 - before.length - after.length) 0 ++ after)
    else none

/-! ### Networks -/

structure Network where
  address : List ℕ
  len : ℕ
deriving DecidableEq

def network (t : Text) : Option Network :=
  match t.splitOn '/' with
  | [addr, len] => do
    let addr ← address addr
    let len ← (decimal len).filter (· ≤ 128)
    return ⟨addr, len⟩
  | _ => none

/-- The address as a number of 128 bits. -/
def bits (groups : List ℕ) : ℕ := groups.foldl (fun n g => n * 65536 + g) 0

namespace Network

/-- The bits of the prefix. -/
def leading (n : Network) (groups : List ℕ) : ℕ := bits groups / 2 ^ (128 - n.len)

/-- The address of these groups lies in the network. -/
def Contains (n : Network) (groups : List ℕ) : Prop := n.leading groups = n.leading n.address

/-- The two are the same network. -/
def Same (n m : Network) : Prop := n.len = m.len ∧ n.Contains m.address

end Network

/-! ### Reading groups -/

variable {t g rest : Text}

theorem group_eq_none (h : 4 < t.length) : group t = none := if_neg fun ⟨_, hle, _⟩ => absurd hle (Nat.not_le.mpr h)

theorem group_digits (hlen : 1 ≤ t.length ∧ t.length ≤ 4) (h : ∀ c ∈ t, IsDigit c) : group t = some (number 16 t) :=
  if_pos ⟨hlen.1, hlen.2, List.all_eq_true.mpr fun c hc => decide_eq_true (h c hc)⟩

theorem isDigit_of_group {n : ℕ} (h : group t = some n) : t ≠ [] ∧ ∀ c ∈ t, IsDigit c := by
  unfold group at h
  split_ifs at h with hdigits
  exact ⟨List.ne_nil_of_length_pos hdigits.1, fun c hc => of_decide_eq_true (List.all_eq_true.mp hdigits.2.2 c hc)⟩

theorem colon_not_mem_of_group {n : ℕ} (h : group t = some n) : ':' ∉ t := fun hc =>
  absurd ((isDigit_of_group h).2 ':' hc) (by decide)

/-- The texts of groups, and the groups. -/
abbrev AreGroups : List Text → List ℕ → Prop := List.Forall₂ fun p v => group p = some v

theorem groups_of_areGroups {ps : List Text} {vs : List ℕ} (h : AreGroups ps vs) : groups ps = some vs := by
  induction h with
  | nil => rfl
  | cons hv hrest ih =>
      cases hrest with
      | nil => rw [groups, hv]; rfl
      | cons hw hrest =>
          rw [groups, hv, ih]
          · rfl
          · exact List.cons_ne_nil _ _

theorem halves_cons {c : Char} (h : c ≠ ':') (t : Text) :
    halves (c :: t) = (halves t).map fun h => (c :: h.1, h.2) := by
  rw [halves]
  intro u hc
  exact absurd hc h

theorem halves_append (hg : ':' ∉ g) (t : Text) : halves (g ++ t) = (halves t).map fun h => (g ++ h.1, h.2) := by
  induction g with
  | nil => simp
  | cons c g ih =>
      rw [List.mem_cons, not_or] at hg
      rw [List.cons_append, halves_cons (Ne.symm hg.1), ih hg.2, Option.map_map]
      rfl

/-- Groups with single colons between them have no `::`. -/
theorem halves_intercalate {ps : List Text} {vs : List ℕ} (h : AreGroups ps vs) :
    halves ([':'].intercalate ps) = none := by
  induction h with
  | nil => rfl
  | @cons p v ps vs hv hrest ih =>
      have hp := colon_not_mem_of_group hv
      cases hrest with
      | nil =>
          rw [List.intercalate_singleton, ← List.append_nil p, halves_append hp]
          rfl
      | @cons q w ps vs hw hrest =>
          obtain ⟨c, q', rfl⟩ := List.exists_cons_of_ne_nil (isDigit_of_group hw).1
          have hc : c ≠ ':' := fun h => colon_not_mem_of_group hw (h ▸ List.mem_cons_self)
          have hcolon (u : Text) : halves (':' :: c :: u) = (halves (c :: u)).map fun h => (':' :: h.1, h.2) := by
            rw [halves]
            intro u' _ h
            exact absurd (List.cons.inj h).1 hc
          rw [List.intercalate_cons_cons_left] at ih
          rw [List.intercalate_cons_cons, List.intercalate_cons_cons_left, List.append_assoc, halves_append hp,
            List.singleton_append, hcolon, ih]
          rfl

theorem colon_not_mem_of_areGroups {ps : List Text} {vs : List ℕ} (h : AreGroups ps vs) : ∀ p ∈ ps, ':' ∉ p := by
  induction h with
  | nil => exact fun p hp => by cases hp
  | cons hv hrest ih => exact List.forall_mem_cons.mpr ⟨colon_not_mem_of_group hv, ih⟩

/-- Groups and colons are all there is. -/
theorem isDigit_or_colon {ps : List Text} {vs : List ℕ} (h : AreGroups ps vs) {c : Char}
    (hc : c ∈ [':'].intercalate ps) : IsDigit c ∨ c = ':' := by
  induction h with
  | nil => cases hc
  | cons hv hrest ih =>
      cases hrest with
      | nil =>
          rw [List.intercalate_singleton] at hc
          exact .inl ((isDigit_of_group hv).2 c hc)
      | cons hw hrest =>
          rw [List.intercalate_cons_cons, List.mem_append, List.mem_append, List.mem_singleton] at hc
          rcases hc with (hc | hc) | hc
          · exact .inl ((isDigit_of_group hv).2 c hc)
          · exact .inr hc
          · exact ih hc

/-- Eight groups with colons between them are an address. -/
theorem address_intercalate {ps : List Text} {vs : List ℕ} (h : AreGroups ps vs) (hlen : vs.length = 8) :
    address ([':'].intercalate ps) = some vs := by
  have hne : ps ≠ [] := by
    rintro rfl
    cases h
    cases hlen
  have hsplit := List.splitOn_intercalate ':' (colon_not_mem_of_areGroups h) hne
  rw [address, halves_intercalate h]
  simp only [hsplit, groups_of_areGroups h, Option.filter, hlen, decide_true, if_true]

/-! ### Groups that are too long -/

/-- The text before `::` is empty or starts as the whole text does. -/
theorem halves_start {c : Char} {before after : Text} (h : halves (c :: t) = some (before, after)) :
    before = [] ∨ ∃ u, before = c :: u := by
  unfold halves at h
  split at h
  · cases h
    exact .inl rfl
  · next d u _ heq =>
      obtain ⟨rfl, rfl⟩ := List.cons.inj heq
      obtain ⟨p, -, hp⟩ := Option.map_eq_some_iff.mp h
      cases hp
      exact .inr ⟨p.1, rfl⟩
  · next heq => cases heq

theorem mapM_group_eq_none (h : group g = none) (ps : List Text) : (g :: ps).mapM group = none := by
  rw [List.mapM_cons, h]
  rfl

theorem groups_eq_none (h : group g = none) {ps : List Text} (hps : ps ≠ []) : groups (g :: ps) = none := by
  obtain ⟨q, qs, rfl⟩ := List.exists_cons_of_ne_nil hps
  rw [groups, h]
  · rfl
  · exact List.cons_ne_nil q qs

/-- A text that starts with too long a group is no address. -/
theorem address_eq_none (hg : ':' ∉ g) (hlen : 4 < g.length) (rest : Text) : address (g ++ ':' :: rest) = none := by
  have hnone := group_eq_none hlen
  have hnil (u : Text) : g ++ u ≠ [] := by
    rintro h
    rw [(List.append_eq_nil_iff.mp h).1] at hlen
    cases hlen
  rw [address, halves_append hg]
  cases hh : halves (':' :: rest) with
  | none =>
      simp only [Option.map_none, List.splitOn_append_cons_self_of_not_mem hg,
        groups_eq_none hnone (List.splitOn_ne_nil ':' rest), Option.filter]
  | some p =>
      obtain ⟨before, after⟩ := p
      have hpieces : ((g ++ before).splitOn ':').mapM group = none := by
        rcases halves_start hh with rfl | ⟨u, rfl⟩
        · rw [List.append_nil, List.splitOn_eq_singleton hg]
          exact mapM_group_eq_none hnone []
        · rw [List.splitOn_append_cons_self_of_not_mem hg]
          exact mapM_group_eq_none hnone _
      simp only [Option.map_some, if_neg (hnil before), hpieces]
      rfl

/-! ### Networks -/

theorem network_append {addr len : Text} (ha : '/' ∉ addr) (hl : '/' ∉ len) :
    network (addr ++ '/' :: len) =
      (address addr).bind fun a => ((decimal len).filter (· ≤ 128)).map fun l => ⟨a, l⟩ := by
  have hsplit : (addr ++ '/' :: len).splitOn '/' = [addr, len] := by
    rw [List.splitOn_append_cons_self_of_not_mem ha, List.splitOn_eq_singleton hl]
  simp only [network, hsplit]
  cases address addr with
  | none => rfl
  | some a => cases (decimal len).filter (· ≤ 128) <;> rfl

theorem bits_append (xs ys : List ℕ) : bits (xs ++ ys) = bits xs * 65536 ^ ys.length + bits ys := by
  have hfold (n : ℕ) : ys.foldl (fun n g => n * 65536 + g) n = n * 65536 ^ ys.length + bits ys := by
    unfold bits
    induction ys generalizing n with
    | nil => simp
    | cons y ys ih =>
        rw [List.foldl_cons, List.foldl_cons, ih, ih (0 * 65536 + y), List.length_cons]
        ring
  rw [bits, List.foldl_append]
  exact hfold _

theorem bits_lt {ys : List ℕ} (h : ∀ g ∈ ys, g < 65536) : bits ys < 65536 ^ ys.length := by
  induction ys with
  | nil => exact Nat.one_pos
  | cons y ys ih =>
      have hy := h y List.mem_cons_self
      have hrest := ih fun g hg => h g (List.mem_cons_of_mem y hg)
      have hcons := bits_append [y] ys
      rw [List.singleton_append] at hcons
      rw [hcons, List.length_cons, pow_succ']
      have hone : bits [y] = y := by simp [bits]
      rw [hone]
      calc y * 65536 ^ ys.length + bits ys
          < y * 65536 ^ ys.length + 65536 ^ ys.length := Nat.add_lt_add_left hrest _
        _ = (y + 1) * 65536 ^ ys.length := by ring
        _ ≤ 65536 * 65536 ^ ys.length := Nat.mul_le_mul_right _ hy

namespace Network

variable {n : Network} {xs ys zs : List ℕ}

/-- A prefix of whole groups. -/
theorem leading_append (hn : n.len = 16 * xs.length) (hlen : xs.length + ys.length = 8) (h : ∀ g ∈ ys, g < 65536) :
    n.leading (xs ++ ys) = bits xs := by
  have hpow : 2 ^ (128 - n.len) = 65536 ^ ys.length := by
    have hbits : 128 - n.len = 16 * ys.length := by omega
    rw [hbits, pow_mul]
    rfl
  rw [leading, hpow, bits_append, Nat.mul_comm, Nat.mul_add_div (Nat.pow_pos (by omega)),
    Nat.div_eq_of_lt (bits_lt h), Nat.add_zero]

/-- An address that shares the groups of the prefix. -/
theorem contains_append (hn : n.len = 16 * xs.length) (haddr : n.address = xs ++ ys) (hys : xs.length + ys.length = 8)
    (hy : ∀ g ∈ ys, g < 65536) (hzs : xs.length + zs.length = 8) (hz : ∀ g ∈ zs, g < 65536) :
    n.Contains (xs ++ zs) := by
  rw [Contains, haddr, leading_append hn hys hy, leading_append hn hzs hz]

end Network

example : address "fd00::1".toList = some [0xfd00, 0, 0, 0, 0, 0, 0, 1] ∧
    address "::ffff:10.88.0.1".toList = some [0, 0, 0, 0, 0, 0xffff, 0xa58, 1] ∧ address "1::2::3".toList = none ∧
    network "2001:db8::/32".toList = some ⟨[0x2001, 0xdb8, 0, 0, 0, 0, 0, 0], 32⟩ := by
  decide +kernel

end Ipv6Text
