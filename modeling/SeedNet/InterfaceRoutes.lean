import SeedNet.IdentifierText
import SeedNet.Ipv6Text
import SeedNet.StunResponse

/-! # Routes into the overlay

`configure_interface_full` of `crates/tun/src/platform.rs` as the commands that it runs on Linux and on macOS.  The
last of them routes the /48 network of the device's overlay IPv6 address (`derive_overlay_ipv6` of
`crates/crypto/src/seed.rs`) to the TUN interface.

macOS is given an address of this network and the length of its prefix (`macos_route_contains`).  Linux is given a
text that starts with six digits, `fd` and the second and the third octet, and is no address
(`linuxPrefix48_invalid`).  So the two never agree (`ipv6_routes_never_agree`); what the command answers is only
logged. -/

namespace SeedNet

open Ipv6Text (Network network group AreGroups)
open Digits (IsDigit)

/-! ### The overlay IPv6 address -/

/-- `blake3::keyed_hash`: a key and the input. -/
abbrev KeyedBlake3 := Bytes32 → Bytes → Bytes32

/-- `b"seednet-overlay-ipv6-v1\0\0\0\0\0\0\0\0\0"`. -/
def overlayIpv6Key : Bytes32 :=
  ⟨[115, 101, 101, 100, 110, 101, 116, 45, 111, 118, 101, 114, 108, 97, 121, 45, 105, 112, 118, 54, 45, 118, 49] ++
    List.replicate 9 0, rfl⟩

/-- `u16::from_be_bytes`. -/
def segment (a b : UInt8) : UInt16 := (be16 a b).toUInt16

/-- `Ipv6Addr::new`. -/
def Ipv6Addr.new (a b c d e f g h : UInt16) : Ipv6Addr :=
  ⟨[a, b, c, d, e, f, g, h].flatMap fun s : UInt16 => [(s >>> 8).toUInt8, s.toUInt8], rfl⟩

/-- A stable address in `fd00::/8`: 40 bits of global ID, subnet 1 and 64 bits of interface ID. -/
def deriveOverlayIpv6 (keyedHash : KeyedBlake3) (peerId : PeerId) : Ipv6Addr :=
  let hash := keyedHash overlayIpv6Key peerId.asBytes
  let b := fun i => hash.bytes.getD i 0
  let seg0 := segment 0xfd (b 0)
  let seg1 := segment (b 1) (b 2)
  let seg2 := segment (b 3) (b 4)
  let seg3 : UInt16 := 0x0001
  let seg4 := segment (b 8) (b 9)
  let seg5 := segment (b 10) (b 11)
  let seg6 := segment (b 12) (b 13)
  let seg7 := segment (b 14) (b 15)
  .new seg0 seg1 seg2 seg3 seg4 seg5 seg6 seg7

/-! ### The commands -/

structure TunConfig where
  overlayAddr : Ipv4Addr
  overlayIpv6 : Option Ipv6Addr
  netmask : Ipv4Addr
  mtu : ℕ
  name : Option String

def subnetMask (pre : ℕ) : Ipv4Addr :=
  if 32 < pre then .broadcast
  else ipv4OfBits (if pre = 0 then 0 else ~~~0 <<< (32 - pre).toUInt32)

namespace TunConfig

def new (overlay : OverlayAddr) : TunConfig where
  overlayAddr := overlay.ip
  overlayIpv6 := none
  netmask := subnetMask overlaySubnetPrefix
  mtu := overlayMtu
  name := none

def withIpv6 (config : TunConfig) (addr : Ipv6Addr) : TunConfig := { config with overlayIpv6 := some addr }

end TunConfig

structure Command where
  program : String
  args : List String
deriving DecidableEq

inductive Os where
  | macos
  | linux

/-- `{:04x}`. -/
def hex04 (n : UInt16) : String := .ofList ([4096, 256, 16, 1].map fun d => Nat.digitChar (n.toNat / d % 16))

/-- The overlay IPv4 network. -/
def overlaySubnet : String := overlaySubnetBase.display ++ "/" ++ decimal overlaySubnetPrefix

section

variable (ipv6 : Ipv6Addr)

/-- The address that macOS routes. -/
def macosPrefix48 : String :=
  let o := fun i => ipv6.octets.getD i 0
  hex04 (segment (o 0) (o 1)) ++ ":" ++ hex04 (segment (o 2) (o 3)) ++ ":" ++ hex04 (segment (o 4) (o 5)) ++
    ":0:0:0:0:0"

/-- The network that Linux routes. -/
def linuxPrefix48 : String :=
  let o := fun i => ipv6.octets.getD i 0
  "fd" ++ hex [o 1] ++ hex [o 2] ++ ":" ++ hex [o 3] ++ hex [o 4] ++ ":" ++ hex [o 5] ++ hex [o 6] ++ "::/48"

variable (name : String)

def macosIpv6Commands : List Command :=
  [⟨"ifconfig", [name, "inet6", ipv6.display ++ "/48", "alias"]⟩,
    ⟨"route", ["-q", "-n", "add", "-inet6", macosPrefix48 ipv6, "-prefixlen", "48", "-interface", name]⟩]

def linuxIpv6Commands : List Command :=
  [⟨"ip", ["-6", "addr", "add", ipv6.display ++ "/48", "dev", name]⟩,
    ⟨"ip", ["-6", "route", "add", linuxPrefix48 ipv6, "dev", name]⟩]

end

/-- The command that has to start, and the others. -/
def interfaceCommands (os : Os) (name : String) (ip netmask : Ipv4Addr) (config : Option TunConfig) :
    Command × List Command :=
  let ipv6 := config.bind (·.overlayIpv6)
  match os with
  | .macos =>
    (⟨"ifconfig", [name, ip.display, overlaySubnetBase.display, "netmask", netmask.display, "up"]⟩,
      ⟨"route", ["-q", "-n", "add", "-net", overlaySubnet, "-interface", name]⟩ ::
        (ipv6.map fun ipv6 => macosIpv6Commands ipv6 name).getD [])
  | .linux =>
    (⟨"ip", ["link", "set", name, "up"]⟩,
      ⟨"ip", ["addr", "add", ip.display ++ "/" ++ decimal overlaySubnetPrefix, "dev", name]⟩ ::
        ⟨"ip", ["route", "add", overlaySubnet, "dev", name]⟩ ::
        (ipv6.map fun ipv6 => linuxIpv6Commands ipv6 name).getD [])

/-- The commands that are run, and the result: an error if the first one cannot be started. -/
def configureInterfaceFull {ε : Type} (os : Os) (start : Command → Except ε Unit) (name : String)
    (ip netmask : Ipv4Addr) (config : Option TunConfig) : List Command × Except ε Unit :=
  let (up, rest) := interfaceCommands os name ip netmask config
  match start up with
  | .error e => ([up], .error e)
  | .ok () => (up :: rest, .ok ())

/-! ### Texts of segments and octets -/

theorem toNat_segment (a b : UInt8) : (segment a b).toNat = a.toNat * 256 + b.toNat := toNat_be16 a b

theorem toList_hex04 (n : UInt16) :
    (hex04 n).toList = [4096, 256, 16, 1].map fun d => Nat.digitChar (n.toNat / d % 16) := String.toList_ofList

/-- A segment in four digits is a group. -/
theorem group_hex04 (n : UInt16) : group (hex04 n).toList = some n.toNat := by
  have hn : n.toNat < 65536 := n.toNat_lt
  have hdigits : ∀ c ∈ (hex04 n).toList, IsDigit c := by
    rw [toList_hex04]
    intro c hc
    obtain ⟨d, -, rfl⟩ := List.mem_map.mp hc
    exact Digits.isDigit_digitChar _ (Nat.mod_lt _ (by omega))
  have hlen : (hex04 n).toList.length = 4 := by
    rw [toList_hex04]
    rfl
  have hvalue (d : ℕ) : Digits.value (Nat.digitChar (n.toNat / d % 16)) = n.toNat / d % 16 :=
    Digits.value_digitChar _ (Nat.mod_lt _ (by decide))
  rw [Ipv6Text.group_digits (by omega) hdigits, toList_hex04, Digits.number]
  simp only [List.map_cons, List.map_nil, List.foldl_cons, List.foldl_nil, hvalue]
  exact congrArg some (by omega)

theorem isDigit_of_mem_hex {bs : Bytes} {c : Char} (h : c ∈ (hex bs).toList) : IsDigit c :=
  isDigit_of_mem_digits (toList_hex bs ▸ h)

theorem length_hex (bs : Bytes) : (hex bs).toList.length = 2 * bs.length := by rw [toList_hex, length_digits]

/-! ### Linux -/

/-- The text that Linux is given is no network, whatever the address. -/
theorem linuxPrefix48_invalid (ipv6 : Ipv6Addr) : network (linuxPrefix48 ipv6).toList = none := by
  let o := fun i => (hex [ipv6.octets.getD i 0]).toList
  have hdigit (i : ℕ) : ∀ c ∈ o i, IsDigit c := fun c => isDigit_of_mem_hex
  have hfirst : ∀ c ∈ ['f', 'd'] ++ o 1 ++ o 2, IsDigit c := by
    simp only [List.forall_mem_append, List.forall_mem_cons]
    exact ⟨⟨⟨by decide, by decide, fun _ h => by cases h⟩, hdigit 1⟩, hdigit 2⟩
  have hlen : (['f', 'd'] ++ o 1 ++ o 2).length = 6 := by
    simp only [o, List.length_append, length_hex, List.length_cons, List.length_nil]
  let more := o 3 ++ o 4 ++ [':'] ++ o 5 ++ o 6 ++ [':', ':']
  have hmore : '/' ∉ more := by
    have hslash (i : ℕ) : '/' ∉ o i := fun h => absurd (hdigit i '/' h) (by decide)
    simp only [more, List.mem_append, hslash, false_or, or_false]
    decide
  have htext : (linuxPrefix48 ipv6).toList = (['f', 'd'] ++ o 1 ++ o 2) ++ ':' :: more ++ '/' :: ['4', '8'] := by
    simp only [linuxPrefix48, String.toList_append, List.append_assoc, List.cons_append, more, o]
    rfl
  have hslash : '/' ∉ (['f', 'd'] ++ o 1 ++ o 2) ++ ':' :: more := by
    rw [List.mem_append, List.mem_cons, not_or, not_or]
    exact ⟨fun h => absurd (hfirst '/' h) (by decide), by decide, hmore⟩
  have hcolon : ':' ∉ ['f', 'd'] ++ o 1 ++ o 2 := fun h => absurd (hfirst ':' h) (by decide)
  rw [htext, Ipv6Text.network_append hslash (by decide), Ipv6Text.address_eq_none hcolon (by omega) more,
    Option.bind_none]

/-! ### macOS -/

/-- macOS is given an address and a length that denote the /48 network of the address. -/
theorem macosPrefix48_network (ipv6 : Ipv6Addr) :
    ∃ n, network ((macosPrefix48 ipv6).toList ++ '/' :: "48".toList) = some n ∧ n.len = 48 ∧
      n.Contains ipv6.segments := by
  let o := fun i => ipv6.octets.getD i 0
  let s := fun i => segment (o (2 * i)) (o (2 * i + 1))
  let ps := [(hex04 (s 0)).toList, (hex04 (s 1)).toList, (hex04 (s 2)).toList, ['0'], ['0'], ['0'], ['0'], ['0']]
  let xs := [(s 0).toNat, (s 1).toNat, (s 2).toNat]
  have hzero : group ['0'] = some 0 := by decide +kernel
  have hgroups : AreGroups ps (xs ++ [0, 0, 0, 0, 0]) :=
    .cons (group_hex04 _) <| .cons (group_hex04 _) <| .cons (group_hex04 _) <| .cons hzero <| .cons hzero <|
      .cons hzero <| .cons hzero <| .cons hzero .nil
  have htext : (macosPrefix48 ipv6).toList = [':'].intercalate ps := by
    simp only [macosPrefix48, String.toList_append, ps, List.intercalate_cons_cons, List.intercalate_singleton,
      List.append_assoc]
    rfl
  have hsegments : ipv6.segments = xs ++ [(s 3).toNat, (s 4).toNat, (s 5).toNat, (s 6).toNat, (s 7).toNat] := by
    simp only [xs, s, toNat_segment]
    rfl
  refine ⟨⟨xs ++ [0, 0, 0, 0, 0], 48⟩, ?_, rfl, ?_⟩
  · have hslash : '/' ∉ (macosPrefix48 ipv6).toList := by
      rw [htext]
      exact fun h => absurd (Ipv6Text.isDigit_or_colon hgroups h) (by decide)
    have hlen : (Ipv6Text.decimal "48".toList).filter (· ≤ 128) = some 48 := by decide +kernel
    rw [Ipv6Text.network_append hslash (by decide), htext, Ipv6Text.address_intercalate hgroups rfl, hlen]
    rfl
  · rw [hsegments]
    refine Network.contains_append rfl rfl rfl (by decide) rfl ?_
    simp only [List.forall_mem_cons]
    exact ⟨UInt16.toNat_lt _, UInt16.toNat_lt _, UInt16.toNat_lt _, UInt16.toNat_lt _, UInt16.toNat_lt _,
      fun _ h => by cases h⟩

/-! ### Both -/

/-- The first command is run, and the others once it has started. -/
theorem mem_configureInterfaceFull {ε : Type} {os : Os} {start : Command → Except ε Unit} {name : String}
    {ip netmask : Ipv4Addr} {config : Option TunConfig} {c : Command} :
    c ∈ (configureInterfaceFull os start name ip netmask config).1 ↔
      c = (interfaceCommands os name ip netmask config).1 ∨
        (configureInterfaceFull os start name ip netmask config).2 = .ok () ∧
          c ∈ (interfaceCommands os name ip netmask config).2 := by
  rw [configureInterfaceFull]
  cases h : start (interfaceCommands os name ip netmask config).1 with
  | error e => simp [h]
  | ok u =>
      cases u
      simp [h]

section

variable {ε : Type} (ip netmask : Ipv4Addr) (config : TunConfig) (ipv6 : Ipv6Addr) (name : String)

/-- The destination of a route that Linux adds over IPv6. -/
def linuxRoute (dst : String) : Command := ⟨"ip", ["-6", "route", "add", dst, "dev", name]⟩

/-- The address and the length of the prefix of a route that macOS adds over IPv6. -/
def macosRoute (addr len : String) : Command :=
  ⟨"route", ["-q", "-n", "add", "-inet6", addr, "-prefixlen", len, "-interface", name]⟩

/-- Linux adds one route over IPv6, if `ip link set` has been started. -/
theorem linuxRoute_mem_iff {start : Command → Except ε Unit} {dst : String} :
    linuxRoute name dst ∈ (configureInterfaceFull .linux start name ip netmask (some (config.withIpv6 ipv6))).1 ↔
      (configureInterfaceFull .linux start name ip netmask (some (config.withIpv6 ipv6))).2 = .ok () ∧
        dst = linuxPrefix48 ipv6 := by
  rw [mem_configureInterfaceFull]
  simp [interfaceCommands, linuxRoute, linuxIpv6Commands, TunConfig.withIpv6]

/-- macOS adds one route over IPv6, if `ifconfig` has been started. -/
theorem macosRoute_mem_iff {start : Command → Except ε Unit} {addr len : String} :
    macosRoute name addr len ∈
        (configureInterfaceFull .macos start name ip netmask (some (config.withIpv6 ipv6))).1 ↔
      (configureInterfaceFull .macos start name ip netmask (some (config.withIpv6 ipv6))).2 = .ok () ∧
        addr = macosPrefix48 ipv6 ∧ len = "48" := by
  rw [mem_configureInterfaceFull]
  simp [interfaceCommands, macosRoute, macosIpv6Commands, TunConfig.withIpv6]

/-- macOS is given the /48 network of the address, which lies in it. -/
theorem macos_route_contains {start : Command → Except ε Unit} {addr len : String}
    (h : macosRoute name addr len ∈
      (configureInterfaceFull .macos start name ip netmask (some (config.withIpv6 ipv6))).1) :
    ∃ n, network (addr.toList ++ '/' :: len.toList) = some n ∧ n.len = 48 ∧ n.Contains ipv6.segments := by
  obtain ⟨-, rfl, rfl⟩ := (macosRoute_mem_iff ip netmask config ipv6 name).mp h
  exact macosPrefix48_network ipv6

end

/-- Both add a route over IPv6, to the same /48 network, and the address lies in it. -/
def RoutesAgree (ipv6 : Ipv6Addr) (name : String) (linux macos : List Command) : Prop :=
  ∃ dst addr len n m, linuxRoute name dst ∈ linux ∧ macosRoute name addr len ∈ macos ∧
    network dst.toList = some n ∧ network (addr.toList ++ '/' :: len.toList) = some m ∧
    n.len = 48 ∧ n.Same m ∧ n.Contains ipv6.segments

/-- The destination on Linux is no network, whatever BLAKE3 computes. -/
theorem ipv6_routes_never_agree {ε : Type} (keyedHash : KeyedBlake3) (peerId : PeerId) (ip netmask : Ipv4Addr)
    (config : TunConfig) (name : String) (startLinux startMacos : Command → Except ε Unit) :
    let ipv6 := deriveOverlayIpv6 keyedHash peerId
    ¬ RoutesAgree ipv6 name
      (configureInterfaceFull .linux startLinux name ip netmask (some (config.withIpv6 ipv6))).1
      (configureInterfaceFull .macos startMacos name ip netmask (some (config.withIpv6 ipv6))).1 := by
  rintro ipv6 ⟨dst, -, -, n, -, hlinux, -, hn, -⟩
  obtain ⟨-, rfl⟩ := (linuxRoute_mem_iff ip netmask config ipv6 name).mp hlinux
  rw [linuxPrefix48_invalid] at hn
  cases hn

/-- BLAKE3 answers `0, 1, 2, …`, and all commands are run.  Linux is given `fd` and two more octets in the first
group, so that the others are one octet behind. -/
theorem ipv6_routes_disagree :
    let peerId := PeerId.replicate 7
    let ipv6 := deriveOverlayIpv6 (fun _ _ => ⟨(List.range 32).map Nat.toUInt8, rfl⟩) peerId
    let overlay := deriveOverlayAddr (fun _ _ => 0) peerId
    let commands := fun os =>
      (configureInterfaceFull (ε := Empty) os (fun _ => .ok ()) "tun0" overlay.ip (subnetMask overlaySubnetPrefix)
        (some ((TunConfig.new overlay).withIpv6 ipv6))).1
    linuxRoute "tun0" "fd0001:0203:0400::/48" ∈ commands .linux ∧ network "fd0001:0203:0400::/48".toList = none ∧
      macosRoute "tun0" "fd00:0102:0304:0:0:0:0:0" "48" ∈ commands .macos ∧
      ¬ RoutesAgree ipv6 "tun0" (commands .linux) (commands .macos) := by
  intro peerId ipv6 overlay commands
  have hlinux : linuxPrefix48 ipv6 = "fd0001:0203:0400::/48" := by decide +kernel
  have hmacos : macosPrefix48 ipv6 = "fd00:0102:0304:0:0:0:0:0" := by decide +kernel
  have hnone := linuxPrefix48_invalid ipv6
  have hmem {dst : String} (h : linuxRoute "tun0" dst ∈ commands .linux) : dst = linuxPrefix48 ipv6 :=
    ((linuxRoute_mem_iff _ _ _ ipv6 "tun0").mp h).2
  refine ⟨(linuxRoute_mem_iff _ _ _ ipv6 "tun0").mpr ⟨rfl, hlinux.symm⟩, hlinux ▸ hnone,
    (macosRoute_mem_iff _ _ _ ipv6 "tun0").mpr ⟨rfl, hmacos.symm, rfl⟩, ?_⟩
  rintro ⟨dst, -, -, n, -, hdst, -, hn, -⟩
  rw [hmem hdst, hnone] at hn
  cases hn

end SeedNet
