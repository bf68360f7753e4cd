import Mathlib.Data.List.DropRight
import SeedNet.SocketAddrText

/-! # From `up` to the daemon

`seednet up` (`crates/cli/src/main.rs`, `commands.rs`) reads its options and starts the same program as
`seednet _daemon`, with the options written out again: lists are joined with commas, addresses and transports are
written as text.  The daemon reads them and makes its configuration (`crates/core/src/config.rs`).  `Cli` is what the
argument parser makes of a command line; it passes texts on as they are, unless they look like options.

`trim`, `listed` and `commaList` are about lists of texts with commas.  `up_hands_over`: whatever the options of `up`
are, the daemon has the configuration that they describe. -/

namespace SeedNet

open Json (Text)

/-! ### Lists with commas -/

/-- `char::is_whitespace`. -/
def isWhitespace (c : Char) : Bool :=
  c.toNat ∈ [9, 10, 11, 12, 13, 32, 0x85, 0xA0, 0x1680, 0x2000, 0x2001, 0x2002, 0x2003, 0x2004, 0x2005, 0x2006,
    0x2007, 0x2008, 0x2009, 0x200A, 0x2028, 0x2029, 0x202F, 0x205F, 0x3000]

/-- `str::trim`. -/
def trim (t : Text) : Text := (t.dropWhile isWhitespace).rdropWhile isWhitespace

/-- No whitespace comes first or last. -/
def Trimmed (t : Text) : Prop := trim t = t

instance (t : Text) : Decidable (Trimmed t) := inferInstanceAs (Decidable (trim t = t))

theorem trimmed_of_forall {t : Text} (h : ∀ c ∈ t, isWhitespace c = false) : Trimmed t := by
  have hdrop : t.dropWhile isWhitespace = t := by
    cases t with
    | nil => rfl
    | cons c t => exact List.dropWhile_cons_of_neg (by rw [h c List.mem_cons_self]; exact Bool.false_ne_true)
  rw [Trimmed, trim, hdrop, List.rdropWhile_eq_self_iff]
  intro hne
  rw [h _ (List.getLast_mem hne)]
  exact Bool.false_ne_true

theorem trimmed_trim (t : Text) : Trimmed (trim t) := by
  have hfirst : (trim t).dropWhile isWhitespace = trim t := by
    obtain ⟨rest, hrest⟩ : trim t <+: t.dropWhile isWhitespace := List.rdropWhile_prefix _ _
    cases htrim : trim t with
    | nil => rfl
    | cons c t' =>
        rw [htrim, List.cons_append] at hrest
        have hne : t.dropWhile isWhitespace ≠ [] := hrest ▸ List.cons_ne_nil _ _
        have hc := List.head_dropWhile_not isWhitespace hne
        simp only [← hrest, List.head_cons] at hc
        exact List.dropWhile_cons_of_neg (by rw [hc]; exact Bool.false_ne_true)
  have hlast : (trim t).rdropWhile isWhitespace = trim t := List.rdropWhile_idempotent _ _
  rw [Trimmed, trim, hfirst, hlast]

theorem mem_of_mem_trim {t : Text} {c : Char} (h : c ∈ trim t) : c ∈ t :=
  (List.dropWhile_sublist _).subset ((List.rdropWhile_prefix _ _).subset h)

/-- The pieces of a list do not contain the separator. -/
theorem notMem_of_mem_splitOn {c : Char} {t piece : Text} (h : piece ∈ t.splitOn c) : c ∉ piece := by
  induction t generalizing piece with
  | nil =>
      rw [List.splitOn_nil, List.mem_singleton] at h
      rw [h]
      exact List.not_mem_nil
  | cons x t ih =>
      rw [List.splitOn_cons_eq_if_modifyHead] at h
      split at h
      · rcases List.mem_cons.mp h with rfl | h
        · exact List.not_mem_nil
        · exact ih h
      · next hne =>
          obtain ⟨first, rest, hsplit⟩ := List.exists_cons_of_ne_nil (List.splitOn_ne_nil c t)
          rw [hsplit, List.modifyHead_cons] at h
          rcases List.mem_cons.mp h with rfl | h
          · intro hmem
            rcases List.mem_cons.mp hmem with rfl | hmem
            · exact hne (beq_self_eq_true _)
            · exact ih (hsplit ▸ List.mem_cons_self) hmem
          · exact ih (hsplit ▸ List.mem_cons_of_mem _ h)

/-- The elements of a list with commas. -/
def commaList {β : Type} (read : Text → Option β) (s : Text) : List β :=
  (s.splitOn ',').filterMap fun t => read (trim t)

/-- `join(",")`. -/
def joinCommas (ts : List Text) : Text := [','].intercalate ts

theorem commaList_nil {β : Type} {read : Text → Option β} (hnil : read [] = none) : commaList read [] = [] :=
  List.filterMap_cons_none hnil

/-- What is written with commas is read back, if `read` undoes `write` and the texts are plain. -/
theorem commaList_joinCommas {β : Type} {read : Text → Option β} {write : β → Text} (hnil : read [] = none)
    {bs : List β} (h : ∀ b ∈ bs, read (write b) = some b ∧ Trimmed (write b) ∧ ',' ∉ write b) :
    commaList read (joinCommas (bs.map write)) = bs := by
  by_cases hbs : bs = []
  · subst hbs
    exact commaList_nil hnil
  · have hcomma : ∀ t ∈ bs.map write, ',' ∉ t := by
      intro t ht
      obtain ⟨b, hb, rfl⟩ := List.mem_map.mp ht
      exact (h b hb).2.2
    have hsome : bs.map write ≠ [] := fun hnil => hbs (List.map_eq_nil_iff.mp hnil)
    rw [commaList, joinCommas, List.splitOn_intercalate ',' hcomma hsome, List.filterMap_map]
    refine (List.filterMap_congr fun b hb => ?_).trans (List.filterMap_some ..)
    have htrim : trim (write b) = write b := (h b hb).2.1
    exact (congrArg read htrim).trans (h b hb).1

/-! ### The options -/

/-- The options of `up` and of `_daemon`, with their defaults. -/
structure Cli where
  stateDir : Option String := none
  seed : String
  port : Option UInt16 := none
  transport : String := "udp,tcp,ws"
  tracker : String := ""
  trackerUrl : String := ""

def TransportKind.ofName (t : Text) : Option TransportKind :=
  if t = ['u', 'd', 'p'] then some .udp
  else if t = ['t', 'c', 'p'] then some .tcp
  else if t = ['w', 's'] then some .ws
  else if t = ['w', 's', 's'] then some .wss
  else none

def TransportKind.debug : TransportKind → String
  | .udp => "Udp"
  | .tcp => "Tcp"
  | .ws => "Ws"
  | .wss => "Wss"

/-- `format!("{k:?}").to_ascii_lowercase()`. -/
def TransportKind.name (kind : TransportKind) : Text := kind.debug.toList.map Char.toLower

def parseTransports (s : String) : List TransportKind :=
  (s.toList.splitOn ',').filterMap fun t => TransportKind.ofName ((trim t).map Char.toLower)

def parseTrackers (s : String) : List SocketAddr :=
  if s = "" then [] else (s.toList.splitOn ',').filterMap fun t => SocketAddr.parse (trim t)

def parseTrackerUrls (s : String) : List String :=
  if s = "" then [] else (((s.toList.splitOn ',').map trim).filter (· ≠ [])).map String.ofList

structure SeedNetConfig where
  seed : String
  port : UInt16
  stateDir : String
  transports : List TransportKind
  trackerUrls : List String
  directPeers : List SocketAddr
deriving DecidableEq

section hand

/- The port derived from a seed, `DEFAULT_TRACKERS` and the state directory of the user. -/
variable (derivePort : String → UInt16) (defaultTrackers : List String) (userDir : String)

def SeedNetConfig.new (seed : String) (port : UInt16) (stateDir : String) : SeedNetConfig where
  seed := seed
  port := port
  stateDir := stateDir
  transports := [.udp, .tcp, .ws]
  trackerUrls := defaultTrackers
  directPeers := []

/-- `daemon`: lists that are not empty replace the defaults. -/
def SeedNetConfig.override (config : SeedNetConfig) (transports : List TransportKind) (directPeers : List SocketAddr)
    (trackerUrls : List String) : SeedNetConfig :=
  { config with
    transports := if transports = [] then config.transports else transports
    directPeers := if directPeers = [] then config.directPeers else directPeers
    trackerUrls := if trackerUrls = [] then config.trackerUrls else trackerUrls }

namespace Cli

/-- The configuration of `_daemon` with these options. -/
def daemon (cli : Cli) : SeedNetConfig :=
  (SeedNetConfig.new defaultTrackers cli.seed (cli.port.getD (derivePort cli.seed)) (cli.stateDir.getD userDir)).override
    (parseTransports cli.transport) (parseTrackers cli.tracker) (parseTrackerUrls cli.trackerUrl)

/-- `up`: the options that the daemon is started with. -/
def up (cli : Cli) : Cli where
  stateDir := cli.stateDir
  seed := cli.seed
  port := some (cli.port.getD (derivePort cli.seed))
  transport := .ofList (joinCommas ((parseTransports cli.transport).map TransportKind.name))
  tracker := .ofList (joinCommas ((parseTrackers cli.tracker).map fun addr => addr.display.toList))
  trackerUrl := .ofList (joinCommas ((parseTrackerUrls cli.trackerUrl).map String.toList))

/-- `start_daemon` of the TUI. -/
def startDaemon (stateDir seedInput : String) : Cli where
  stateDir := some stateDir
  seed := .ofList (trim seedInput.toList)

end Cli

/-! ### Nothing is lost -/

theorem parseTransports_ofList (t : Text) : parseTransports (.ofList t) =
    commaList (fun t => TransportKind.ofName (t.map Char.toLower)) t := by
  rw [parseTransports, String.toList_ofList, commaList]

/-- The check for an empty text makes no difference if nothing is read from it. -/
theorem ite_commaList {β : Type} {read : Text → Option β} (hnil : read [] = none) (t : Text) :
    (if String.ofList t = "" then [] else commaList read t) = commaList read t := by
  split
  · next hempty =>
      have ht : t = [] := by
        rw [← String.toList_ofList (l := t), hempty]
        rfl
      rw [ht, commaList_nil hnil]
  · rfl

theorem parseTrackers_ofList (t : Text) : parseTrackers (.ofList t) = commaList SocketAddr.parse t := by
  rw [parseTrackers, String.toList_ofList]
  exact ite_commaList rfl t

/-- A URL, if there is one. -/
def readUrl (t : Text) : Option String := if t = [] then none else some (.ofList t)

theorem parseTrackerUrls_ofList (t : Text) : parseTrackerUrls (.ofList t) = commaList readUrl t := by
  have hread : (((t.splitOn ',').map trim).filter (· ≠ [])).map String.ofList = commaList readUrl t := by
    rw [commaList]
    induction t.splitOn ',' with
    | nil => rfl
    | cons piece pieces ih =>
        rw [List.map_cons, List.filterMap_cons, readUrl]
        by_cases hnil : trim piece = []
        · rw [List.filter_cons_of_neg (by simpa using hnil), if_pos hnil, ih]
        · rw [List.filter_cons_of_pos (by simpa using hnil), if_neg hnil, List.map_cons, ih]
  rw [parseTrackerUrls, String.toList_ofList, hread]
  exact ite_commaList rfl t

theorem parseTransports_join (kinds : List TransportKind) :
    parseTransports (.ofList (joinCommas (kinds.map TransportKind.name))) = kinds := by
  rw [parseTransports_ofList]
  refine commaList_joinCommas rfl fun kind _ => ?_
  cases kind <;> decide

/-- Addresses without flow labels are read back. -/
theorem parseTrackers_join {addrs : List SocketAddr} (h : ∀ addr ∈ addrs, addr.withoutFlowinfo = addr) :
    parseTrackers (.ofList (joinCommas (addrs.map fun addr => addr.display.toList))) = addrs := by
  have hchars : ∀ c ∈ SocketAddr.addressChars, isWhitespace c = false ∧ c ≠ ',' := by
    simp [SocketAddr.addressChars, isWhitespace]
  rw [parseTrackers_ofList]
  refine commaList_joinCommas rfl fun addr haddr => ⟨?_, ?_, fun hcomma => ?_⟩
  · rw [SocketAddr.parse_display, h addr haddr]
  · exact trimmed_of_forall fun c hc => (hchars c (SocketAddr.mem_display hc)).1
  · exact (hchars ',' (SocketAddr.mem_display hcomma)).2 rfl

theorem withoutFlowinfo_of_mem_parseTrackers {s : String} {addr : SocketAddr} (h : addr ∈ parseTrackers s) :
    addr.withoutFlowinfo = addr := by
  rw [parseTrackers] at h
  split at h
  · exact absurd h List.not_mem_nil
  · obtain ⟨t, -, hparse⟩ := List.mem_filterMap.mp h
    exact SocketAddr.withoutFlowinfo_of_parse hparse

/-- URLs without commas and whitespace around them are read back. -/
theorem parseTrackerUrls_join {urls : List String}
    (h : ∀ url ∈ urls, url.toList ≠ [] ∧ Trimmed url.toList ∧ ',' ∉ url.toList) :
    parseTrackerUrls (.ofList (joinCommas (urls.map String.toList))) = urls := by
  rw [parseTrackerUrls_ofList]
  refine commaList_joinCommas rfl fun url hurl => ⟨?_, (h url hurl).2⟩
  rw [readUrl, if_neg (h url hurl).1, String.ofList_toList]

theorem plain_of_mem_parseTrackerUrls {s url : String} (h : url ∈ parseTrackerUrls s) :
    url.toList ≠ [] ∧ Trimmed url.toList ∧ ',' ∉ url.toList := by
  rw [parseTrackerUrls] at h
  split at h
  · exact absurd h List.not_mem_nil
  · obtain ⟨t, ht, rfl⟩ := List.mem_map.mp h
    obtain ⟨hmem, hne⟩ := List.mem_filter.mp ht
    obtain ⟨piece, hpiece, rfl⟩ := List.mem_map.mp hmem
    rw [String.toList_ofList]
    have hplain : ',' ∉ trim piece := fun hcomma => notMem_of_mem_splitOn hpiece (mem_of_mem_trim hcomma)
    exact ⟨of_decide_eq_true hne, trimmed_trim piece, hplain⟩

theorem Cli.daemon_up (cli : Cli) :
    (cli.up derivePort).daemon derivePort defaultTrackers userDir = cli.daemon derivePort defaultTrackers userDir := by
  have htransports : parseTransports (cli.up derivePort).transport = parseTransports cli.transport :=
    parseTransports_join _
  have htrackers : parseTrackers (cli.up derivePort).tracker = parseTrackers cli.tracker :=
    parseTrackers_join fun _ haddr => withoutFlowinfo_of_mem_parseTrackers haddr
  have hurls : parseTrackerUrls (cli.up derivePort).trackerUrl = parseTrackerUrls cli.trackerUrl :=
    parseTrackerUrls_join fun _ hurl => plain_of_mem_parseTrackerUrls hurl
  rw [Cli.daemon, Cli.daemon, htransports, htrackers, hurls]
  rfl

/-- **`up` loses nothing.**  The daemon that it starts has the configuration that the options of `up` describe; and
the daemon that the TUI starts has that of `up` without options, with the same seed but for whitespace around it.  The
texts are what the argument parser takes as values: one that looks like an option, such as a seed `-x`, is refused by
the parser of `_daemon`. -/
theorem up_hands_over (cli : Cli) (stateDir seedInput : String) :
    (cli.up derivePort).daemon derivePort defaultTrackers userDir = cli.daemon derivePort defaultTrackers userDir ∧
      (Cli.startDaemon stateDir seedInput).daemon derivePort defaultTrackers userDir =
        (Cli.up derivePort { stateDir := stateDir, seed := .ofList (trim seedInput.toList) }).daemon derivePort
          defaultTrackers userDir :=
  ⟨cli.daemon_up .., (Cli.daemon_up ..).symm⟩

end hand

end SeedNet
