import SeedNet.Common
import SeedNet.Postcard
import SeedNet.Files
import SeedNet.Run

/-! # The identity of a first run

`StateDir::load_or_create_identity` (`crates/config/src/lib.rs`) loads `identity.bin`, or generates keys and saves
them with `atomic_write`: a temporary file is written, given its permissions and renamed.  `StateDir.next` is one
step on the files by one of any number of calls at once.  All of them use the same temporary file, and nothing ties
the rename to the load.

`first_identity_iff`: every call that succeeds has the identity that is loaded from then on, and `identity.bin` is
never corrupt, exactly in the runs in which every rename finds the caller's own bytes and no identity of others, and
no write comes after the rename of its file. -/

namespace SeedNet

open Files (Directory)
open Run (exec Along)

/-! ### The envelope -/

/-- The errors of the calls. -/
inductive ConfigError where
  /-- `Error::Io` with `ErrorKind::NotFound` -/
  | notFound
  /-- with the text of `cause` -/
  | identityCorrupt (cause : Postcard.Error)
  | unsupportedIdentityVersion (version : UInt32)
deriving DecidableEq

/-- The serialization envelope of `identity.bin`. -/
structure DeviceKeysBytes where
  version : UInt32
  seed : Bytes32
deriving DecidableEq

namespace DeviceKeysBytes

def currentVersion : UInt32 := 1

/-- The keys of a device hold the seed that they are derived from; here they are their seed. -/
def fromKeys (keys : Bytes32) : DeviceKeysBytes := ⟨currentVersion, keys⟩

def intoSeed (envelope : DeviceKeysBytes) : Except ConfigError Bytes32 :=
  if envelope.version ≠ currentVersion then .error (.unsupportedIdentityVersion envelope.version)
  else .ok envelope.seed

/-- `SecretKeyBytes`. -/
def seedCodec : Postcard.Codec Bytes32 :=
  (Postcard.fixed publicKeyLen).map (fun bs => if h : bs.length = publicKeyLen then ⟨bs, h⟩ else default) Bytes32.bytes

def codec : Postcard.Codec DeviceKeysBytes :=
  (Postcard.pair Postcard.u32 seedCodec).map (fun p => ⟨p.1, p.2⟩) fun e => (e.version, e.seed)

def toBytes (envelope : DeviceKeysBytes) : Bytes := codec.encode envelope

/-- Bytes behind the envelope are ignored. -/
def fromBytes (bytes : Bytes) : Except Postcard.Error DeviceKeysBytes := (codec.decode bytes).map Prod.fst

theorem seed_lossless : seedCodec.Lossless fun _ => True :=
  (Postcard.fixed_lossless publicKeyLen).map (fun seed _ => seed.length_eq) fun seed _ => dif_pos seed.length_eq

theorem fromBytes_toBytes (envelope : DeviceKeysBytes) : fromBytes envelope.toBytes = .ok envelope := by
  have hlossless : codec.Lossless fun _ => True :=
    (Postcard.pair_lossless Postcard.u32_lossless seed_lossless).map (fun _ _ => ⟨trivial, trivial⟩) fun _ _ => rfl
  have h := hlossless envelope trivial []
  rw [List.append_nil] at h
  rw [fromBytes, toBytes, h]
  rfl

theorem length_toBytes (keys : Bytes32) : (fromKeys keys).toBytes.length = 33 := by
  show (Postcard.u32.encode 1 ++ keys.bytes).length = 33
  rw [List.length_append, keys.length_eq]
  rfl

theorem fromBytes_nil : fromBytes [] = .error .deserializeUnexpectedEnd := rfl

end DeviceKeysBytes

open DeviceKeysBytes (fromKeys fromBytes fromBytes_toBytes length_toBytes fromBytes_nil)

/-! ### The calls -/

def identityFilename : String := "identity.bin"

/-- The temporary file of `atomic_write`. -/
def tempFilename (name : String) : String := "." ++ name ++ ".tmp"

/-- Load an existing identity, `none` if absent. -/
def loadIdentity (files : Directory String) : Except ConfigError (Option Bytes32) :=
  match files.read identityFilename with
  | none => .ok none
  | some bytes => do
    let envelope ← (fromBytes bytes).mapError .identityCorrupt
    let seed ← envelope.intoSeed
    .ok (some seed)

/-- The next step of a call. -/
inductive CallStage where
  | load
  /-- `fs::write` opens the temporary file -/
  | create
  | write (file : ℕ)
  | metadata
  | setPermissions
  | rename
  | returned (result : Except ConfigError Bytes32)
deriving DecidableEq

/-- A call of `load_or_create_identity`, with the keys that it generates if there is no identity. -/
structure IdentityCall where
  keys : Bytes32
  stage : CallStage := .load
deriving DecidableEq

/-- The files after the next step of a call, and how far the call is then. -/
def IdentityCall.step (c : IdentityCall) (files : Directory String) : Directory String × CallStage :=
  let tmp := tempFilename identityFilename
  match c.stage with
  | .load =>
    match loadIdentity files with
    | .ok (some keys) => (files, .returned (.ok keys))
    | .ok none => (files, .create)
    | .error e => (files, .returned (.error e))
  | .create => ((files.create tmp).1, .write (files.create tmp).2)
  | .write file => (files.write file (fromKeys c.keys).toBytes, .metadata)
  | .metadata => (files, if (files.entries tmp).isSome then .setPermissions else .returned (.error .notFound))
  | .setPermissions => (files, if (files.entries tmp).isSome then .rename else .returned (.error .notFound))
  | .rename =>
    match files.rename tmp identityFilename with
    | some files => (files, .returned (.ok c.keys))
    | none => (files, .returned (.error .notFound))
  | .returned result => (files, .returned result)

/-- A state directory and the calls on it. -/
structure StateDir where
  files : Directory String
  calls : List IdentityCall

namespace StateDir

/-- After a step of call `i`, which was `c`: the files, and how far the call is. -/
def after (s : StateDir) (i : ℕ) (c : IdentityCall) (r : Directory String × CallStage) : StateDir :=
  { files := r.1, calls := s.calls.set i { c with stage := r.2 } }

/-- The next step of call `i`. -/
def next (s : StateDir) (i : ℕ) : StateDir :=
  match s.calls[i]? with
  | none => s
  | some c => s.after i c (c.step s.files)

/-- **The identity is unique**: what calls have returned is what is loaded now. -/
structure IdentityUnique (s : StateDir) : Prop where
  same : ∀ c ∈ s.calls, ∀ keys, c.stage = .returned (.ok keys) → loadIdentity s.files = .ok (some keys)
  sound : ∀ cause, loadIdentity s.files ≠ .error (.identityCorrupt cause)

/-- If the step is a rename, the temporary file holds what the call has written, and `identity.bin` nothing else; if
it is a write, the file is not `identity.bin` by now, or holds the same bytes. -/
def OwnFile (s : StateDir) (i : ℕ) : Prop :=
  ∀ c, s.calls[i]? = some c →
    (c.stage = .rename → ∀ bytes, s.files.read (tempFilename identityFilename) = some bytes →
      bytes = (fromKeys c.keys).toBytes ∧ ∀ bytes', s.files.read identityFilename = some bytes' →
        bytes' = (fromKeys c.keys).toBytes) ∧
    ∀ file, c.stage = .write file → s.files.entries identityFilename = some file →
      s.files.content file = (fromKeys c.keys).toBytes

end StateDir

/-! ### What is loaded -/

section Load

variable {files files' : Directory String} {bytes : Bytes} {keys : Bytes32}

theorem loadIdentity_congr (h : files'.read identityFilename = files.read identityFilename) :
    loadIdentity files' = loadIdentity files := by
  rw [loadIdentity, loadIdentity, h]

theorem loadIdentity_none (h : files.read identityFilename = none) : loadIdentity files = .ok none := by
  rw [loadIdentity, h]

theorem loadIdentity_toBytes (h : files.read identityFilename = some (fromKeys keys).toBytes) :
    loadIdentity files = .ok (some keys) := by
  rw [loadIdentity, h]
  dsimp only
  rw [fromBytes_toBytes]
  rfl

theorem loadIdentity_nil (h : files.read identityFilename = some []) :
    loadIdentity files = .error (.identityCorrupt .deserializeUnexpectedEnd) := by
  rw [loadIdentity, h]
  dsimp only
  rw [fromBytes_nil]
  rfl

/-- A file that calls have opened: truncated, or written as a whole. -/
def Shaped (bytes : Bytes) : Prop := bytes = [] ∨ ∃ keys, bytes = (fromKeys keys).toBytes

theorem Shaped.eq_toBytes (hshaped : Shaped bytes) (h : files.read identityFilename = some bytes)
    (hload : loadIdentity files = .ok (some keys)) : bytes = (fromKeys keys).toBytes := by
  rcases hshaped with rfl | ⟨keys', rfl⟩
  · rw [loadIdentity_nil h] at hload
    cases hload
  · rw [loadIdentity_toBytes h] at hload
    cases hload
    rfl

/-- Writing covers what other calls have written. -/
theorem Shaped.write {file : ℕ} (hshaped : Shaped (files.content file)) :
    (files.write file (fromKeys keys).toBytes).content file = (fromKeys keys).toBytes := by
  have hdrop : (files.content file).drop (fromKeys keys).toBytes.length = [] := by
    rw [List.drop_eq_nil_iff, length_toBytes]
    rcases hshaped with hnil | ⟨keys', hbytes⟩
    · rw [hnil]
      exact Nat.zero_le _
    · rw [hbytes, length_toBytes]
  rw [Directory.content_write_self, hdrop, List.append_nil]

theorem Shaped.write_other {file other : ℕ} (hfile : Shaped (files.content file))
    (hother : Shaped (files.content other)) :
    Shaped ((files.write file (fromKeys keys).toBytes).content other) := by
  by_cases h : other = file
  · rw [h, hfile.write]
    exact .inr ⟨keys, rfl⟩
  · rw [Directory.content_write_of_ne h]
    exact hother

end Load

theorem tempFilename_ne : tempFilename identityFilename ≠ identityFilename := by decide

/-! ### Steps -/

/-- The call has opened the temporary file. -/
def CallStage.hasCreated : CallStage → Bool
  | .write _ | .metadata | .setPermissions | .rename => true
  | _ => false

namespace StateDir

/-- What holds of the files in every run. -/
structure Prepared (s : StateDir) : Prop where
  /-- whoever has renamed a file to `identity.bin` has returned -/
  identity : ∀ bytes, s.files.read identityFilename = some bytes →
    Shaped bytes ∧ ∃ c ∈ s.calls, ∃ keys, c.stage = .returned (.ok keys)
  temp : (∃ c ∈ s.calls, c.stage.hasCreated = true) →
    ∀ bytes, s.files.read (tempFilename identityFilename) = some bytes → Shaped bytes
  file : ∀ c ∈ s.calls, ∀ file, c.stage = .write file → Shaped (s.files.content file)

variable {s : StateDir} {i : ℕ} {c : IdentityCall}

theorem after_files (r : Directory String × CallStage) : (s.after i c r).files = r.1 := rfl

theorem after_calls (r : Directory String × CallStage) :
    (s.after i c r).calls = s.calls.set i { c with stage := r.2 } := rfl

theorem ownFile_of_call (hc : s.calls[i]? = some c)
    (hrename : c.stage = .rename → s.files.read (tempFilename identityFilename) = none)
    (hwrite : ∀ file, c.stage ≠ .write file) : s.OwnFile i := by
  intro c' hc'
  rw [hc] at hc'
  cases hc'
  refine ⟨fun hstage bytes hbytes => ?_, fun file hstage => absurd hstage (hwrite file)⟩
  rw [hrename hstage] at hbytes
  cases hbytes

/-- What a step does. -/
inductive Effect (s : StateDir) (i : ℕ) : StateDir → Prop
  | idle (hown : s.OwnFile i) : Effect s i s
  /-- the call goes on without a change to the files -/
  | stays (c : IdentityCall) (stage : CallStage) (hc : s.calls[i]? = some c)
      (hcall : ∀ result, c.stage ≠ .returned result)
      (hcreated : stage.hasCreated = true → c.stage.hasCreated = true) (hfile : ∀ file, stage ≠ .write file)
      (hload : ∀ keys, stage = .returned (.ok keys) → loadIdentity s.files = .ok (some keys)) (hown : s.OwnFile i) :
      Effect s i (s.after i c (s.files, stage))
  | creates (c : IdentityCall) (hc : s.calls[i]? = some c) (hstage : c.stage = .create) :
      Effect s i (s.after i c ((s.files.create (tempFilename identityFilename)).1,
        .write (s.files.create (tempFilename identityFilename)).2))
  | writes (c : IdentityCall) (file : ℕ) (hc : s.calls[i]? = some c) (hstage : c.stage = .write file) :
      Effect s i (s.after i c (s.files.write file (fromKeys c.keys).toBytes, .metadata))
  | renames (c : IdentityCall) (files : Directory String) (hc : s.calls[i]? = some c) (hstage : c.stage = .rename)
      (hfiles : s.files.rename (tempFilename identityFilename) identityFilename = some files) :
      Effect s i (s.after i c (files, .returned (.ok c.keys)))

section

variable (hc : s.calls[i]? = some c) (hcall : ∀ result, c.stage ≠ .returned result)
  (hwrite : ∀ file, c.stage ≠ .write file)
include hc hcall hwrite

theorem effect_stays (stage : CallStage) (hstep : c.step s.files = (s.files, stage))
    (hcreated : stage.hasCreated = true → c.stage.hasCreated = true) (hfile : ∀ file, stage ≠ .write file)
    (hload : ∀ keys, stage = .returned (.ok keys) → loadIdentity s.files = .ok (some keys))
    (hrename : c.stage = .rename → s.files.read (tempFilename identityFilename) = none) : Effect s i (s.next i) := by
  rw [next, hc]
  dsimp only
  rw [hstep]
  exact .stays c stage hc hcall hcreated hfile hload (ownFile_of_call hc hrename hwrite)

/-- The call looks for the temporary file. -/
theorem effect_checks (stage : CallStage) (hcreated : c.stage.hasCreated = true) (hrename : c.stage ≠ .rename)
    (hfile : ∀ file, stage ≠ .write file) (hok : ∀ keys, stage ≠ .returned (.ok keys))
    (hstep : c.step s.files = (s.files,
      if (s.files.entries (tempFilename identityFilename)).isSome then stage else .returned (.error .notFound))) :
    Effect s i (s.next i) := by
  split at hstep
  · exact effect_stays hc hcall hwrite stage hstep (fun _ => hcreated) hfile (fun keys h => absurd h (hok keys))
      fun h => absurd h hrename
  · exact effect_stays hc hcall hwrite _ hstep (fun _ => hcreated) (fun _ h => by cases h) (fun _ h => by cases h)
      fun h => absurd h hrename

end

/-- Every step has one of the effects. -/
theorem effect (s : StateDir) (i : ℕ) : Effect s i (s.next i) := by
  cases hc : s.calls[i]? with
  | none =>
      rw [next, hc]
      exact .idle fun c h => by rw [hc] at h; cases h
  | some c =>
      cases hstage : c.stage with
      | load =>
          have hcall : ∀ result, c.stage ≠ .returned result := fun _ h => by rw [hstage] at h; cases h
          have hwrite : ∀ file, c.stage ≠ .write file := fun _ h => by rw [hstage] at h; cases h
          have hrename : c.stage = .rename → s.files.read (tempFilename identityFilename) = none := fun h => by
            rw [hstage] at h
            cases h
          cases hload : loadIdentity s.files with
          | error e =>
              exact effect_stays hc hcall hwrite (.returned (.error e))
                (by simp only [IdentityCall.step, hstage, hload]) (fun h => by cases h) (fun _ h => by cases h)
                (fun _ h => by cases h) hrename
          | ok found =>
              cases found with
              | none =>
                  exact effect_stays hc hcall hwrite .create (by simp only [IdentityCall.step, hstage, hload])
                    (fun h => by cases h) (fun _ h => by cases h) (fun _ h => by cases h) hrename
              | some keys =>
                  exact effect_stays hc hcall hwrite (.returned (.ok keys))
                    (by simp only [IdentityCall.step, hstage, hload]) (fun h => by cases h) (fun _ h => by cases h)
                    (fun _ h => by cases h; exact hload) hrename
      | create =>
          have hnext := Effect.creates c hc hstage
          simp only [next, hc, IdentityCall.step, hstage]
          exact hnext
      | write file =>
          have hnext := Effect.writes c file hc hstage
          simp only [next, hc, IdentityCall.step, hstage]
          exact hnext
      | metadata =>
          exact effect_checks hc (by simp [hstage]) (by simp [hstage]) .setPermissions (by rw [hstage]; rfl)
            (by simp [hstage]) (by simp) (by simp) (by simp only [IdentityCall.step, hstage])
      | setPermissions =>
          exact effect_checks hc (by simp [hstage]) (by simp [hstage]) .rename (by rw [hstage]; rfl) (by simp [hstage])
            (by simp) (by simp) (by simp only [IdentityCall.step, hstage])
      | rename =>
          cases hfiles : s.files.rename (tempFilename identityFilename) identityFilename with
          | none =>
              have hnone := Directory.read_eq_none.mpr (Directory.rename_eq_none.mp hfiles)
              exact effect_stays hc (by simp [hstage]) (by simp [hstage]) (.returned (.error .notFound))
                (by simp only [IdentityCall.step, hstage, hfiles]) (fun h => by cases h) (fun _ h => by cases h)
                (fun _ h => by cases h) fun _ => hnone
          | some files =>
              have hnext := Effect.renames c files hc hstage hfiles
              simp only [next, hc, IdentityCall.step, hstage, hfiles]
              exact hnext
      | returned result =>
          have hidle : s.next i = s := by
            obtain ⟨hi, hget⟩ := List.getElem?_eq_some_iff.mp hc
            simp only [next, hc, IdentityCall.step, hstage]
            rw [← hstage, ← hget, after, List.set_getElem_self]
          rw [hidle]
          exact .idle (ownFile_of_call hc (by simp [hstage]) (by simp [hstage]))

/-- A call that has returned is not the one that makes a step. -/
theorem mem_after_of_returned (hc : s.calls[i]? = some c) (hstage : ∀ result, c.stage ≠ .returned result)
    (next : Directory String × CallStage) {r : IdentityCall} (hr : r ∈ s.calls) {keys : Bytes32}
    (hresult : r.stage = .returned (.ok keys)) : r ∈ (s.after i c next).calls := by
  obtain ⟨j, hj⟩ := List.getElem?_of_mem hr
  have hne : i ≠ j := by
    rintro rfl
    rw [hc] at hj
    cases hj
    exact hstage _ hresult
  refine List.mem_of_getElem? (i := j) ?_
  rw [after_calls, List.getElem?_set_ne hne, hj]

theorem IdentityUnique.of_load (hu : s.IdentityUnique) {files : Directory String} {stage : CallStage}
    (hload : loadIdentity files = loadIdentity s.files)
    (hstage : ∀ keys, stage = .returned (.ok keys) → loadIdentity s.files = .ok (some keys)) :
    (s.after i c (files, stage)).IdentityUnique where
  same r hr keys hresult := by
    rw [after_files, hload]
    rcases List.mem_or_eq_of_mem_set hr with hold | rfl
    · exact hu.same r hold keys hresult
    · exact hstage keys hresult
  sound cause := by
    rw [after_files, hload]
    exact hu.sound cause

/-- The file of another call, or none, is the one after a step that opens no file. -/
theorem file_of_after {files : Directory String} {stage : CallStage}
    (hshaped : ∀ c ∈ s.calls, ∀ file, c.stage = .write file → Shaped (files.content file))
    (hstage : ∀ file, stage = .write file → Shaped (files.content file)) :
    ∀ r ∈ (s.after i c (files, stage)).calls, ∀ file, r.stage = .write file → Shaped (files.content file) := by
  intro r hr file hfile
  rcases List.mem_or_eq_of_mem_set hr with hold | rfl
  · exact hshaped r hold file hfile
  · exact hstage file hfile

theorem hasCreated_of_after {files : Directory String} {stage : CallStage} (hc : s.calls[i]? = some c)
    (hstage : stage.hasCreated = true → c.stage.hasCreated = true)
    (h : ∃ r ∈ (s.after i c (files, stage)).calls, r.stage.hasCreated = true) :
    ∃ r ∈ s.calls, r.stage.hasCreated = true := by
  obtain ⟨r, hr, hcreated⟩ := h
  rcases List.mem_or_eq_of_mem_set hr with hold | rfl
  · exact ⟨r, hold, hcreated⟩
  · exact ⟨c, List.mem_of_getElem? hc, hstage hcreated⟩

namespace Prepared

/-- A step that leaves the files alone. -/
theorem stay (hs : s.Prepared) (hc : s.calls[i]? = some c) (hcall : ∀ result, c.stage ≠ .returned result)
    {stage : CallStage} (hcreated : stage.hasCreated = true → c.stage.hasCreated = true)
    (hfile : ∀ file, stage ≠ .write file) : (s.after i c (s.files, stage)).Prepared where
  identity bytes hbytes := by
    obtain ⟨hshaped, r, hr, keys, hresult⟩ := hs.identity bytes hbytes
    exact ⟨hshaped, r, mem_after_of_returned hc hcall _ hr hresult, keys, hresult⟩
  temp hex := hs.temp (hasCreated_of_after hc hcreated hex)
  file := file_of_after hs.file fun file h => absurd h (hfile file)

theorem create (hs : s.Prepared) (hc : s.calls[i]? = some c) (hstage : c.stage = .create) :
    (s.after i c ((s.files.create (tempFilename identityFilename)).1,
      .write (s.files.create (tempFilename identityFilename)).2)).Prepared := by
  have hcall : ∀ result, c.stage ≠ .returned result := fun _ h => by
    rw [hstage] at h
    cases h
  have hself : Shaped ((s.files.create (tempFilename identityFilename)).1.content
      (s.files.create (tempFilename identityFilename)).2) := by
    rw [Directory.content_create, Function.update_self]
    exact .inl rfl
  constructor
  case identity =>
    intro bytes hbytes
    rw [after_files, Directory.read_create_of_ne tempFilename_ne.symm] at hbytes
    obtain ⟨hshaped, r, hr, keys, hresult⟩ := hs.identity bytes hbytes
    exact ⟨hshaped, r, mem_after_of_returned hc hcall _ hr hresult, keys, hresult⟩
  case temp =>
    intro _ bytes hbytes
    rw [after_files, Directory.read, Directory.entries_create_self, Option.map_some, Option.some.injEq] at hbytes
    exact hbytes ▸ hself
  case file =>
    refine file_of_after (fun r hr file hfile => ?_) fun file hfile => ?_
    · by_cases hsame : file = (s.files.create (tempFilename identityFilename)).2
      · exact hsame ▸ hself
      · rw [Directory.content_create, Function.update_of_ne hsame]
        exact hs.file r hr file hfile
    · cases hfile
      exact hself

theorem write (hs : s.Prepared) (hc : s.calls[i]? = some c) {file : ℕ} (hstage : c.stage = .write file) :
    (s.after i c (s.files.write file (fromKeys c.keys).toBytes, .metadata)).Prepared := by
  have hcall : ∀ result, c.stage ≠ .returned result := fun _ h => by
    rw [hstage] at h
    cases h
  have hself : Shaped (s.files.content file) := hs.file c (List.mem_of_getElem? hc) file hstage
  constructor
  case identity =>
    intro bytes hbytes
    obtain ⟨j, hj, rfl⟩ := Directory.read_eq_some.mp hbytes
    obtain ⟨hshaped, r, hr, keys, hresult⟩ := hs.identity _ (Directory.read_eq_some.mpr ⟨j, hj, rfl⟩)
    exact ⟨hself.write_other hshaped, r, mem_after_of_returned hc hcall _ hr hresult, keys, hresult⟩
  case temp =>
    intro _ bytes hbytes
    obtain ⟨j, hj, rfl⟩ := Directory.read_eq_some.mp hbytes
    have hcreated : c.stage.hasCreated = true := by
      rw [hstage]
      rfl
    exact hself.write_other (hs.temp ⟨c, List.mem_of_getElem? hc, hcreated⟩ _ (Directory.read_eq_some.mpr ⟨j, hj, rfl⟩))
  case file =>
    exact file_of_after (fun r hr other hother => hself.write_other (hs.file r hr other hother)) fun _ h => by cases h

theorem rename (hs : s.Prepared) (hc : s.calls[i]? = some c) (hstage : c.stage = .rename) {files : Directory String}
    (hfiles : s.files.rename (tempFilename identityFilename) identityFilename = some files) :
    (s.after i c (files, .returned (.ok c.keys))).Prepared := by
  have hcreated : ∃ r ∈ s.calls, r.stage.hasCreated = true :=
    ⟨c, List.mem_of_getElem? hc, by rw [hstage]; rfl⟩
  obtain ⟨j, hj, hcontent, hentries⟩ := Directory.rename_eq_some hfiles
  obtain ⟨hi, -⟩ := List.getElem?_eq_some_iff.mp hc
  constructor
  case identity =>
    intro bytes hbytes
    rw [after_files, Directory.read_rename hfiles] at hbytes
    refine ⟨hs.temp hcreated bytes hbytes, _, List.mem_set hi _, c.keys, rfl⟩
  case temp =>
    intro _ bytes hbytes
    rw [after_files, Directory.read, hentries, Function.update_of_ne tempFilename_ne,
      Function.update_self] at hbytes
    cases hbytes
  case file =>
    refine file_of_after ?_ fun _ h => by cases h
    rw [hcontent]
    exact hs.file

/-- Every step keeps the files prepared. -/
theorem next (hs : s.Prepared) (i : ℕ) : (s.next i).Prepared := by
  have heffect := effect s i
  generalize s.next i = s' at heffect
  cases heffect with
  | idle hown => exact hs
  | stays c stage hc hcall hcreated hfile hload hown => exact hs.stay hc hcall hcreated hfile
  | creates c hc hstage => exact hs.create hc hstage
  | writes c file hc hstage => exact hs.write hc hstage
  | renames c files hc hstage hfiles => exact hs.rename hc hstage hfiles

end Prepared

theorem ownFile_write_iff (hc : s.calls[i]? = some c) {file : ℕ} (hstage : c.stage = .write file) : s.OwnFile i ↔
    (s.files.entries identityFilename = some file → s.files.content file = (fromKeys c.keys).toBytes) := by
  constructor
  · exact fun h => (h c hc).2 file hstage
  · intro h c' hc'
    rw [hc] at hc'
    cases hc'
    refine ⟨fun h' => absurd (hstage.symm.trans h') (by simp), fun file' h' => ?_⟩
    cases hstage.symm.trans h'
    exact h

theorem ownFile_rename_iff (hc : s.calls[i]? = some c) (hstage : c.stage = .rename) {bytes : Bytes}
    (hbytes : s.files.read (tempFilename identityFilename) = some bytes) : s.OwnFile i ↔
    bytes = (fromKeys c.keys).toBytes ∧ ∀ bytes', s.files.read identityFilename = some bytes' →
      bytes' = (fromKeys c.keys).toBytes := by
  constructor
  · exact fun h => (h c hc).1 hstage bytes hbytes
  · intro h c' hc'
    rw [hc] at hc'
    cases hc'
    refine ⟨fun _ found hfound => ?_, fun file' h' => absurd (hstage.symm.trans h') (by simp)⟩
    rw [hbytes] at hfound
    cases hfound
    exact h

/-- A write keeps the identity unique exactly if it is to another file, or changes nothing. -/
theorem Prepared.write_iff (hs : s.Prepared) (hu : s.IdentityUnique) (hc : s.calls[i]? = some c) {file : ℕ}
    (hstage : c.stage = .write file) :
    s.OwnFile i ↔ (s.after i c (s.files.write file (fromKeys c.keys).toBytes, .metadata)).IdentityUnique := by
  rw [ownFile_write_iff hc hstage]
  by_cases hfile : s.files.entries identityFilename = some file
  · have hself : Shaped (s.files.content file) := hs.file c (List.mem_of_getElem? hc) file hstage
    have hread : s.files.read identityFilename = some (s.files.content file) :=
      Directory.read_eq_some.mpr ⟨file, hfile, rfl⟩
    have hread' : (s.files.write file (fromKeys c.keys).toBytes).read identityFilename =
        some (fromKeys c.keys).toBytes := Directory.read_eq_some.mpr ⟨file, hfile, hself.write⟩
    constructor
    · intro hsame
      refine hu.of_load (loadIdentity_congr ?_) fun _ h => by cases h
      rw [hread, hread', hsame hfile]
    · intro hu' _
      -- the call that renamed the file has returned the keys in it
      obtain ⟨-, r, hr, keys, hresult⟩ := hs.identity _ hread
      have hbefore := hself.eq_toBytes hread (hu.same r hr keys hresult)
      have hafter := hu'.same r (mem_after_of_returned hc (by simp [hstage]) _ hr hresult) keys hresult
      rw [after_files, loadIdentity_toBytes hread'] at hafter
      cases hafter
      exact hbefore
  · refine iff_of_true (fun h => absurd h hfile) (hu.of_load ?_ fun _ h => by cases h)
    exact loadIdentity_congr (Directory.read_write_of_ne hfile _)

/-- A rename keeps the identity unique exactly if it is of the caller's bytes, over nothing else. -/
theorem Prepared.rename_iff (hs : s.Prepared) (hu : s.IdentityUnique) (hc : s.calls[i]? = some c)
    (hstage : c.stage = .rename) {files : Directory String}
    (hfiles : s.files.rename (tempFilename identityFilename) identityFilename = some files) :
    s.OwnFile i ↔ (s.after i c (files, .returned (.ok c.keys))).IdentityUnique := by
  obtain ⟨j, hj, -⟩ := Directory.rename_eq_some hfiles
  have hread : s.files.read (tempFilename identityFilename) = some (s.files.content j) :=
    Directory.read_eq_some.mpr ⟨j, hj, rfl⟩
  have hread' : files.read identityFilename = some (s.files.content j) := (Directory.read_rename hfiles).trans hread
  have hshaped : Shaped (s.files.content j) :=
    hs.temp ⟨c, List.mem_of_getElem? hc, by rw [hstage]; rfl⟩ _ hread
  obtain ⟨hi, -⟩ := List.getElem?_eq_some_iff.mp hc
  rw [ownFile_rename_iff hc hstage hread]
  constructor
  · rintro ⟨hown, hothers⟩
    rw [hown] at hread'
    have hload := loadIdentity_toBytes hread'
    refine ⟨fun r hr keys hresult => ?_, fun cause h => ?_⟩
    · rcases List.mem_or_eq_of_mem_set hr with hold | rfl
      · have hbefore := hu.same r hold keys hresult
        cases hfound : s.files.read identityFilename with
        | none =>
            rw [loadIdentity_none hfound] at hbefore
            cases hbefore
        | some bytes =>
            rw [hothers bytes hfound] at hfound
            rw [loadIdentity_toBytes hfound] at hbefore
            exact hload.trans hbefore
      · cases hresult
        exact hload
    · rw [after_files, hload] at h
      cases h
  · intro hu'
    have hload := hu'.same _ (List.mem_set hi _) c.keys rfl
    refine ⟨hshaped.eq_toBytes hread' hload, fun bytes hbytes => ?_⟩
    obtain ⟨hbytesShaped, r, hr, keys, hresult⟩ := hs.identity bytes hbytes
    have hafter := hu'.same r (mem_after_of_returned hc (by simp [hstage]) _ hr hresult) keys hresult
    rw [hload] at hafter
    cases hafter
    exact hbytesShaped.eq_toBytes hbytes (hu.same r hr _ hresult)

/-- A step keeps the identity unique exactly if it is on the caller's own file. -/
theorem Prepared.ownFile_iff (hs : s.Prepared) (hu : s.IdentityUnique) (i : ℕ) :
    s.OwnFile i ↔ (s.next i).IdentityUnique := by
  have heffect := effect s i
  generalize s.next i = s' at heffect
  cases heffect with
  | idle hown => exact iff_of_true hown hu
  | stays c stage hc hcall hcreated hfile hload hown => exact iff_of_true hown (hu.of_load rfl hload)
  | creates c hc hstage =>
      have hown : s.OwnFile i := ownFile_of_call hc (by simp [hstage]) (by simp [hstage])
      refine iff_of_true hown (hu.of_load ?_ fun _ h => by cases h)
      exact loadIdentity_congr (Directory.read_create_of_ne tempFilename_ne.symm)
  | writes c file hc hstage => exact hs.write_iff hu hc hstage
  | renames c files hc hstage hfiles => exact hs.rename_iff hu hc hstage hfiles

end StateDir

/-- **The identity of a first run is unique** in exactly those runs of concurrent calls in which every rename finds
the bytes of its call and no other identity, and every write comes before the rename of its file. -/
theorem first_identity_iff (s : StateDir) (hfirst : s.files.entries identityFilename = none)
    (hcalls : ∀ c ∈ s.calls, c.stage = .load) (as : List ℕ) :
    Along StateDir.next StateDir.OwnFile s as ↔ ∀ bs, bs <+: as → (exec StateDir.next s bs).IdentityUnique := by
  have hread := Directory.read_eq_none.mpr hfirst
  have hprepared : s.Prepared := by
    constructor
    case identity =>
      intro bytes hbytes
      rw [hread] at hbytes
      cases hbytes
    case temp =>
      rintro ⟨c, hc, hcreated⟩
      rw [hcalls c hc] at hcreated
      cases hcreated
    case file => exact fun c hc file hfile => absurd ((hcalls c hc).symm.trans hfile) (by simp)
  have hunique : s.IdentityUnique := by
    constructor
    case same => exact fun c hc keys hresult => absurd ((hcalls c hc).symm.trans hresult) (by simp)
    case sound =>
      intro cause
      rw [loadIdentity_none hread]
      simp
  exact Run.along_iff_invariant_of_allowed (J := StateDir.Prepared) (fun s i hs (_ : True) => hs.next i)
    (fun s i hs hu _ => hs.ownFile_iff hu i) hprepared hunique as fun _ _ => trivial

/-- Two first runs in an empty directory. -/
def twoFirstRuns : StateDir where
  files := Directory.empty String
  calls := [{ keys := .replicate 1 }, { keys := .replicate 2 }]

theorem first_identity_two :
    Along StateDir.next StateDir.OwnFile twoFirstRuns [0, 0, 0, 0, 0, 0, 1] ↔
      ∀ bs, bs <+: [0, 0, 0, 0, 0, 0, 1] → (exec StateDir.next twoFirstRuns bs).IdentityUnique :=
  first_identity_iff twoFirstRuns rfl (by simp [twoFirstRuns]) [0, 0, 0, 0, 0, 0, 1]

/-- Both calls load before either saves: the second replaces the identity that the first has returned.  If the second
opens the temporary file between the first one's write and rename, `identity.bin` is empty. -/
theorem second_identity_replaces :
    ((exec StateDir.next twoFirstRuns [0, 1, 0, 0, 0, 0, 0, 1, 1, 1, 1, 1]).calls.map (·.stage) =
        [.returned (.ok (.replicate 1)), .returned (.ok (.replicate 2))] ∧
      loadIdentity (exec StateDir.next twoFirstRuns [0, 1, 0, 0, 0, 0, 0, 1, 1, 1, 1, 1]).files =
        .ok (some (.replicate 2))) ∧
    loadIdentity (exec StateDir.next twoFirstRuns [0, 1, 0, 0, 1, 0, 0, 0]).files =
      .error (.identityCorrupt .deserializeUnexpectedEnd) := by
  refine ⟨⟨by decide +kernel, by decide +kernel⟩, by decide +kernel⟩

end SeedNet
