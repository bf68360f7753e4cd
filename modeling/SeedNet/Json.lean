import Mathlib.Data.List.TakeWhile
import Mathlib.Data.List.Basic

/-! # JSON texts

The grammar of JSON, as a parser of lists of characters.

`value` reads one value and returns the rest of the text.  The content of a string literal is found first
(`scan`: up to the next quote that no backslash precedes) and then decoded: `units` reads the escapes, `join`
puts surrogate pairs together.  `parse` reads a whole text.  `Reads` is the grammar, without fuel, and
`parse_eq_some` says that the parser decides it. -/

namespace Json

abbrev Text := List Char

inductive Value where
  | null
  | bool (b : Bool)
  | number (digits : Text)
  | string (s : Text)
  | array (elements : List Value)
  | object (members : List (Text × Value))

namespace Value

def asStr : Value → Option Text
  | .string s => some s
  | _ => none

def asArray : Value → Option (List Value)
  | .array vs => some vs
  | _ => none

/-- The member `key` of an object, the last one if there are several; `null` if there is none. -/
def get (v : Value) (key : Text) : Value :=
  match v with
  | .object ms => ((ms.reverse.find? fun m => m.1 = key).map Prod.snd).getD .null
  | _ => .null

/-- An integer literal that fits 64 bits. -/
def asU64 : Value → Option ℕ
  | .number digits =>
    let n := Nat.ofDigitChars 10 digits 0
    if digits.all Char.isDigit && n < UInt64.size then some n else none
  | _ => none

/-- `s` stands somewhere in `v`, other than as a key. -/
inductive Has (s : Text) : Value → Prop
  | string : Has s (.string s)
  | array {vs : List Value} {v : Value} (hmem : v ∈ vs) (h : Has s v) : Has s (.array vs)
  | object {ms : List (Text × Value)} {m : Text × Value} (hmem : m ∈ ms) (h : Has s m.2) : Has s (.object ms)

end Value

namespace Value

theorem get_cons_of_ne {k key : Text} (h : k ≠ key) (v : Value) (ms : List (Text × Value)) :
    (Value.object ((k, v) :: ms)).get key = (Value.object ms).get key := by
  simp [get, List.find?_append, h]

theorem Has.of_get {ms : List (Text × Value)} {key s : Text} (h : ((Value.object ms).get key).Has s) :
    ∃ m ∈ ms, m.2.Has s := by
  unfold get at h
  dsimp only at h
  cases hfind : ms.reverse.find? fun m => m.1 = key with
  | none => rw [hfind] at h; cases h
  | some m =>
      rw [hfind] at h
      exact ⟨m, List.mem_reverse.mp (List.mem_of_find?_eq_some hfind), h⟩

/-- A string of a member is a string of the object. -/
theorem Has.get {v : Value} {key s : Text} (h : (v.get key).Has s) : v.Has s := by
  cases v with
  | object ms =>
      obtain ⟨m, hmem, hm⟩ := h.of_get
      exact .object hmem hm
  | null | bool | number | string | array => cases h

end Value

/-! ### Characters -/

def isSpace (c : Char) : Bool := c = ' ' || c = '\t' || c = '\n' || c = '\r'

/-- The text without leading white space. -/
def skip (t : Text) : Text := t.dropWhile isSpace

/-- The characters of number literals. -/
def isNumberChar (c : Char) : Bool := c.isDigit || c = '-' || c = '+' || c = '.' || c = 'e' || c = 'E'

/-- The characters that stand for themselves in a string literal. -/
def isPlain (c : Char) : Bool := c ≠ '"' && c ≠ '\\' && 0x20 ≤ c.toNat

def hexDigit (c : Char) : Option ℕ :=
  if c.isDigit then some (c.toNat - '0'.toNat)
  else if 'a' ≤ c ∧ c ≤ 'f' then some (c.toNat - 'a'.toNat + 10)
  else if 'A' ≤ c ∧ c ≤ 'F' then some (c.toNat - 'A'.toNat + 10)
  else none

/-- Four hexadecimal digits. -/
def hex4 (a b c d : Char) : Option ℕ := do
  let a ← hexDigit a
  let b ← hexDigit b
  let c ← hexDigit c
  let d ← hexDigit d
  return ((a * 16 + b) * 16 + c) * 16 + d

/-! ### Strings -/

/-- The content of a string literal and what follows its closing quote. -/
def scan : Text → Option (Text × Text)
  | [] => none
  | '"' :: t => some ([], t)
  | '\\' :: c :: t => (scan t).map fun r => ('\\' :: c :: r.1, r.2)
  | c :: t => (scan t).map fun r => (c :: r.1, r.2)

/-- The character of an escape of one letter. -/
def escaped : Char → Option Char
  | '"' => some '"'
  | '\\' => some '\\'
  | '/' => some '/'
  | 'b' => some '\x08'
  | 'f' => some '\x0c'
  | 'n' => some '\n'
  | 'r' => some '\r'
  | 't' => some '\t'
  | _ => none

/-- The characters of a literal, and the code units of its `\u` escapes. -/
def units : Text → Option (List (Char ⊕ ℕ))
  | [] => some []
  | '\\' :: 'u' :: a :: b :: c :: d :: t => do
    let n ← hex4 a b c d
    let us ← units t
    return .inr n :: us
  | '\\' :: c :: t => do
    let c ← escaped c
    let us ← units t
    return .inl c :: us
  | c :: t => if isPlain c then (units t).map (.inl c :: ·) else none

def isHighSurrogate (n : ℕ) : Bool := 0xD800 ≤ n && n < 0xDC00

def isLowSurrogate (n : ℕ) : Bool := 0xDC00 ≤ n && n < 0xE000

/-- Code units to characters; a surrogate on its own is an error. -/
def join : List (Char ⊕ ℕ) → Option Text
  | [] => some []
  | .inl c :: us => (join us).map (c :: ·)
  | .inr n :: us =>
    if isHighSurrogate n then
      match us with
      | .inr lo :: us =>
        if isLowSurrogate lo then
          (join us).map (Char.ofNat (0x10000 + (n - 0xD800) * 0x400 + (lo - 0xDC00)) :: ·)
        else none
      | _ => none
    else if isLowSurrogate n then none
    else (join us).map (Char.ofNat n :: ·)

def decode (literal : Text) : Option Text := (units literal).bind join

/-- A string after its opening quote. -/
def stringTail (t : Text) : Option (Text × Text) := do
  let (literal, rest) ← scan t
  let s ← decode literal
  return (s, rest)

/-! ### Numbers -/

def isExponent : Text → Bool
  | [] => true
  | e :: t =>
    let digits := match t with
      | '+' :: t | '-' :: t => t
      | t => t
    (e = 'e' || e = 'E') && !digits.isEmpty && digits.all Char.isDigit

def isFraction : Text → Bool
  | '.' :: d :: t => d.isDigit && isExponent (t.dropWhile Char.isDigit)
  | t => isExponent t

/-- The number literals. -/
def isNumber (t : Text) : Bool :=
  let t := match t with
    | '-' :: t => t
    | t => t
  match t with
  | '0' :: t => isFraction t
  | d :: t => d.isDigit && isFraction (t.dropWhile Char.isDigit)
  | [] => false

/-- The longest run of characters of numbers, if it is a number. -/
def number (t : Text) : Option (Value × Text) :=
  let digits := t.takeWhile isNumberChar
  if isNumber digits then some (.number digits, t.dropWhile isNumberChar) else none

/-! ### Values -/

/-- A value that is not a string, an array or an object. -/
def atom : Text → Option (Value × Text)
  | 't' :: 'r' :: 'u' :: 'e' :: t => some (.bool true, t)
  | 'f' :: 'a' :: 'l' :: 's' :: 'e' :: t => some (.bool false, t)
  | 'n' :: 'u' :: 'l' :: 'l' :: t => some (.null, t)
  | t => number t

mutual

/-- A value, after white space. -/
def value : ℕ → Text → Option (Value × Text)
  | 0, _ => none
  | n + 1, t =>
    match skip t with
    | '"' :: t => (stringTail t).map fun r => (.string r.1, r.2)
    | '[' :: t =>
      match skip t with
      | ']' :: t => some (.array [], t)
      | _ => (elements n t).map fun r => (.array r.1, r.2)
    | '{' :: t =>
      match skip t with
      | '}' :: t => some (.object [], t)
      | _ => (members n t).map fun r => (.object r.1, r.2)
    | t => atom t

/-- The elements of an array, at least one, and the closing bracket. -/
def elements : ℕ → Text → Option (List Value × Text)
  | 0, _ => none
  | n + 1, t => do
    let (v, t) ← value n t
    match skip t with
    | ',' :: t => (elements n t).map fun r => (v :: r.1, r.2)
    | ']' :: t => some ([v], t)
    | _ => none

/-- The members of an object, at least one, and the closing brace. -/
def members : ℕ → Text → Option (List (Text × Value) × Text)
  | 0, _ => none
  | n + 1, t =>
    match skip t with
    | '"' :: t => do
      let (key, t) ← stringTail t
      match skip t with
      | ':' :: t => do
        let (v, t) ← value n t
        match skip t with
        | ',' :: t => (members n t).map fun r => ((key, v) :: r.1, r.2)
        | '}' :: t => some ([(key, v)], t)
        | _ => none
      | _ => none
    | _ => none

end

/-- The value of a whole text. -/
def parse (t : Text) : Option Value :=
  match value (2 * t.length + 1) t with
  | some (v, rest) => if skip rest = [] then some v else none
  | none => none

/-! ### The grammar -/

/-- What stands in a text: a value, the elements of an array or the members of an object. -/
inductive Part where
  | value (v : Value)
  | elements (vs : List Value)
  | members (ms : List (Text × Value))

/-- `Reads t p r`: the text `t` starts with `p`, and `r` follows. -/
inductive Reads : Text → Part → Text → Prop
  | string {t u r s : Text} (ht : skip t = '"' :: u) (hs : stringTail u = some (s, r)) :
      Reads t (.value (.string s)) r
  | emptyArray {t u r : Text} (ht : skip t = '[' :: u) (hu : skip u = ']' :: r) : Reads t (.value (.array [])) r
  | array {t u r : Text} {vs : List Value} (ht : skip t = '[' :: u) (hvs : Reads u (.elements vs) r) :
      Reads t (.value (.array vs)) r
  | emptyObject {t u r : Text} (ht : skip t = '{' :: u) (hu : skip u = '}' :: r) : Reads t (.value (.object [])) r
  | object {t u r : Text} {ms : List (Text × Value)} (ht : skip t = '{' :: u) (hms : Reads u (.members ms) r) :
      Reads t (.value (.object ms)) r
  | atom {t r : Text} {v : Value} (ht : atom (skip t) = some (v, r)) : Reads t (.value v) r
  | lastElement {t u r : Text} {v : Value} (hv : Reads t (.value v) u) (hu : skip u = ']' :: r) :
      Reads t (.elements [v]) r
  | element {t u w r : Text} {v : Value} {vs : List Value} (hv : Reads t (.value v) u) (hu : skip u = ',' :: w)
      (hvs : Reads w (.elements vs) r) : Reads t (.elements (v :: vs)) r
  | lastMember {t u w x y r key : Text} {v : Value} (ht : skip t = '"' :: u) (hkey : stringTail u = some (key, w))
      (hw : skip w = ':' :: x) (hv : Reads x (.value v) y) (hy : skip y = '}' :: r) :
      Reads t (.members [(key, v)]) r
  | member {t u w x y z r key : Text} {v : Value} {ms : List (Text × Value)} (ht : skip t = '"' :: u)
      (hkey : stringTail u = some (key, w)) (hw : skip w = ':' :: x) (hv : Reads x (.value v) y)
      (hy : skip y = ',' :: z) (hms : Reads z (.members ms) r) : Reads t (.members ((key, v) :: ms)) r

/-! White space and string literals. -/

theorem skip_of_not_space {c : Char} {t : Text} (h : isSpace c = false) : skip (c :: t) = c :: t := by
  rw [skip, List.dropWhile_cons_of_neg (by simp [h])]

theorem suffix_of_skip {t u : Text} {c : Char} (h : skip t = c :: u) : c :: u <:+ t := by
  rw [← h]
  exact List.dropWhile_suffix isSpace

theorem skip_append {t u s : Text} {c : Char} (h : skip t = c :: u) : skip (t ++ s) = c :: (u ++ s) := by
  rw [skip, List.dropWhile_append, ← skip, h]
  rfl

theorem skip_append_of_nil {t s : Text} (h : skip t = []) : skip (t ++ s) = skip s := by
  rw [skip, List.dropWhile_append, ← skip, h]
  rfl

theorem eq_of_scan {t literal r : Text} (h : scan t = some (literal, r)) : t = literal ++ '"' :: r := by
  induction t using scan.induct generalizing literal with
  | case1 => cases h
  | case2 t => cases h; rfl
  | case3 c t ih =>
      rw [scan] at h
      obtain ⟨⟨literal', r'⟩, hscan, heq⟩ := Option.map_eq_some_iff.mp h
      cases heq
      rw [ih hscan]
      rfl
  | case4 c t hquote hescape ih =>
      rw [scan] at h
      · obtain ⟨⟨literal', r'⟩, hscan, heq⟩ := Option.map_eq_some_iff.mp h
        cases heq
        rw [ih hscan]
        rfl
      · exact hquote
      · exact hescape

theorem stringTail_eq_some {t s r : Text} :
    stringTail t = some (s, r) ↔ ∃ literal, scan t = some (literal, r) ∧ decode literal = some s := by
  simp only [stringTail, Option.bind_eq_bind, Option.bind_eq_some_iff, Prod.exists]
  constructor
  · rintro ⟨literal, r', hscan, s', hdecode, heq⟩
    cases heq
    exact ⟨literal, hscan, hdecode⟩
  · rintro ⟨literal, hscan, hdecode⟩
    exact ⟨literal, r, hscan, s, hdecode, rfl⟩

theorem suffix_of_stringTail {t s r : Text} (h : stringTail t = some (s, r)) : '"' :: r <:+ t := by
  obtain ⟨literal, hscan, -⟩ := stringTail_eq_some.mp h
  exact ⟨literal, (eq_of_scan hscan).symm⟩

theorem suffix_of_atom {t r : Text} {v : Value} (h : atom t = some (v, r)) : r <:+ t := by
  unfold atom at h
  split at h
  · cases h; exact ⟨['t', 'r', 'u', 'e'], rfl⟩
  · cases h; exact ⟨['f', 'a', 'l', 's', 'e'], rfl⟩
  · cases h; exact ⟨['n', 'u', 'l', 'l'], rfl⟩
  · unfold number at h
    dsimp only at h
    split at h
    · cases h
      exact List.dropWhile_suffix isNumberChar
    · cases h

/-- The functions above read the parts of the grammar. -/
theorem reads_of_some (n : ℕ) :
    (∀ t v r, value n t = some (v, r) → Reads t (.value v) r) ∧
    (∀ t vs r, elements n t = some (vs, r) → Reads t (.elements vs) r) ∧
    (∀ t ms r, members n t = some (ms, r) → Reads t (.members ms) r) := by
  induction n with
  | zero => simp [value, elements, members]
  | succ n ih =>
      obtain ⟨hvalue, helements, hmembers⟩ := ih
      refine ⟨fun t v r h => ?_, fun t vs r h => ?_, fun t ms r h => ?_⟩
      · rw [value] at h
        split at h
        · next u ht =>
            obtain ⟨⟨s, r'⟩, hs, heq⟩ := Option.map_eq_some_iff.mp h
            cases heq
            exact .string ht hs
        · next u ht =>
            split at h
            · next w hu =>
                cases h
                exact .emptyArray ht hu
            · obtain ⟨⟨vs, r'⟩, hvs, heq⟩ := Option.map_eq_some_iff.mp h
              cases heq
              exact .array ht (helements _ _ _ hvs)
        · next u ht =>
            split at h
            · next w hu =>
                cases h
                exact .emptyObject ht hu
            · obtain ⟨⟨ms, r'⟩, hms, heq⟩ := Option.map_eq_some_iff.mp h
              cases heq
              exact .object ht (hmembers _ _ _ hms)
        · exact .atom h
      · rw [elements] at h
        obtain ⟨⟨v, u⟩, hv, h⟩ := Option.bind_eq_some_iff.mp h
        dsimp only at h
        split at h
        · next w hu =>
            obtain ⟨⟨vs, r'⟩, hvs, heq⟩ := Option.map_eq_some_iff.mp h
            cases heq
            exact .element (hvalue _ _ _ hv) hu (helements _ _ _ hvs)
        · next w hu =>
            cases h
            exact .lastElement (hvalue _ _ _ hv) hu
        · cases h
      · rw [members] at h
        split at h
        · next u ht =>
            obtain ⟨⟨key, w⟩, hkey, h⟩ := Option.bind_eq_some_iff.mp h
            dsimp only at h
            split at h
            · next x hw =>
                obtain ⟨⟨v, y⟩, hv, h⟩ := Option.bind_eq_some_iff.mp h
                dsimp only at h
                split at h
                · next z hy =>
                    obtain ⟨⟨ms, r'⟩, hms, heq⟩ := Option.map_eq_some_iff.mp h
                    cases heq
                    exact .member ht hkey hw (hvalue _ _ _ hv) hy (hmembers _ _ _ hms)
                · next z hy =>
                    cases h
                    exact .lastMember ht hkey hw (hvalue _ _ _ hv) hy
                · cases h
            · cases h
        · cases h

theorem suffix_of_cons_suffix {c : Char} {u t : Text} (h : c :: u <:+ t) : u <:+ t :=
  (List.suffix_cons c u).trans h

theorem Reads.suffix {t r : Text} {p : Part} (h : Reads t p r) : r <:+ t := by
  have htail {t u : Text} {c : Char} (h : skip t = c :: u) : u <:+ t := suffix_of_cons_suffix (suffix_of_skip h)
  induction h with
  | string ht hs => exact (suffix_of_cons_suffix (suffix_of_stringTail hs)).trans (htail ht)
  | emptyArray ht hu | emptyObject ht hu => exact (htail hu).trans (htail ht)
  | array ht _ ih | object ht _ ih => exact ih.trans (htail ht)
  | atom ht => exact (suffix_of_atom ht).trans (List.dropWhile_suffix isSpace)
  | lastElement _ hu ih => exact (htail hu).trans ih
  | element _ hu _ ihv ihs => exact ihs.trans ((htail hu).trans ihv)
  | lastMember ht hkey hw _ hy ih =>
      exact (htail hy).trans (ih.trans ((htail hw).trans
        ((suffix_of_cons_suffix (suffix_of_stringTail hkey)).trans (htail ht))))
  | member ht hkey hw _ hy _ ihv ihs =>
      exact ihs.trans ((htail hy).trans (ihv.trans ((htail hw).trans
        ((suffix_of_cons_suffix (suffix_of_stringTail hkey)).trans (htail ht)))))

/-- The functions read `p` with fuel `n`. -/
def Part.ReadBy (n : ℕ) (t r : Text) : Part → Prop
  | .value v => Json.value n t = some (v, r)
  | .elements vs => Json.elements n t = some (vs, r)
  | .members ms => Json.members n t = some (ms, r)

/-- Fuel that is enough for the text. -/
def Part.fuel (t : Text) : Part → ℕ
  | .value _ => 2 * t.length + 1
  | .elements _ | .members _ => 2 * t.length + 2

/-- The elements of an array do not start with a closing bracket, nor the members of an object with a brace. -/
theorem Reads.not_closing {t r u : Text} {p : Part} (h : Reads t p r) : skip t ≠ ']' :: u ∧ skip t ≠ '}' :: u := by
  induction h with
  | string ht | emptyArray ht | array ht | emptyObject ht | object ht | lastMember ht | member ht =>
      rw [ht]
      simp
  | atom ht =>
      constructor <;>
      · intro hskip
        rw [hskip] at ht
        cases ht
  | lastElement _ _ ih | element _ _ _ ih => exact ih

theorem value_array {n : ℕ} {t u r : Text} {vs : List Value} (ht : skip t = '[' :: u)
    (hu : ∀ w, skip u ≠ ']' :: w) (hvs : elements n u = some (vs, r)) : value (n + 1) t = some (.array vs, r) := by
  simp [value, ht, hvs]

theorem value_object {n : ℕ} {t u r : Text} {ms : List (Text × Value)} (ht : skip t = '{' :: u)
    (hu : ∀ w, skip u ≠ '}' :: w) (hms : members n u = some (ms, r)) : value (n + 1) t = some (.object ms, r) := by
  simp [value, ht, hms]

theorem value_atom {n : ℕ} {t r : Text} {v : Value} (h : atom (skip t) = some (v, r)) :
    value (n + 1) t = some (v, r) := by
  rw [value]
  split
  · next u ht => rw [ht] at h; cases h
  · next u ht => rw [ht] at h; cases h
  · next u ht => rw [ht] at h; cases h
  · exact h

/-- With enough fuel the functions read every part of the grammar. -/
theorem Reads.readBy {t r : Text} {p : Part} (h : Reads t p r) (n : ℕ) (hn : p.fuel t ≤ n) : p.ReadBy n t r := by
  induction h generalizing n with
  | string ht hs | emptyArray ht hs | emptyObject ht hs =>
      obtain ⟨n, rfl⟩ := Nat.exists_eq_succ_of_ne_zero (n := n) (by simp only [Part.fuel] at hn; omega)
      simp [Part.ReadBy, value, ht, hs]
  | array ht hvs ih =>
      have hlen := (suffix_of_skip ht).length_le
      obtain ⟨n, rfl⟩ := Nat.exists_eq_succ_of_ne_zero (n := n) (by simp only [Part.fuel] at hn; omega)
      exact value_array ht (fun w => hvs.not_closing.1) (ih n (by simp only [Part.fuel, List.length_cons] at *; omega))
  | object ht hms ih =>
      have hlen := (suffix_of_skip ht).length_le
      obtain ⟨n, rfl⟩ := Nat.exists_eq_succ_of_ne_zero (n := n) (by simp only [Part.fuel] at hn; omega)
      exact value_object ht (fun w => hms.not_closing.2) (ih n (by simp only [Part.fuel, List.length_cons] at *; omega))
  | atom ht =>
      obtain ⟨n, rfl⟩ := Nat.exists_eq_succ_of_ne_zero (n := n) (by simp only [Part.fuel] at hn; omega)
      exact value_atom ht
  | @lastElement t u r v hv hu ih =>
      obtain ⟨n, rfl⟩ := Nat.exists_eq_succ_of_ne_zero (n := n) (by simp only [Part.fuel] at hn; omega)
      have hvalue : value n t = some (v, u) := ih n (by simp only [Part.fuel] at hn ⊢; omega)
      simp [Part.ReadBy, elements, hvalue, hu]
  | @element t u w r v vs hv hu hvs ihv ihs =>
      have hlen := (suffix_of_skip hu).length_le
      have hle := hv.suffix.length_le
      obtain ⟨n, rfl⟩ := Nat.exists_eq_succ_of_ne_zero (n := n) (by simp only [Part.fuel] at hn; omega)
      have hvalue : value n t = some (v, u) := ihv n (by simp only [Part.fuel, List.length_cons] at *; omega)
      have helements : elements n w = some (vs, r) := ihs n (by simp only [Part.fuel, List.length_cons] at *; omega)
      simp [Part.ReadBy, elements, hvalue, hu, helements]
  | @lastMember t u w x y r key v ht hkey hw hv hy ih =>
      have h1 := (suffix_of_skip ht).length_le
      have h2 := (suffix_of_stringTail hkey).length_le
      have h3 := (suffix_of_skip hw).length_le
      obtain ⟨n, rfl⟩ := Nat.exists_eq_succ_of_ne_zero (n := n) (by simp only [Part.fuel] at hn; omega)
      have hvalue : value n x = some (v, y) := ih n (by simp only [Part.fuel, List.length_cons] at *; omega)
      simp [Part.ReadBy, members, ht, hkey, hw, hvalue, hy]
  | @member t u w x y z r key v ms ht hkey hw hv hy hms ihv ihs =>
      have h1 := (suffix_of_skip ht).length_le
      have h2 := (suffix_of_stringTail hkey).length_le
      have h3 := (suffix_of_skip hw).length_le
      have h4 := (suffix_of_skip hy).length_le
      have hle := hv.suffix.length_le
      obtain ⟨n, rfl⟩ := Nat.exists_eq_succ_of_ne_zero (n := n) (by simp only [Part.fuel] at hn; omega)
      have hvalue : value n x = some (v, y) := ihv n (by simp only [Part.fuel, List.length_cons] at *; omega)
      have hmembers : members n z = some (ms, r) := ihs n (by simp only [Part.fuel, List.length_cons] at *; omega)
      simp [Part.ReadBy, members, ht, hkey, hw, hvalue, hy, hmembers]

/-- `parse` decides the grammar. -/
theorem parse_eq_some {t : Text} {v : Value} : parse t = some v ↔ ∃ r, Reads t (.value v) r ∧ skip r = [] := by
  unfold parse
  constructor
  · intro h
    split at h
    · next w r hvalue =>
        split at h
        · next hr =>
            cases h
            exact ⟨r, (reads_of_some _).1 t v r hvalue, hr⟩
        · cases h
    · cases h
  · rintro ⟨r, hreads, hr⟩
    have hvalue : value (2 * t.length + 1) t = some (v, r) := hreads.readBy _ le_rfl
    rw [hvalue]
    exact if_pos hr

theorem Reads.unique {t r r' : Text} {v v' : Value} (h : Reads t (.value v) r) (h' : Reads t (.value v') r') :
    v = v' ∧ r = r' := by
  have hv : value (2 * t.length + 1) t = some (v, r) := h.readBy _ le_rfl
  have hv' : value (2 * t.length + 1) t = some (v', r') := h'.readBy _ le_rfl
  rw [hv, Option.some.injEq, Prod.mk.injEq] at hv'
  exact hv'

end Json
