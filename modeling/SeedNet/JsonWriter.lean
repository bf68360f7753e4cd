import SeedNet.Json

/-! # Writing JSON

What a writer that puts its texts together by hand needs to know about the parser: a part is read in a longer
text as it is alone, and arrays and objects of texts that parse are read part by part. -/

namespace Json

/-! ### Parts within longer texts -/

/-- No number goes on into `s`. -/
def EndsNumber (s : Text) : Prop := s.takeWhile isNumberChar = []

theorem EndsNumber.dropWhile {s : Text} (h : EndsNumber s) : s.dropWhile isNumberChar = s := by
  have happ := List.takeWhile_append_dropWhile (p := isNumberChar) (l := s)
  rw [h] at happ
  exact happ

theorem number_append {t r s : Text} {v : Value} (hs : EndsNumber s) (h : number t = some (v, r)) :
    number (t ++ s) = some (v, r ++ s) := by
  have htake : (t ++ s).takeWhile isNumberChar = t.takeWhile isNumberChar := by
    rw [List.takeWhile_append]
    split
    · next hall => rw [show s.takeWhile isNumberChar = [] from hs, List.append_nil,
        (List.takeWhile_prefix isNumberChar).eq_of_length hall]
    · rfl
  have hdrop : (t ++ s).dropWhile isNumberChar = t.dropWhile isNumberChar ++ s := by
    rw [List.dropWhile_append]
    split
    · next hall => rw [hs.dropWhile, List.isEmpty_iff.mp hall, List.nil_append]
    · rfl
  unfold number at h ⊢
  dsimp only at h ⊢
  rw [htake, hdrop]
  split at h
  · next hnumber =>
      cases h
      exact if_pos hnumber
  · cases h

theorem number_cons {c : Char} {t r : Text} {v : Value} (h : number (c :: t) = some (v, r)) :
    isNumberChar c = true := by
  by_contra hc
  unfold number at h
  rw [List.takeWhile_cons_of_neg hc] at h
  cases h

theorem atom_of_isNumberChar {c : Char} (hc : isNumberChar c = true) (t : Text) :
    atom (c :: t) = number (c :: t) := by
  unfold atom
  split
  · next heq => rw [(List.cons.inj heq).1] at hc; cases hc
  · next heq => rw [(List.cons.inj heq).1] at hc; cases hc
  · next heq => rw [(List.cons.inj heq).1] at hc; cases hc
  · rfl

theorem atom_append {t r s : Text} {v : Value} (hs : EndsNumber s) (h : atom t = some (v, r)) :
    atom (t ++ s) = some (v, r ++ s) := by
  unfold atom at h
  split at h
  · cases h; rfl
  · cases h; rfl
  · cases h; rfl
  · have happend := number_append hs h
    cases t with
    | nil => cases h
    | cons c t =>
        rw [List.cons_append] at happend ⊢
        rw [atom_of_isNumberChar (number_cons h), happend]

theorem scan_append {t literal r s : Text} (h : scan t = some (literal, r)) :
    scan (t ++ s) = some (literal, r ++ s) := by
  induction t using scan.induct generalizing literal with
  | case1 => cases h
  | case2 t => cases h; rfl
  | case3 c t ih =>
      rw [scan] at h
      obtain ⟨⟨literal', r'⟩, hscan, heq⟩ := Option.map_eq_some_iff.mp h
      cases heq
      simp [scan, ih hscan]
  | case4 c t hquote hescape ih =>
      rw [scan] at h
      · obtain ⟨⟨literal', r'⟩, hscan, heq⟩ := Option.map_eq_some_iff.mp h
        cases heq
        rw [List.cons_append, scan]
        · rw [ih hscan]; rfl
        · exact hquote
        · intro d u hc hu
          cases t with
          | nil => cases hscan
          | cons e t => exact hescape e t hc rfl
      · exact hquote
      · exact hescape

theorem stringTail_append {t s r u : Text} (h : stringTail t = some (s, r)) :
    stringTail (t ++ u) = some (s, r ++ u) := by
  obtain ⟨literal, hscan, hdecode⟩ := stringTail_eq_some.mp h
  exact stringTail_eq_some.mpr ⟨literal, scan_append hscan, hdecode⟩

/-- What is read from a text is read from a longer one, unless its last number goes on. -/
theorem Reads.append {t r s : Text} {p : Part} (hs : EndsNumber s) (h : Reads t p r) : Reads (t ++ s) p (r ++ s) := by
  induction h with
  | string ht hstring => exact .string (skip_append ht) (stringTail_append hstring)
  | emptyArray ht hu => exact .emptyArray (skip_append ht) (skip_append hu)
  | array ht _ ih => exact .array (skip_append ht) ih
  | emptyObject ht hu => exact .emptyObject (skip_append ht) (skip_append hu)
  | object ht _ ih => exact .object (skip_append ht) ih
  | @atom t r v ht =>
      refine .atom ?_
      have hskip : skip (t ++ s) = skip t ++ s := by
        cases hc : skip t with
        | nil => rw [hc] at ht; cases ht
        | cons c u => exact skip_append hc
      rw [hskip]
      exact atom_append hs ht
  | lastElement _ hu ih => exact .lastElement ih (skip_append hu)
  | element _ hu _ ihv ihs => exact .element ihv (skip_append hu) ihs
  | lastMember ht hkey hw _ hy ih =>
      exact .lastMember (skip_append ht) (stringTail_append hkey) (skip_append hw) ih (skip_append hy)
  | member ht hkey hw _ hy _ ihv ihs =>
      exact .member (skip_append ht) (stringTail_append hkey) (skip_append hw) ihv (skip_append hy) ihs

theorem reads_of_parse {t s : Text} {v : Value} (h : parse t = some v) (hs : EndsNumber s) :
    ∃ r, Reads (t ++ s) (.value v) r ∧ skip r = skip s := by
  obtain ⟨r, hreads, hr⟩ := parse_eq_some.mp h
  exact ⟨r ++ s, hreads.append hs, skip_append_of_nil hr⟩

theorem parse_of_reads {t : Text} {v : Value} (h : Reads t (.value v) []) : parse t = some v :=
  parse_eq_some.mpr ⟨[], h, rfl⟩

/-! ### Writing texts -/

/-- All characters stand for themselves. -/
def Plain (s : Text) : Prop := ∀ c ∈ s, isPlain c = true

instance : DecidablePred Plain := List.decidableBAll fun c => isPlain c = true

theorem isPlain_iff {c : Char} : isPlain c = true ↔ c ≠ '"' ∧ c ≠ '\\' ∧ 0x20 ≤ c.toNat := by
  simp [isPlain, and_assoc]

theorem Plain.append {s t : Text} (hs : Plain s) (ht : Plain t) : Plain (s ++ t) := by
  intro c hc
  rcases List.mem_append.mp hc with h | h
  · exact hs c h
  · exact ht c h

theorem Plain.not_mem {s : Text} (h : Plain s) : '\\' ∉ s := fun hmem => by cases h '\\' hmem

theorem plain_nil : Plain [] := fun c hc => by cases hc

theorem Plain.intercalate {separator : Text} (hsep : Plain separator) {ts : List Text} (h : ∀ t ∈ ts, Plain t) :
    Plain (separator.intercalate ts) := by
  induction ts with
  | nil => exact plain_nil
  | cons t ts ih =>
      have ht := h t List.mem_cons_self
      cases ts with
      | nil => simpa using ht
      | cons u ts =>
          rw [List.intercalate_cons_cons]
          exact (ht.append hsep).append (ih fun w hw => h w (List.mem_cons_of_mem t hw))

theorem scan_plain {s : Text} (hs : Plain s) (r : Text) : scan (s ++ '"' :: r) = some (s, r) := by
  induction s with
  | nil => rfl
  | cons c s ih =>
      have hc : isPlain c = true := hs c List.mem_cons_self
      obtain ⟨hquote, hescape, -⟩ := isPlain_iff.mp hc
      rw [List.cons_append, scan, ih fun d hd => hs d (List.mem_cons_of_mem c hd)]
      · rfl
      · exact hquote
      · exact fun d u h _ => hescape h

theorem units_cons {c : Char} (hc : c ≠ '\\') (t : Text) :
    units (c :: t) = if isPlain c then (units t).map (.inl c :: ·) else none := by
  rw [units]
  · exact fun _ _ _ _ _ h _ => hc h
  · exact fun _ _ h _ => hc h

theorem units_plain {s : Text} (hs : Plain s) : units s = some (s.map .inl) := by
  induction s with
  | nil => rfl
  | cons c s ih =>
      have hc : isPlain c = true := hs c List.mem_cons_self
      rw [units_cons (isPlain_iff.mp hc).2.1, if_pos hc, ih fun d hd => hs d (List.mem_cons_of_mem c hd)]
      rfl

theorem join_inl (s : Text) : join (s.map .inl) = some s := by
  induction s with
  | nil => rfl
  | cons c s ih => rw [List.map_cons, join, ih]; rfl

theorem stringTail_plain {s : Text} (hs : Plain s) (r : Text) : stringTail (s ++ '"' :: r) = some (s, r) := by
  refine stringTail_eq_some.mpr ⟨s, scan_plain hs r, ?_⟩
  rw [decode, units_plain hs]
  exact join_inl s

/-- A string literal without escapes. -/
def quoted (s : Text) : Text := '"' :: (s ++ ['"'])

theorem parse_quoted {s : Text} (hs : Plain s) : parse (quoted s) = some (.string s) :=
  parse_of_reads (.string (skip_of_not_space rfl) (stringTail_plain hs []))

theorem parse_number {digits : Text} (h : isNumber digits) (hall : ∀ c ∈ digits, isNumberChar c = true) :
    parse digits = some (.number digits) := by
  have hnumber : number digits = some (.number digits, []) := by
    unfold number
    dsimp only
    rw [List.takeWhile_eq_self_iff.mpr hall, List.dropWhile_eq_nil_iff.mpr hall, if_pos h]
  refine parse_of_reads (.atom ?_)
  cases digits with
  | nil => cases h
  | cons c t =>
      have hc : isNumberChar c = true := hall c List.mem_cons_self
      have hspace : isSpace c = false := by
        by_contra hspace
        simp only [isSpace, Bool.not_eq_false, Bool.or_eq_true, decide_eq_true_eq] at hspace
        rcases hspace with ((rfl | rfl) | rfl) | rfl <;> cases hc
      rw [skip_of_not_space hspace, atom_of_isNumberChar hc, hnumber]

/-- `[t₁,…,tₙ]`. -/
def arrayText (ts : List Text) : Text := '[' :: ([','].intercalate ts ++ [']'])

def memberText (m : Text × Text) : Text := quoted m.1 ++ ':' :: m.2

/-- `{"k₁":t₁,…,"kₙ":tₙ}`. -/
def objectText (ms : List (Text × Text)) : Text := '{' :: ([','].intercalate (ms.map memberText) ++ ['}'])

theorem reads_elements {t : Text} {v : Value} {ts : List Text} {vs : List Value} (h : parse t = some v)
    (hs : List.Forall₂ (fun t v => parse t = some v) ts vs) (r : Text) :
    Reads ([','].intercalate (t :: ts) ++ ']' :: r) (.elements (v :: vs)) r := by
  induction hs generalizing t v with
  | nil =>
      obtain ⟨u, hv, hu⟩ := reads_of_parse h (s := ']' :: r) rfl
      rw [List.intercalate_singleton]
      exact .lastElement hv (hu.trans (skip_of_not_space rfl))
  | @cons t' v' ts vs h' _ ih =>
      obtain ⟨u, hv, hu⟩ := reads_of_parse h (s := ',' :: ([','].intercalate (t' :: ts) ++ ']' :: r)) rfl
      have htext : [','].intercalate (t :: t' :: ts) ++ ']' :: r =
          t ++ ',' :: ([','].intercalate (t' :: ts) ++ ']' :: r) := by
        simp
      rw [htext]
      exact .element hv (hu.trans (skip_of_not_space rfl)) (ih h')

theorem parse_arrayText {ts : List Text} {vs : List Value}
    (hs : List.Forall₂ (fun t v => parse t = some v) ts vs) : parse (arrayText ts) = some (.array vs) := by
  refine parse_of_reads ?_
  cases hs with
  | nil => exact .emptyArray (skip_of_not_space rfl) (skip_of_not_space rfl)
  | cons h hs => exact .array (skip_of_not_space rfl) (reads_elements h hs [])

/-- `m` is a text of the member `n`. -/
def IsMember (m : Text × Text) (n : Text × Value) : Prop := Plain m.1 ∧ n.1 = m.1 ∧ parse m.2 = some n.2

theorem isMember {key t : Text} {v : Value} (hkey : Plain key) (h : parse t = some v) : IsMember (key, t) (key, v) :=
  ⟨hkey, rfl, h⟩

/-- The text after the key of a member. -/
theorem reads_member {m : Text × Text} {n : Text × Value} (h : IsMember m n) {s : Text} (hs : EndsNumber s) :
    ∃ u w x y, skip (memberText m ++ s) = '"' :: u ∧ stringTail u = some (n.1, w) ∧ skip w = ':' :: x ∧
      Reads x (.value n.2) y ∧ skip y = skip s := by
  obtain ⟨hkey, heq, hvalue⟩ := h
  obtain ⟨y, hv, hy⟩ := reads_of_parse hvalue hs
  have htext : memberText m ++ s = '"' :: (m.1 ++ '"' :: ':' :: (m.2 ++ s)) := by
    simp [memberText, quoted]
  refine ⟨m.1 ++ '"' :: ':' :: (m.2 ++ s), ':' :: (m.2 ++ s), m.2 ++ s, y, ?_, ?_, skip_of_not_space rfl, hv, hy⟩
  · rw [htext]
    exact skip_of_not_space rfl
  · rw [heq]
    exact stringTail_plain hkey _

theorem reads_members {m : Text × Text} {n : Text × Value} {ms : List (Text × Text)} {ns : List (Text × Value)}
    (h : IsMember m n) (hs : List.Forall₂ IsMember ms ns) (r : Text) :
    Reads ([','].intercalate ((m :: ms).map memberText) ++ '}' :: r) (.members (n :: ns)) r := by
  induction hs generalizing m n with
  | nil =>
      obtain ⟨u, w, x, y, ht, hkey, hw, hv, hy⟩ := reads_member h (s := '}' :: r) rfl
      have htext : [','].intercalate ([m].map memberText) ++ '}' :: r = memberText m ++ '}' :: r := by simp
      rw [htext]
      exact .lastMember ht hkey hw hv (hy.trans (skip_of_not_space rfl))
  | @cons m' n' ms ns h' _ ih =>
      obtain ⟨u, w, x, y, ht, hkey, hw, hv, hy⟩ :=
        reads_member h (s := ',' :: ([','].intercalate ((m' :: ms).map memberText) ++ '}' :: r)) rfl
      have htext : [','].intercalate ((m :: m' :: ms).map memberText) ++ '}' :: r =
          memberText m ++ ',' :: ([','].intercalate ((m' :: ms).map memberText) ++ '}' :: r) := by
        simp
      rw [htext]
      exact .member ht hkey hw hv (hy.trans (skip_of_not_space rfl)) (ih h')

theorem parse_objectText {ms : List (Text × Text)} {ns : List (Text × Value)} (hs : List.Forall₂ IsMember ms ns) :
    parse (objectText ms) = some (.object ns) := by
  refine parse_of_reads ?_
  cases hs with
  | nil => exact .emptyObject (skip_of_not_space rfl) (skip_of_not_space rfl)
  | cons h hs => exact .object (skip_of_not_space rfl) (reads_members h hs [])

/-- What follows the first member of an object. -/
theorem Reads.members_after {m : Text × Text} {n : Text × Value} (h : IsMember m n) {s r : Text}
    {ms : List (Text × Value)} (hms : Reads (memberText m ++ ',' :: s) (.members ms) r) :
    ∃ ms', ms = n :: ms' ∧ Reads s (.members ms') r := by
  obtain ⟨u, w, x, y, ht, hkey, hw, hv, hy⟩ := reads_member h (s := ',' :: s) rfl
  rw [skip_of_not_space rfl] at hy
  -- key and value are read from the same places
  have hfirst {u' w' x' y' key' : Text} {v' : Value} (ht' : skip (memberText m ++ ',' :: s) = '"' :: u')
      (hkey' : stringTail u' = some (key', w')) (hw' : skip w' = ':' :: x') (hv' : Reads x' (.value v') y') :
      n = (key', v') ∧ y' = y := by
    obtain rfl : u = u' := (List.cons.inj (ht.symm.trans ht')).2
    obtain ⟨rfl, rfl⟩ := Prod.mk.inj (Option.some.inj (hkey.symm.trans hkey'))
    obtain rfl : x = x' := (List.cons.inj (hw.symm.trans hw')).2
    obtain ⟨rfl, rfl⟩ := hv.unique hv'
    exact ⟨rfl, rfl⟩
  cases hms with
  | lastMember ht' hkey' hw' hv' hy' =>
      obtain ⟨-, rfl⟩ := hfirst ht' hkey' hw' hv'
      cases hy.symm.trans hy'
  | member ht' hkey' hw' hv' hy' hms =>
      obtain ⟨rfl, rfl⟩ := hfirst ht' hkey' hw' hv'
      obtain rfl : s = _ := (List.cons.inj (hy.symm.trans hy')).2
      exact ⟨_, rfl, hms⟩

/-- The other members of an object are read from the text after its first. -/
theorem object_of_parse {m : Text × Text} {n : Text × Value} (h : IsMember m n) {s : Text} {v : Value}
    (hparse : parse ('{' :: (memberText m ++ ',' :: s)) = some v) :
    ∃ ms r, v = .object (n :: ms) ∧ Reads s (.members ms) r := by
  obtain ⟨r, hreads, -⟩ := parse_eq_some.mp hparse
  have hskip : skip ('{' :: (memberText m ++ ',' :: s)) = '{' :: (memberText m ++ ',' :: s) :=
    skip_of_not_space rfl
  cases hreads with
  | string ht | emptyArray ht | array ht => cases hskip.symm.trans ht
  | atom ht => rw [hskip] at ht; cases ht
  | emptyObject ht hu =>
      obtain ⟨-, rfl⟩ := List.cons.inj (hskip.symm.trans ht)
      cases (skip_of_not_space rfl).symm.trans hu
  | object ht hms =>
      obtain ⟨-, rfl⟩ := List.cons.inj (hskip.symm.trans ht)
      obtain ⟨ms, rfl, hms'⟩ := hms.members_after h
      exact ⟨ms, r, rfl, hms'⟩

end Json
