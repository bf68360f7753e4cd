import SeedNet.JsonWriter

/-! # The strings of a JSON text

Where in a text a string of the parsed value comes from (`Reads.occurs`), and what this means for a text
whose strings are put between quotes as they are (`Unescaped.shorter`). -/

namespace Json

/-! ### Where the strings of a value come from -/

/-- A literal with escapes is longer than its string, one without is its string. -/
theorem length_of_units {literal : Text} {us : List (Char ⊕ ℕ)} (h : units literal = some us) :
    us.length ≤ literal.length ∧ ('\\' ∈ literal → us.length < literal.length) := by
  induction literal using units.induct generalizing us with
  | case1 => cases h; simp
  | case2 a b c d t ih =>
      rw [units] at h
      obtain ⟨n, hn, h⟩ := Option.bind_eq_some_iff.mp h
      obtain ⟨us', hus, h⟩ := Option.bind_eq_some_iff.mp h
      cases h
      have hlen := (ih hus).1
      simp only [List.length_cons]
      omega
  | case3 c t hu ih =>
      rw [units] at h
      · obtain ⟨d, hd, h⟩ := Option.bind_eq_some_iff.mp h
        obtain ⟨us', hus, h⟩ := Option.bind_eq_some_iff.mp h
        cases h
        have hlen := (ih hus).1
        simp only [List.length_cons]
        omega
      · exact hu
  | case4 c t hu hescape hc ih =>
      rw [units, if_pos hc] at h
      · obtain ⟨us', hus, heq⟩ := Option.map_eq_some_iff.mp h
        subst heq
        obtain ⟨hle, hlt⟩ := ih hus
        refine ⟨Nat.succ_le_succ hle, fun hmem => ?_⟩
        rcases List.mem_cons.mp hmem with rfl | hmem
        · cases hc
        · exact Nat.succ_lt_succ (hlt hmem)
      · exact hu
      · exact hescape
  | case5 c t hu hescape hc =>
      rw [units, if_neg hc] at h
      · cases h
      · exact hu
      · exact hescape

theorem length_of_join {us : List (Char ⊕ ℕ)} {s : Text} (h : join us = some s) : s.length ≤ us.length := by
  induction us using join.induct generalizing s with
  | case1 => cases h; rfl
  | case2 c us ih =>
      rw [join] at h
      obtain ⟨t, ht, heq⟩ := Option.map_eq_some_iff.mp h
      subst heq
      exact Nat.succ_le_succ (ih ht)
  | case3 n hn lo us hlo ih =>
      rw [join, if_pos hn, if_pos hlo] at h
      obtain ⟨t, ht, heq⟩ := Option.map_eq_some_iff.mp h
      subst heq
      exact Nat.succ_le_succ ((ih ht).trans (Nat.le_succ _))
  | case4 n hn lo us hlo =>
      rw [join, if_pos hn, if_neg hlo] at h
      cases h
  | case5 n us hn hus =>
      rw [join, if_pos hn] at h
      · cases h
      · exact hus
  | case6 n us hn hlo =>
      rw [join.eq_def] at h
      dsimp only at h
      rw [if_neg hn, if_pos hlo] at h
      cases h
  | case7 n us hn hlo ih =>
      rw [join.eq_def] at h
      dsimp only at h
      rw [if_neg hn, if_neg hlo] at h
      obtain ⟨t, ht, heq⟩ := Option.map_eq_some_iff.mp h
      subst heq
      exact Nat.succ_le_succ (ih ht)

theorem plain_of_units {literal : Text} {us : List (Char ⊕ ℕ)} (h : units literal = some us)
    (hescape : '\\' ∉ literal) : Plain literal := by
  induction literal generalizing us with
  | nil => exact fun c hc => by cases hc
  | cons c t ih =>
      rw [List.mem_cons, not_or] at hescape
      rw [units_cons (Ne.symm hescape.1)] at h
      split at h
      · next hc =>
          obtain ⟨us', hus, -⟩ := Option.map_eq_some_iff.mp h
          intro d hd
          rcases List.mem_cons.mp hd with rfl | hd
          · exact hc
          · exact ih hus hescape.2 d hd
      · cases h

/-- A literal of a string that is not plain has an escape, and is longer than the string. -/
theorem escape_of_decode {literal s : Text} (h : decode literal = some s) (hs : ¬ Plain s) :
    '\\' ∈ literal ∧ s.length < literal.length := by
  obtain ⟨us, hunits, hjoin⟩ := Option.bind_eq_some_iff.mp h
  have hescape : '\\' ∈ literal := by
    by_contra hnot
    have hplain := plain_of_units hunits hnot
    rw [units_plain hplain, Option.some.injEq] at hunits
    rw [← hunits, join_inl, Option.some.injEq] at hjoin
    exact hs (hjoin ▸ hplain)
  exact ⟨hescape, (length_of_join hjoin).trans_lt ((length_of_units hunits).2 hescape)⟩

/-- In a literal a backslash precedes every quote. -/
theorem escape_of_quote {t literal r : Text} (h : scan t = some (literal, r)) {a b : Text}
    (hquote : literal = a ++ '"' :: b) : ∃ a', a = a' ++ ['\\'] := by
  induction t using scan.induct generalizing literal a with
  | case1 => cases h
  | case2 t => cases h; cases a <;> cases hquote
  | case3 c t ih =>
      rw [scan] at h
      obtain ⟨⟨literal', r'⟩, hscan, heq⟩ := Option.map_eq_some_iff.mp h
      cases heq
      rcases a with - | ⟨d, - | ⟨e, a⟩⟩
      · cases hquote
      · cases hquote
        exact ⟨[], rfl⟩
      · obtain ⟨rfl, htail⟩ := List.cons.inj hquote
        obtain ⟨rfl, htail'⟩ := List.cons.inj htail
        obtain ⟨a', rfl⟩ := ih hscan htail'
        exact ⟨'\\' :: c :: a', rfl⟩
  | case4 c t hc hescape ih =>
      rw [scan] at h
      · obtain ⟨⟨literal', r'⟩, hscan, heq⟩ := Option.map_eq_some_iff.mp h
        cases heq
        cases a with
        | nil => exact absurd (List.cons.inj hquote).1 hc
        | cons d a =>
            obtain ⟨rfl, htail⟩ := List.cons.inj hquote
            obtain ⟨a', rfl⟩ := ih hscan htail
            exact ⟨c :: a', rfl⟩
      · exact hc
      · exact hescape

/-- The text ends or goes on as after an element or a member. -/
def Delimits (r : Text) : Prop := ∀ c u, skip r = c :: u → c = ',' ∨ c = ']' ∨ c = '}'

theorem delimits_of_skip {r u : Text} {c : Char} (h : skip r = c :: u) (hc : c = ',' ∨ c = ']' ∨ c = '}') :
    Delimits r := by
  intro d w hd
  rw [h] at hd
  exact (List.cons.inj hd).1 ▸ hc

/-- Somewhere in `t` is a literal of `s`, with its quotes and a delimiter after it. -/
def Occurs (s t : Text) : Prop := ∃ before literal after,
  t = before ++ '"' :: (literal ++ '"' :: after) ∧ scan (literal ++ '"' :: after) = some (literal, after) ∧
    decode literal = some s ∧ Delimits after

theorem Occurs.of_suffix {s t u : Text} (h : Occurs s u) (hu : u <:+ t) : Occurs s t := by
  obtain ⟨before, literal, after, rfl, hlit⟩ := h
  obtain ⟨w, rfl⟩ := hu
  exact ⟨w ++ before, literal, after, (List.append_assoc w before _).symm, hlit⟩

/-- `s` stands in a part that `r` follows. -/
def Part.Has (s r : Text) : Part → Prop
  | .value v => v.Has s ∧ Delimits r
  | .elements vs => ∃ v ∈ vs, v.Has s
  | .members ms => ∃ m ∈ ms, m.2.Has s

theorem not_has_of_atom {s t r : Text} {v : Value} (h : atom t = some (v, r)) : ¬ v.Has s := by
  intro hs
  unfold atom at h
  split at h
  · cases h; cases hs
  · cases h; cases hs
  · cases h; cases hs
  · unfold number at h
    dsimp only at h
    split at h
    · cases h; cases hs
    · cases h

/-- Every string of a part comes from a literal in its text. -/
theorem Reads.occurs {s t r : Text} {p : Part} (h : Reads t p r) (hs : p.Has s r) : Occurs s t := by
  have htail {t u : Text} {c : Char} (h : skip t = c :: u) : u <:+ t := suffix_of_cons_suffix (suffix_of_skip h)
  have hstring {t x r : Text} (h : stringTail t = some (x, r)) : r <:+ t :=
    suffix_of_cons_suffix (suffix_of_stringTail h)
  induction h with
  | string ht hstr =>
      obtain ⟨hv, hr⟩ := hs
      cases hv
      obtain ⟨literal, hscan, hdecode⟩ := stringTail_eq_some.mp hstr
      have hu := eq_of_scan hscan
      obtain ⟨before, hbefore⟩ := suffix_of_skip ht
      exact ⟨before, literal, _, by rw [← hbefore, hu], hu ▸ hscan, hdecode, hr⟩
  | emptyArray ht hu =>
      obtain ⟨hv, -⟩ := hs
      cases hv with
      | array hmem _ => cases hmem
  | emptyObject ht hu =>
      obtain ⟨hv, -⟩ := hs
      cases hv with
      | object hmem _ => cases hmem
  | array ht _ ih =>
      obtain ⟨hv, -⟩ := hs
      cases hv with
      | array hmem hv => exact (ih ⟨_, hmem, hv⟩).of_suffix (htail ht)
  | object ht _ ih =>
      obtain ⟨hv, -⟩ := hs
      cases hv with
      | object hmem hv => exact (ih ⟨_, hmem, hv⟩).of_suffix (htail ht)
  | atom ht =>
      obtain ⟨hv, -⟩ := hs
      cases not_has_of_atom ht hv
  | lastElement _ hu ih =>
      obtain ⟨w, hmem, hv⟩ := hs
      cases List.mem_singleton.mp hmem
      exact ih ⟨hv, delimits_of_skip hu (by simp)⟩
  | element hfirst hu _ ihv ihs =>
      obtain ⟨w, hmem, hv⟩ := hs
      rcases List.mem_cons.mp hmem with rfl | hmem
      · exact ihv ⟨hv, delimits_of_skip hu (by simp)⟩
      · exact (ihs ⟨w, hmem, hv⟩).of_suffix ((htail hu).trans hfirst.suffix)
  | lastMember ht hkey hw _ hy ih =>
      obtain ⟨m, hmem, hv⟩ := hs
      cases List.mem_singleton.mp hmem
      have hsuffix := (htail hw).trans ((hstring hkey).trans (htail ht))
      exact (ih ⟨hv, delimits_of_skip hy (by simp)⟩).of_suffix hsuffix
  | member ht hkey hw hfirst hy _ ihv ihs =>
      obtain ⟨m, hmem, hv⟩ := hs
      have hsuffix := (htail hw).trans ((hstring hkey).trans (htail ht))
      rcases List.mem_cons.mp hmem with rfl | hmem
      · exact (ihv ⟨hv, delimits_of_skip hy (by simp)⟩).of_suffix hsuffix
      · exact (ihs ⟨m, hmem, hv⟩).of_suffix ((htail hy).trans (hfirst.suffix.trans hsuffix))

/-! ### Strings that are written without escapes

A writer that puts a string between quotes as it is, as the value of a member that is not the last one, leaves
a backslash of the string in the text.  A literal with an escape then lies within such a string: it does not
start before the string, as its quotes follow backslashes, and it does not end after it, as the next quote is
followed by a key. -/

/-- Backslashes of `t` are in strings with `H` that are written as values of members. -/
def Unescaped (H : Text → Prop) (t : Text) : Prop :=
  ∀ a b, t = a ++ '\\' :: b → ∃ before s₁ s₂ after, H (s₁ ++ '\\' :: s₂) ∧
    a = before ++ ':' :: '"' :: s₁ ∧ b = s₂ ++ '"' :: ',' :: '"' :: after ∧ ¬ Delimits after

theorem not_delimits_append {t : Text} (h : ¬ Delimits t) (u : Text) : ¬ Delimits (t ++ u) := by
  intro hd
  refine h fun c w hw => hd c (w ++ u) (skip_append hw)

/-- Where a character of two texts stands. -/
theorem append_eq_append_cons {α : Type*} {x y a b : List α} {c : α} (h : x ++ y = a ++ c :: b) :
    (∃ z, x = a ++ c :: z ∧ b = z ++ y) ∨ ∃ w, a = x ++ w ∧ y = w ++ c :: b := by
  rcases List.append_eq_append_iff.mp h with ⟨w, ha, hy⟩ | ⟨w, hx, hb⟩
  · exact .inr ⟨w, ha, hy⟩
  · cases w with
    | nil =>
        rw [List.append_nil] at hx
        exact .inr ⟨[], by rw [hx, List.append_nil], hb.symm⟩
    | cons d w =>
        obtain ⟨rfl, rfl⟩ := List.cons.inj hb
        exact .inl ⟨w, hx, rfl⟩

/-- A literal does not start before a string that one of its escapes is in: the opening quote of the string would
stand in the literal, after a colon. -/
theorem starts_within {l₁ l₂ s₁ before before' after : Text}
    (hscan : scan (l₁ ++ '\\' :: l₂ ++ '"' :: after) = some (l₁ ++ '\\' :: l₂, after))
    (h : before ++ '"' :: l₁ = before' ++ ':' :: '"' :: s₁) : l₁.length ≤ s₁.length := by
  have h' : before ++ '"' :: l₁ = (before' ++ [':']) ++ '"' :: s₁ := by
    rw [h]
    simp
  rcases append_eq_append_cons h' with ⟨z, -, rfl⟩ | ⟨w, hw, hl⟩
  · rw [List.length_append, List.length_cons]
    omega
  · cases w with
    | nil => exact (List.cons.inj hl).2 ▸ le_rfl
    | cons d w =>
        obtain ⟨rfl, hl'⟩ := List.cons.inj hl
        have hl₁ : l₁ = w ++ '"' :: s₁ := hl'
        obtain ⟨w', rfl⟩ := escape_of_quote (a := w) (b := s₁ ++ '\\' :: l₂) hscan (by simp [hl₁])
        have hw' : before' ++ [':'] = (before ++ '"' :: w') ++ ['\\'] := by
          rw [hw]
          simp
        cases (List.append_inj' hw' rfl).2

/-- Nor does it end after the string: the closing quote would stand in the literal, and the next quote end it. -/
theorem ends_within {l₁ l₂ s₂ after after' : Text}
    (hscan : scan (l₁ ++ '\\' :: l₂ ++ '"' :: after) = some (l₁ ++ '\\' :: l₂, after))
    (h : l₂ ++ '"' :: after = s₂ ++ '"' :: ',' :: '"' :: after') (hafter : Delimits after)
    (hafter' : ¬ Delimits after') : l₂.length ≤ s₂.length := by
  rcases append_eq_append_cons h with ⟨z, rfl, hz⟩ | ⟨w, rfl, -⟩
  · rcases z with - | ⟨d, - | ⟨e, z⟩⟩
    · cases hz
    · rw [(List.cons.inj (List.cons.inj hz).2).2] at hafter'
      exact absurd hafter hafter'
    · obtain ⟨rfl, hz'⟩ := List.cons.inj hz
      obtain ⟨rfl, -⟩ := List.cons.inj hz'
      obtain ⟨w', hw'⟩ := escape_of_quote (a := l₁ ++ '\\' :: s₂ ++ ['"', ',']) (b := z) hscan (by simp)
      have hw'' : (l₁ ++ '\\' :: s₂ ++ ['"']) ++ [','] = w' ++ ['\\'] := by
        rw [← hw']
        simp
      cases (List.append_inj' hw'' rfl).2
  · rw [List.length_append]
    omega

namespace Unescaped

variable {H : Text → Prop} {s t u : Text}

theorem of_not_mem (h : '\\' ∉ t) : Unescaped H t := by
  rintro a b rfl
  simp at h

theorem append (ht : Unescaped H t) (hu : Unescaped H u) : Unescaped H (t ++ u) := by
  intro a b heq
  rcases append_eq_append_cons heq with ⟨z, hz, rfl⟩ | ⟨w, rfl, hw⟩
  · obtain ⟨before, s₁, s₂, after, hH, ha, rfl, hafter⟩ := ht a z hz
    exact ⟨before, s₁, s₂, after ++ u, hH, ha, by simp, not_delimits_append hafter u⟩
  · obtain ⟨before, s₁, s₂, after, hH, rfl, hb, hafter⟩ := hu w b hw
    exact ⟨t ++ before, s₁, s₂, after, hH, by simp, hb, hafter⟩

theorem intercalate {separator : Text} (hsep : '\\' ∉ separator) {ts : List Text}
    (hts : ∀ t ∈ ts, Unescaped H t) : Unescaped H (separator.intercalate ts) := by
  induction ts with
  | nil => exact of_not_mem List.not_mem_nil
  | cons t ts ih =>
      have ht := hts t List.mem_cons_self
      cases ts with
      | nil => simpa using ht
      | cons u ts =>
          rw [List.intercalate_cons_cons]
          exact (ht.append (of_not_mem hsep)).append (ih fun w hw => hts w (List.mem_cons_of_mem t hw))

/-- A string that is written as the value of a member. -/
theorem member {before after : Text} (hs : H s) (hb : '\\' ∉ before) (ha : '\\' ∉ after) (hd : ¬ Delimits after) :
    Unescaped H (before ++ ':' :: '"' :: (s ++ '"' :: ',' :: '"' :: after)) := by
  intro a b heq
  have heq' : (before ++ [':', '"']) ++ (s ++ '"' :: ',' :: '"' :: after) = a ++ '\\' :: b := by
    rw [← heq]
    simp
  rcases append_eq_append_cons heq' with ⟨z, hz, -⟩ | ⟨w, rfl, hw⟩
  · have hmem : '\\' ∈ before ++ [':', '"'] := by rw [hz]; simp
    simp [hb] at hmem
  · rcases append_eq_append_cons hw with ⟨z, rfl, rfl⟩ | ⟨z, -, hz⟩
    · exact ⟨before, w, z, after, hs, by simp, rfl, hd⟩
    · have hmem : '\\' ∈ '"' :: ',' :: '"' :: after := by rw [hz]; simp
      simp [ha] at hmem

/-- A string with special characters in such a text is shorter than one of those that are written into it. -/
theorem shorter (ht : Unescaped H t) (hocc : Occurs s t) (hs : ¬ Plain s) :
    ∃ x, H x ∧ ¬ Plain x ∧ s.length < x.length := by
  obtain ⟨before, literal, after, heq, hscan, hdecode, hafter⟩ := hocc
  obtain ⟨hescape, hlength⟩ := escape_of_decode hdecode hs
  obtain ⟨l₁, l₂, rfl⟩ := List.append_of_mem hescape
  have heq' : t = (before ++ '"' :: l₁) ++ '\\' :: (l₂ ++ '"' :: after) := by
    rw [heq]
    simp
  obtain ⟨before', s₁, s₂, after', hH, h₁, h₂, hafter'⟩ := ht _ _ heq'
  refine ⟨_, hH, fun hplain => ?_, hlength.trans_le ?_⟩
  · have hc := hplain '\\' (by simp)
    cases hc
  · have hleft := starts_within hscan h₁
    have hright := ends_within hscan h₂ hafter hafter'
    simp only [List.length_append, List.length_cons]
    omega

end Unescaped

end Json
