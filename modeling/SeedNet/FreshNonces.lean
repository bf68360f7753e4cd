import Mathlib.Order.Bounds.Basic
import SeedNet.Replay

/-! # The replay window rejects nothing fresh

`Covers` says that everything accepted is remembered or too old; `Justified` is the converse: everything that the
window remembers was accepted, and its top is the highest of it.  Every call of `check_and_insert` keeps this
(`Justified.check`), so a nonce that is not remembered is rejected only for its age (`rejects_nothing_fresh`). -/

namespace SeedNet

open Run (exec trace exec_append trace_append)

namespace NonceWindow

/-- The window after a call of `check_and_insert`. -/
def presented (w : NonceWindow) (n : UInt64) : NonceWindow := (w.checkAndInsert n).2

/-- The nonce, if the call accepts it. -/
def accepts (w : NonceWindow) (n : UInt64) : List UInt64 := if w.fresh n then [n] else []

/-- A new window after these nonces. -/
def after (ns : List UInt64) : NonceWindow := exec presented {} ns

/-- Those of the nonces that a new window accepts. -/
def accepted (ns : List UInt64) : List UInt64 := trace presented accepts {} ns

/-- Everything that the window remembers was accepted, and the top is the highest of it. -/
structure Justified (w : NonceWindow) (H : List UInt64) : Prop where
  wf : w.Wf
  empty : w.top = none → H = []
  highest : ∀ top, w.top = some top → ∀ m ∈ H, m ≤ top
  recorded : ∀ m, w.Records m → m ∈ H

variable {w : NonceWindow} {H : List UInt64} {n top : UInt64}

theorem justified_default : Justified {} [] where
  wf := wf_default
  empty _ := rfl
  highest top ht := by cases ht
  recorded := by
    rintro m ⟨top, ht, -⟩
    cases ht

theorem Wf.initialized_of_top (h : w.Wf) (ht : w.top = some top) : w.initialized = true := h.1.mpr (by simp [ht])

theorem Wf.initialized_of_no_top (h : w.Wf) (ht : w.top = none) : w.initialized = false := by
  by_contra hc
  exact h.1.mp (by simpa using hc) ht

namespace Justified

theorem isGreatest (h : w.Justified H) (ht : w.top = some top) : IsGreatest {m | m ∈ H} top :=
  ⟨h.recorded top ⟨top, ht, .inl rfl⟩, h.highest top ht⟩

/-- The first nonce is the only one that the window remembers. -/
theorem check_first (h : w.Justified H) (ht : w.top = none) : (w.presented n).Justified (H ++ [n]) := by
  have hcheck := NonceWindow.check_first (n := n) (h.wf.initialized_of_no_top ht)
  refine ⟨h.wf.check n, ?_, ?_, ?_⟩
  · intro hnone
    rw [presented, hcheck] at hnone
    cases hnone
  · intro top htop m hm
    rw [presented, hcheck] at htop
    cases htop
    rw [h.empty ht, List.nil_append, List.mem_singleton] at hm
    rw [hm]
    exact UInt64.le_refl n
  · rintro m ⟨top, htop, rfl | ⟨-, hle, hbit⟩⟩
    · rw [presented, hcheck] at htop
      cases htop
      exact List.mem_append_right H List.mem_cons_self
    · rw [presented, hcheck] at hbit
      simp [h.wf.2 ht] at hbit

/-- A nonce that the window takes is remembered beside what it remembered before. -/
theorem check_fresh (h : w.Justified H) (hf : w.fresh n = true) : (w.presented n).Justified (H ++ [n]) := by
  cases ht : w.top with
  | none => exact h.check_first ht
  | some old =>
      obtain ⟨top, htop, hn, hold⟩ := check_top_of_fresh hf h.wf
      refine ⟨h.wf.check n, ?_, ?_, ?_⟩
      · intro hnone
        rw [presented, htop] at hnone
        cases hnone
      · intro top' htop' m hm
        rw [presented, htop] at htop'
        cases htop'
        rw [UInt64.le_iff_toNat_le]
        rcases List.mem_append.mp hm with hm | hm
        · have hmold := UInt64.le_iff_toNat_le.mp (h.highest old ht m hm)
          exact hmold.trans (hold old ht)
        · rw [List.mem_singleton.mp hm]
          exact hn
      · intro m hm
        rcases (records_insert (h.wf.initialized_of_top ht) ht hf).mp hm with rfl | ⟨hm, -, -⟩
        · exact List.mem_append_right H List.mem_cons_self
        · exact List.mem_append_left [n] (h.recorded m hm)

/-- What one call preserves. -/
theorem check (h : w.Justified H) (n : UInt64) : (w.presented n).Justified (H ++ w.accepts n) := by
  cases hf : w.fresh n with
  | true =>
      rw [accepts, if_pos hf]
      exact h.check_fresh hf
  | false =>
      rw [accepts, hf, if_neg Bool.false_ne_true, List.append_nil, presented, check_of_not_fresh hf]
      exact h

/-- A nonce that was not accepted before is rejected only for its age. -/
theorem fresh (h : w.Justified H) (hn : n ∉ H) (hage : ∀ top, w.top = some top → top.toNat ≤ n.toNat + 128) :
    w.fresh n = true := by
  cases ht : w.top with
  | none => rw [NonceWindow.fresh, NonceWindow.check_first (h.wf.initialized_of_no_top ht)]
  | some top =>
      refine (fresh_iff (h.wf.initialized_of_top ht) ht).mpr ⟨fun hr => hn (h.recorded n hr), ?_⟩
      rintro ⟨top', ht', hold⟩
      have := hage top' ht'
      omega

theorem too_old (h : w.Justified H) (ht : w.top = some top) (hold : n.toNat + 128 < top.toNat) :
    w.checkAndInsert n = (false, w) := by
  have hf : w.fresh n = false := by
    rw [Bool.eq_false_iff]
    exact fun hf => ((fresh_iff (h.wf.initialized_of_top ht) ht).mp hf).2 ⟨top, ht, hold⟩
  exact Prod.ext hf (check_of_not_fresh hf)

end Justified

/-- The top of the window is the highest nonce that it has accepted. -/
theorem Justified.top_eq (h : w.Justified H) (htop : IsGreatest {m | m ∈ H} top) : w.top = some top := by
  cases ht : w.top with
  | none =>
      have hmem : top ∈ H := htop.1
      rw [h.empty ht] at hmem
      cases hmem
  | some t =>
      have h1 := UInt64.le_iff_toNat_le.mp ((h.isGreatest ht).2 htop.1)
      have h2 := UInt64.le_iff_toNat_le.mp (htop.2 (h.isGreatest ht).1)
      rw [UInt64.toNat_inj.mp (Nat.le_antisymm h2 h1)]

theorem after_append (ns : List UInt64) (n : UInt64) : after (ns ++ [n]) = (after ns).presented n :=
  exec_append presented {} ns [n]

theorem accepted_append (ns : List UInt64) (n : UInt64) :
    accepted (ns ++ [n]) = accepted ns ++ (after ns).accepts n := by
  rw [accepted, trace_append]
  simp only [trace, List.append_nil]
  rfl

/-- What a run preserves. -/
theorem justified_after (ns : List UInt64) : (after ns).Justified (accepted ns) := by
  induction ns using List.reverseRecOn with
  | nil => exact justified_default
  | append_singleton ns n ih =>
      rw [after_append, accepted_append]
      exact ih.check n

/-- Distinct nonces of which none lies more than 128 above another are all accepted. -/
theorem accepted_of_span {ns : List UInt64} (hnodup : ns.Nodup)
    (hspan : ∀ a ∈ ns, ∀ b ∈ ns, b.toNat ≤ a.toNat + 128) : accepted ns = ns := by
  induction ns using List.reverseRecOn with
  | nil => rfl
  | append_singleton ns n ih =>
      obtain ⟨hns, hnodup⟩ := List.nodup_cons.mp (List.nodup_append_comm.mp hnodup)
      have hall : accepted ns = ns := ih hnodup fun a ha b hb =>
        hspan a (List.mem_append_left [n] ha) b (List.mem_append_left [n] hb)
      have hj := justified_after ns
      rw [hall] at hj
      have hfresh : (after ns).fresh n = true := hj.fresh hns fun top ht =>
        hspan n (List.mem_append_right ns List.mem_cons_self) top (List.mem_append_left [n] (hj.isGreatest ht).1)
      rw [accepted_append, hall, accepts, if_pos hfresh]

/-- **The replay window rejects nothing fresh.**  Whatever nonces a new window was presented with, the next one that
it has not accepted before is accepted if it is the first, higher than all accepted ones or at most 128 below the
highest of them; one that lies deeper is rejected and changes nothing.  So distinct nonces within a span of 129 are
all accepted, in any order. -/
theorem rejects_nothing_fresh (ns : List UInt64) :
    (∀ n, n ∉ accepted ns →
      (accepted ns = [] ∨ (∀ m ∈ accepted ns, m < n) ∨
        ∃ top, IsGreatest {m | m ∈ accepted ns} top ∧ top.toNat ≤ n.toNat + 128) →
      ((after ns).checkAndInsert n).1 = true) ∧
    (∀ n top, IsGreatest {m | m ∈ accepted ns} top → n.toNat + 128 < top.toNat →
      (after ns).checkAndInsert n = (false, after ns)) ∧
    (ns.Nodup → (∀ a ∈ ns, ∀ b ∈ ns, b.toNat ≤ a.toNat + 128) → accepted ns = ns) := by
  have hj := justified_after ns
  refine ⟨fun n hn hage => hj.fresh hn fun top ht => ?_, fun n top htop hold => hj.too_old (hj.top_eq htop) hold,
    accepted_of_span⟩
  have hgreatest := hj.isGreatest ht
  rcases hage with hnone | habove | ⟨top', htop', hnear⟩
  · have hmem : top ∈ accepted ns := hgreatest.1
    rw [hnone] at hmem
    cases hmem
  · have := UInt64.lt_iff_toNat_lt.mp (habove top hgreatest.1)
    omega
  · have heq := hj.top_eq htop'
    rw [ht] at heq
    cases heq
    omega

/-- At the edges of the window. -/
example : accepted [200, 73, 72, 71, 72] = [200, 73, 72] := by decide +kernel

end NonceWindow

end SeedNet
