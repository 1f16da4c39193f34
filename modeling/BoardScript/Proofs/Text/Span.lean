/-
Spans inside of spans, and spans in a row. What covers spans begins where one
of them does, ends where one does and holds them all (`Span.covers_coverAll`).
So where every span of a row ends before the next begins, those that stand
side by side can be replaced by what covers them (`Span.pairwise_coverAll`).
-/
import BoardScript.Text.Span
import Mathlib.Data.List.Basic

namespace BoardScript

namespace Span

-- ============================================================== vocabulary

/-- A span inside of another. -/
def Within (a b : Span) : Prop := b.start ≤ a.start ∧ a.stop ≤ b.stop

/-- A span that ends in front of where another begins, or there. -/
def Precedes (a b : Span) : Prop := a.stop ≤ b.start

/-- A span that begins and ends between characters of a text. -/
structure Lies (text : String) (span : Span) : Prop where
  start : String.Pos.Raw.IsValid text ⟨span.start⟩
  stop : String.Pos.Raw.IsValid text ⟨span.stop⟩

/-- The smallest span around others. -/
structure Covers (spans : List Span) (covered : Span) : Prop where
  first : ∃ span ∈ spans, covered.start = span.start
  last : ∃ span ∈ spans, covered.stop = span.stop
  within : ∀ span ∈ spans, span.Within covered

theorem Within.refl (a : Span) : a.Within a := ⟨Nat.le_refl _, Nat.le_refl _⟩

theorem Within.trans {a b c : Span} (hab : a.Within b) (hbc : b.Within c) : a.Within c :=
  ⟨Nat.le_trans hbc.1 hab.1, Nat.le_trans hab.2 hbc.2⟩

theorem Within.length_le {a b : Span} (h : a.Within b) : a.length ≤ b.length := by
  simp only [Within, stop] at h
  omega

/-- What is inside of a span precedes what is inside of a later one. -/
theorem Precedes.mono {a b a' b' : Span} (h : a.Precedes b) (ha : a'.Within a)
    (hb : b'.Within b) : a'.Precedes b' :=
  Nat.le_trans ha.2 (Nat.le_trans h hb.1)

-- ================================================================ covering

theorem start_cover (a b : Span) : (cover a b).start = min a.start b.start := rfl

theorem stop_cover (a b : Span) : (cover a b).stop = max a.stop b.stop := by
  simp only [cover, between, stop]
  omega

theorem covers_cover (a b : Span) : Covers [a, b] (cover a b) where
  first := by
    rw [start_cover]
    rcases Nat.le_total a.start b.start with h | h
    · exact ⟨a, by simp, Nat.min_eq_left h⟩
    · exact ⟨b, by simp, Nat.min_eq_right h⟩
  last := by
    rw [stop_cover]
    rcases Nat.le_total a.stop b.stop with h | h
    · exact ⟨b, by simp, Nat.max_eq_right h⟩
    · exact ⟨a, by simp, Nat.max_eq_left h⟩
  within := by
    simp only [List.forall_mem_cons, Within, start_cover, stop_cover]
    exact ⟨⟨Nat.min_le_left .., Nat.le_max_left ..⟩, ⟨Nat.min_le_right .., Nat.le_max_right ..⟩,
      List.forall_mem_nil _⟩

/-- What covers some spans together with what covers others covers them all. -/
theorem Covers.cons {front spans : List Span} {part covered : Span} (hpart : Covers front part)
    (h : Covers (part :: spans) covered) : Covers (front ++ spans) covered where
  first := by
    obtain ⟨span, hmem, hstart⟩ := h.first
    rcases List.mem_cons.1 hmem with rfl | hmem
    · obtain ⟨span, hfront, hfirst⟩ := hpart.first
      exact ⟨span, List.mem_append_left _ hfront, hstart.trans hfirst⟩
    · exact ⟨span, List.mem_append_right _ hmem, hstart⟩
  last := by
    obtain ⟨span, hmem, hstop⟩ := h.last
    rcases List.mem_cons.1 hmem with rfl | hmem
    · obtain ⟨span, hfront, hlast⟩ := hpart.last
      exact ⟨span, List.mem_append_left _ hfront, hstop.trans hlast⟩
    · exact ⟨span, List.mem_append_right _ hmem, hstop⟩
  within := List.forall_mem_append.2
    ⟨fun span hmem => (hpart.within span hmem).trans (h.within part List.mem_cons_self),
      fun span hmem => h.within span (List.mem_cons_of_mem _ hmem)⟩

theorem covers_foldl (spans : List Span) (span : Span) :
    Covers (span :: spans) (spans.foldl cover span) := by
  induction spans generalizing span with
  | nil =>
      exact ⟨⟨span, List.mem_cons_self, rfl⟩, ⟨span, List.mem_cons_self, rfl⟩,
        List.forall_mem_singleton.2 (.refl _)⟩
  | cons next spans ih => exact (covers_cover span next).cons (ih (cover span next))

theorem covers_coverAll {spans : List Span} {covered : Span} (h : coverAll spans = some covered) :
    Covers spans covered := by
  cases spans with
  | nil => cases h
  | cons span spans =>
      obtain rfl := Option.some.inj h
      exact covers_foldl spans span

/-- Spans are covered as soon as there is one. -/
theorem exists_coverAll {spans : List Span} {span : Span} (h : span ∈ spans) :
    ∃ covered, coverAll spans = some covered ∧ span.Within covered := by
  obtain ⟨first, others, rfl⟩ := List.exists_cons_of_ne_nil (List.ne_nil_of_mem h)
  exact ⟨_, rfl, (covers_foldl others first).within span h⟩

theorem Covers.lies {text : String} {spans : List Span} {covered : Span}
    (h : Covers spans covered) (hlies : ∀ span ∈ spans, span.Lies text) : covered.Lies text := by
  obtain ⟨first, hfirst, hstart⟩ := h.first
  obtain ⟨last, hlast, hstop⟩ := h.last
  exact ⟨hstart ▸ (hlies first hfirst).start, hstop ▸ (hlies last hlast).stop⟩

/-- What covers spans of a text lies in it, and so does the place where there
are none. -/
theorem lies_getD_coverAll {text : String} {spans : List Span} {start : Nat}
    (hspans : ∀ span ∈ spans, span.Lies text) (hstart : (before start).Lies text) :
    ((coverAll spans).getD (before start)).Lies text := by
  cases hcover : coverAll spans with
  | none => exact hstart
  | some covered => exact (covers_coverAll hcover).lies hspans

/-- Of spans in a row some can be replaced by what covers them. -/
theorem pairwise_coverAll {front block back : List Span}
    (h : (front ++ block ++ back).Pairwise Precedes) :
    (front ++ (coverAll block).toList ++ back).Pairwise Precedes := by
  cases hcovered : coverAll block with
  | none =>
      refine h.sublist ?_
      simp
  | some covered =>
      have hcovers := covers_coverAll hcovered
      obtain ⟨hleft, hback, hcross⟩ := List.pairwise_append.1 h
      obtain ⟨hfront, -, hblock⟩ := List.pairwise_append.1 hleft
      obtain ⟨first, hfirst, hstart⟩ := hcovers.first
      obtain ⟨last, hlast, hstop⟩ := hcovers.last
      refine List.pairwise_append.2 ⟨List.pairwise_append.2 ⟨hfront, List.pairwise_singleton _ _,
        fun a ha b hb => ?_⟩, hback, fun a ha b hb => ?_⟩
      · rw [Option.toList_some, List.mem_singleton] at hb
        rw [hb, Precedes, hstart]
        exact hblock a ha first hfirst
      · rcases List.mem_append.1 ha with ha | ha
        · exact hcross a (List.mem_append_left _ ha) b hb
        · rw [Option.toList_some, List.mem_singleton] at ha
          rw [ha, Precedes, hstop]
          exact hcross last (List.mem_append_right _ hlast) b hb

/-- What stands in a row of spans after some were replaced by what covers
them lies in the text as they did. -/
theorem lies_coverAll {text : String} {front block back : List Span}
    (h : ∀ span ∈ front ++ block ++ back, span.Lies text) :
    ∀ span ∈ front ++ (coverAll block).toList ++ back, span.Lies text := by
  simp only [List.forall_mem_append] at h ⊢
  obtain ⟨⟨hfront, hblock⟩, hback⟩ := h
  refine ⟨⟨hfront, fun span hmem => ?_⟩, hback⟩
  exact (covers_coverAll (Option.mem_toList.1 hmem)).lies hblock

end Span

end BoardScript
