import UniformTree.Placed
import UniformTree.Positions
/-!
# Positions and spans in order

Where a source ends before positions run out, the bytes of the source and their positions are in the
same order. A span lies inside another one (`Span.Inside`) or comes before it (`Span.Precedes`), and
a row of spans, each before the next, lies inside the span that covers it.
-/

namespace UniformTree

/-! ## Exact positions -/

namespace Placed

variable {src : Placed}

/-- Positions are exact where the source ends before they run out. -/
theorem toNat_pos {byte : Nat} (h : src.base.toNat + byte ≤ Positions.limit) :
    (src.pos byte).toNat = src.base.toNat + byte := by
  have hlt : src.base.toNat + byte < UInt32.size := Nat.lt_of_le_of_lt h (by decide)
  have hbyte : (UInt32.ofNat byte).toNat = byte :=
    UInt32.toNat_ofNat_of_lt' (Nat.lt_of_le_of_lt (Nat.le_add_left byte _) hlt)
  rw [pos, UInt32.toNat_add, hbyte]
  exact Nat.mod_eq_of_lt hlt

theorem pos_le_pos {a b : Nat} (h : a ≤ b) (hfit : src.base.toNat + b ≤ Positions.limit) :
    src.pos a ≤ src.pos b := by
  rw [UInt32.le_iff_toNat_le, toNat_pos hfit, toNat_pos (Nat.le_trans (by omega) hfit)]
  omega

end Placed

/-! ## Spans -/

namespace Span

/-- The span lies within another one, and it does not end before it starts. -/
structure Inside (s t : Span) : Prop where
  start_le : t.start ≤ s.start
  le : s.start ≤ s.stop
  stop_le : s.stop ≤ t.stop

/-- The span ends before another one starts, or where it starts. -/
def Precedes (s t : Span) : Prop := s.stop ≤ t.start

variable {s t u v : Span} {ss : List Span}

theorem inside_self (h : s.start ≤ s.stop) : s.Inside s :=
  ⟨UInt32.le_refl _, h, UInt32.le_refl _⟩

theorem Inside.trans (h : s.Inside t) (h' : t.Inside u) : s.Inside u where
  start_le := UInt32.le_trans h'.start_le h.start_le
  le := h.le
  stop_le := UInt32.le_trans h.stop_le h'.stop_le

/-- What lies in the first of two spans comes before what lies in the second. -/
theorem Precedes.of_inside (h : s.Precedes t) (hu : u.Inside s) (hv : v.Inside t) : u.Precedes v :=
  UInt32.le_trans (UInt32.le_trans hu.stop_le h) hv.start_le

/-- Of spans in order the last one ends last. -/
theorem stop_le_last (hle : ∀ s ∈ ss, s.start ≤ s.stop) (hpairs : ss.Pairwise Precedes)
    (hs : s ∈ ss) (hne : ss ≠ []) : s.stop ≤ (ss.getLast hne).stop := by
  have hlast := hle _ (List.getLast_mem hne)
  rw [← List.dropLast_concat_getLast hne, List.mem_append] at hs
  rw [← List.dropLast_concat_getLast hne, List.pairwise_append] at hpairs
  rcases hs with hs | hs
  · have hprecedes := hpairs.2.2 s hs _ List.mem_cons_self
    exact UInt32.le_trans hprecedes hlast
  · rw [List.mem_singleton.1 hs]
    exact UInt32.le_refl _

theorem coverAll_cons (s : Span) (ss : List Span) :
    coverAll (s :: ss) = cover s ((s :: ss).getLast (List.cons_ne_nil s ss)) := by
  rw [coverAll, List.head?_cons, List.getLast?_eq_some_getLast (List.cons_ne_nil s ss)]

/-- Spans in order lie inside the span from the first to the last of them. -/
theorem inside_coverAll (hle : ∀ s ∈ ss, s.start ≤ s.stop) (hpairs : ss.Pairwise Precedes)
    (hs : s ∈ ss) : s.Inside (coverAll ss) := by
  cases ss with
  | nil => cases hs
  | cons first ss =>
    rw [coverAll_cons]
    refine ⟨?_, hle s hs, stop_le_last hle hpairs hs _⟩
    show first.start ≤ s.start
    rcases List.mem_cons.1 hs with rfl | hs
    · exact UInt32.le_refl _
    · exact UInt32.le_trans (hle first List.mem_cons_self) (List.rel_of_pairwise_cons hpairs hs)

/-- If all of them lie inside a span then so does the one that covers them. -/
theorem coverAll_inside (hin : ∀ s ∈ ss, s.Inside t) (hpairs : ss.Pairwise Precedes)
    (hne : ss ≠ []) : (coverAll ss).Inside t := by
  cases ss with
  | nil => exact absurd rfl hne
  | cons first ss =>
    have hle : ∀ s ∈ first :: ss, s.start ≤ s.stop := fun s hs => (hin s hs).le
    have hfirst := inside_coverAll hle hpairs List.mem_cons_self
    have hlast := hin _ (List.getLast_mem (List.cons_ne_nil first ss))
    rw [coverAll_cons] at hfirst ⊢
    constructor
    · exact (hin first List.mem_cons_self).start_le
    · exact UInt32.le_trans hfirst.le hfirst.stop_le
    · exact hlast.stop_le

end Span

/-! ## Spans of bytes -/

namespace Placed

variable {src : Placed}

/-- A range of bytes within another one. -/
theorem inside {a b c d : Nat} (hca : c ≤ a) (hab : a ≤ b) (hbd : b ≤ d)
    (hfit : src.base.toNat + d ≤ Positions.limit) :
    Span.Inside ⟨src.pos a, src.pos b⟩ ⟨src.pos c, src.pos d⟩ where
  start_le := pos_le_pos hca (by omega)
  le := pos_le_pos hab (by omega)
  stop_le := pos_le_pos hbd hfit

end Placed

end UniformTree
