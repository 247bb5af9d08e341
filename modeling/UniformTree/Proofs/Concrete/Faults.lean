import Mathlib.Data.List.Induction
import UniformTree.Parse
import UniformTree.Proofs.Concrete.Order
/-!
# The first fault

The search for the first fault enters only subtrees that have one and keeps the earliest node that
it has seen. It finds what a scan of the whole tree finds: the faulty nodes are those of the
pre-order (`Concrete.faulty_eq`), and in a nested tree no node starts before one that precedes it in
pre-order, so the first of them is also the earliest (`Fault.first?_earliest`).
-/

namespace UniformTree

namespace Concrete

variable {n m : Concrete} {ns : List Concrete}

/-! ## Subtrees with a fault -/

theorem hasFaultAll_eq (cs : List Concrete) : hasFaultAll cs = cs.any hasFault := by
  induction cs with
  | nil => rfl
  | cons c cs ih => rw [hasFaultAll, ih, List.any_cons]

theorem hasFault_eq (n : Concrete) : n.hasFault = (n.isFaulty || n.children.any hasFault) := by
  rw [← hasFaultAll_eq]
  cases n
  rfl

/-- A subtree has a fault exactly when one of its nodes is faulty. -/
theorem hasFault_iff : n.hasFault = true ↔ ∃ m ∈ n.preorder, m.isFaulty = true := by
  induction n using induction with
  | step n ih =>
    rw [hasFault_eq, Bool.or_eq_true, List.any_eq_true, preorder_eq, preorderAll_eq]
    constructor
    · rintro (hn | ⟨c, hc, hfault⟩)
      · exact ⟨n, List.mem_cons_self, hn⟩
      · obtain ⟨m, hm, hfaulty⟩ := (ih c hc).1 hfault
        exact ⟨m, List.mem_cons_of_mem n (List.mem_flatMap.2 ⟨c, hc, hm⟩), hfaulty⟩
    · rintro ⟨m, hm, hfaulty⟩
      rcases List.mem_cons.1 hm with rfl | hm
      · exact .inl hfaulty
      · obtain ⟨c, hc, hm⟩ := List.mem_flatMap.1 hm
        exact .inr ⟨c, hc, (ih c hc).2 ⟨m, hm, hfaulty⟩⟩

theorem filter_isFaulty_of_not_hasFault (h : n.hasFault = false) :
    n.preorder.filter isFaulty = [] := by
  rw [List.filter_eq_nil_iff]
  intro m hm hfaulty
  rw [hasFault_iff.2 ⟨m, hm, hfaulty⟩] at h
  cases h

theorem faultyAll_eq {cs : List Concrete}
    (h : ∀ c ∈ cs, c.faulty = c.preorder.filter isFaulty) :
    faultyAll cs = (preorderAll cs).filter isFaulty := by
  induction cs with
  | nil => rfl
  | cons c cs ih =>
    rw [List.forall_mem_cons] at h
    rw [faultyAll, preorderAll, List.filter_append, h.1, ih h.2]

/-- What is passed over has no faulty node, so the nodes that are found are the faulty ones of the
whole tree. -/
theorem faulty_eq (n : Concrete) : n.faulty = n.preorder.filter isFaulty := by
  induction n using induction with
  | step n ih =>
    by_cases hfault : n.hasFault = true
    · have hfaulty : n.faulty =
          if n.isFaulty then n :: faultyAll n.children else faultyAll n.children := by
        cases n
        simp only [faulty, if_pos hfault]
      rw [hfaulty, faultyAll_eq ih, preorder_eq, List.filter_cons]
    · have hnone : n.faulty = [] := by
        have hn : ¬ n.isFaulty = true :=
          fun h => hfault (hasFault_iff.2 ⟨n, n.mem_preorder_self, h⟩)
        cases n
        simp only [faulty, if_neg hfault, if_neg hn]
      rw [hnone, filter_isFaulty_of_not_hasFault (Bool.eq_false_iff.2 hfault)]

/-! ## The earliest node -/

/-- The node is the first of those in a row that start earliest. -/
def IsEarliest (n : Concrete) (ns : List Concrete) : Prop :=
  ∃ before after, ns = before ++ n :: after ∧ (∀ m ∈ before, n.start < m.start) ∧
    ∀ m ∈ after, n.start ≤ m.start

theorem IsEarliest.mem (h : n.IsEarliest ns) : n ∈ ns := by
  obtain ⟨before, after, rfl, -⟩ := h
  exact List.mem_append_right _ List.mem_cons_self

theorem IsEarliest.start_le (h : n.IsEarliest ns) (hm : m ∈ ns) : n.start ≤ m.start := by
  obtain ⟨before, after, rfl, hbefore, hafter⟩ := h
  rcases List.mem_append.1 hm with hm | hm
  · exact Nat.le_of_lt (hbefore m hm)
  · rcases List.mem_cons.1 hm with rfl | hm
    · exact Nat.le_refl _
    · exact hafter m hm

/-- One more node takes the place of the earliest one only if it starts before it. -/
theorem IsEarliest.concat (h : n.IsEarliest ns) (m : Concrete) :
    ∃ k, earlier (some n) m = some k ∧ k.IsEarliest (ns ++ [m]) := by
  unfold earlier
  by_cases hlt : m.start < n.start
  · refine ⟨m, if_pos hlt, ns, [], rfl, ?_, by simp⟩
    intro k hk
    exact Nat.lt_of_lt_of_le hlt (h.start_le hk)
  · obtain ⟨before, after, rfl, hbefore, hafter⟩ := h
    refine ⟨n, if_neg hlt, before, after ++ [m], by simp, hbefore, ?_⟩
    rw [List.forall_mem_append, List.forall_mem_singleton]
    exact ⟨hafter, Nat.not_lt.1 hlt⟩

/-- What is kept in the end is the earliest node; nothing is kept only if there was nothing. -/
theorem foldl_earlier (ns : List Concrete) :
    match ns.foldl earlier none with
    | some n => n.IsEarliest ns
    | none => ns = [] := by
  induction ns using List.reverseRecOn with
  | nil => rfl
  | append_singleton ns m ih =>
    rw [List.foldl_append, List.foldl_cons, List.foldl_nil]
    cases hns : ns.foldl earlier none with
    | some n =>
      rw [hns] at ih
      obtain ⟨k, hk, hearliest⟩ := ih.concat m
      rw [hk]
      exact hearliest
    | none =>
      rw [hns] at ih
      obtain rfl : ns = [] := ih
      exact ⟨[], [], rfl, by simp, by simp⟩

/-- The search gives none exactly when no node of the tree is faulty. -/
theorem firstFaulty?_eq_none {root : Concrete} :
    root.firstFaulty? = none ↔ ∀ n ∈ root.preorder, n.isFaulty = false := by
  have hfaulty := foldl_earlier root.faulty
  unfold firstFaulty?
  by_cases hfault : root.hasFault = true
  · obtain ⟨n, hn, hisFaulty⟩ := hasFault_iff.1 hfault
    rw [if_pos hfault]
    constructor
    · intro hnone
      rw [hnone, faulty_eq] at hfaulty
      exact absurd hisFaulty (List.filter_eq_nil_iff.1 hfaulty n hn)
    · intro h
      rw [h n hn] at hisFaulty
      cases hisFaulty
  · rw [if_neg hfault]
    refine ⟨fun _ n hn => ?_, fun _ => rfl⟩
    exact Bool.eq_false_iff.2 fun hisFaulty => hfault (hasFault_iff.2 ⟨n, hn, hisFaulty⟩)

/-- Otherwise it gives the first of the faulty nodes that start earliest. -/
theorem isEarliest_of_firstFaulty? {root : Concrete} (h : root.firstFaulty? = some n) :
    n.IsEarliest (root.preorder.filter isFaulty) := by
  unfold firstFaulty? at h
  split at h
  · have hfaulty := foldl_earlier root.faulty
    rwa [h, faulty_eq] at hfaulty
  · cases h

/-! ## Nested trees -/

/-- In a nested tree no node starts before one that precedes it in pre-order. -/
theorem Nested.pairwise_start (h : n.Nested) :
    n.preorder.Pairwise fun a b => a.start ≤ b.start := by
  induction n using induction with
  | step n ih =>
    rw [preorder_eq, preorderAll_eq, List.pairwise_cons, List.pairwise_flatMap]
    refine ⟨?_, fun c hc => ih c hc (h.of_mem (mem_preorder_of_child hc)), ?_⟩
    · intro m hm
      obtain ⟨c, hc, hm⟩ := List.mem_flatMap.1 hm
      exact (h.bounds (mem_preorder_of_descendant (mem_descendants.2 ⟨c, hc, hm⟩))).1
    · refine (h.ordered n n.mem_preorder_self).2.imp_of_mem ?_
      intro c d hc _ hcd x hx y hy
      have hxn : x ∈ n.preorder := mem_preorder_of_descendant (mem_descendants.2 ⟨c, hc, hx⟩)
      exact Nat.le_trans (h x hxn).1 (hcd x hx y hy)

/-- Where nodes start one after the other the earliest one is the first. -/
theorem IsEarliest.eq_head? (h : n.IsEarliest ns)
    (hns : ns.Pairwise fun a b => a.start ≤ b.start) : ns.head? = some n := by
  obtain ⟨before, after, rfl, hbefore, -⟩ := h
  cases before with
  | nil => rfl
  | cons m before =>
    have hle := (List.pairwise_append.1 hns).2.2 m List.mem_cons_self n List.mem_cons_self
    exact absurd (hbefore m List.mem_cons_self) (Nat.not_lt.2 hle)

/-- In a nested tree the search finds the first faulty node in pre-order. -/
theorem Nested.firstFaulty?_eq {root : Concrete} (h : root.Nested) :
    root.firstFaulty? = root.preorder.find? isFaulty := by
  cases hfirst : root.firstFaulty? with
  | none =>
    have hnone := firstFaulty?_eq_none.1 hfirst
    exact (List.find?_eq_none.2 fun n hn => Bool.eq_false_iff.1 (hnone n hn)).symm
  | some n =>
    have hsorted := h.pairwise_start.sublist (List.filter_sublist (p := isFaulty))
    rw [← List.head?_filter, (isEarliest_of_firstFaulty? hfirst).eq_head? hsorted]

end Concrete

namespace Fault

open Concrete

variable {src : Source} {root n : Concrete}

theorem first?_eq_none : first? src root = none ↔ ∀ n ∈ root.preorder, n.isFaulty = false := by
  unfold first?
  rw [Option.map_eq_none_iff, firstFaulty?_eq_none]

/-- What is parsed has no fault. -/
theorem first?_of_parse {limit base : UInt32} {path : String} {f : File}
    (h : (Document.mk src root).parse limit path base = .ok f) : first? src root = none := by
  unfold Document.parse at h
  split at h
  · cases h
  · split at h
    · cases h
    · assumption

/-- The search for the first fault comes to what a scan of the whole tree comes to. A subtree that
it enters is one with a faulty node. It finds nothing exactly when no node of the tree is faulty, so
a document is parsed only then. In a nested tree it otherwise describes the first faulty node in
pre-order, which is also one of those that start earliest, by its offset, by its row and column
counted from one, and by what is wrong there; and unless the tree nests too deep that is what is
reported when the document is parsed. -/
theorem first?_earliest (src : Source) (root : Concrete) :
    (∀ n ∈ root.preorder, n.hasFault = true ↔ ∃ m ∈ n.preorder, m.isFaulty = true) ∧
    (first? src root = none ↔ ∀ n ∈ root.preorder, n.isFaulty = false) ∧
    (∀ limit path base f, (Document.mk src root).parse limit path base = .ok f →
      ∀ n ∈ root.preorder, n.isFaulty = false) ∧
    (root.Nested → ∀ n, root.preorder.find? isFaulty = some n →
      first? src root = some ⟨src.row n.start + 1, src.column n.start + 1, n.start,
        Misfit.ofNode src n⟩ ∧
      (∀ m ∈ root.preorder, m.isFaulty = true → n.start ≤ m.start) ∧
      ∀ limit path base, root.tooDeep? limit.toNat = none →
        (Document.mk src root).parse limit path base =
          .error (.misfit path (UInt32.ofNat (src.row n.start + 1))
            (UInt32.ofNat (src.column n.start + 1)) (UInt32.ofNat n.start)
            (Misfit.ofNode src n).message)) := by
  refine ⟨fun n _ => hasFault_iff, first?_eq_none, ?_, ?_⟩
  · intro limit path base f hparse
    exact first?_eq_none.1 (first?_of_parse hparse)
  · intro hnested n hn
    have hfirst : root.firstFaulty? = some n := hnested.firstFaulty?_eq.trans hn
    have hfault : first? src root = some (ofNode src n (Misfit.ofNode src n)) := by
      rw [first?, hfirst, Option.map_some]
    refine ⟨hfault, ?_, ?_⟩
    · intro m hm hfaulty
      exact (isEarliest_of_firstFaulty? hfirst).start_le (List.mem_filter.2 ⟨hm, hfaulty⟩)
    · intro limit path base hdeep
      unfold Document.parse
      rw [hdeep, hfault]
      rfl

/-- A parenthesis that fits nothing, on the second row. -/
def strayTree : Concrete :=
  ⟨"source_file", none, 0, 5, true, false, false, [
    rule "identifier" none 0 1 [],
    ⟨"ERROR", none, 2, 3, true, true, false, [
      ⟨"identifier", none, 2, 2, true, false, true, []⟩, token ")" 2 3]⟩,
    ⟨";", none, 5, 5, false, false, true, []⟩]⟩

/-- The text around the parenthesis. -/
def straySource : Source := .ofString "x\n) y"

/-- Of an error, the missing name that starts with it and a missing semicolon after them, the error
is reported. -/
theorem first?_strayTree :
    strayTree.Nested ∧ strayTree.preorder.find? isFaulty = strayTree.children[1]? ∧
    first? straySource strayTree = some ⟨2, 1, 2, .unexpected ")"⟩ ∧
    (Document.mk straySource strayTree).parse 10 "x.go" 1 =
      .error (.misfit "x.go" 2 1 2 "unexpected ')'") := by
  have hnested : strayTree.Nested := by decide +kernel
  have hfind : strayTree.preorder.find? isFaulty = strayTree.children[1]? := rfl
  obtain ⟨-, -, -, hfirst⟩ := first?_earliest straySource strayTree
  obtain ⟨hfault, -, hparse⟩ := hfirst hnested _ hfind
  refine ⟨hnested, hfind, hfault.trans ?_, (hparse 10 "x.go" 1 ?_).trans (congrArg _ ?_)⟩
  · decide +kernel
  · decide +kernel
  · decide +kernel

end Fault

end UniformTree
