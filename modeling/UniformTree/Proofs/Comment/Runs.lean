import Mathlib.Data.List.Chain
import Mathlib.Data.List.Flatten
import Mathlib.Data.List.Nodup
import UniformTree.Proofs.Comment.Pool
import UniformTree.Proofs.Concrete.Order
/-!
# How comments are grouped

The comments of a tree fall into runs, and each run becomes a group. Where a run ends is a matter of
two comments that follow one another and of the leaves between them: `Run.Admits`. Gathering looks
at one leaf at a time and remembers the last code and the last group; `Gathering.Follows` says what
these stand for after any number of leaves.
-/

namespace UniformTree

/-- A leaf of code: neither a comment nor something that takes part in the layout only. -/
def Concrete.isCode (n : Concrete) : Bool := !n.isComment && !Gathering.isLayout n

/-- A comment among the leaves of a tree, with the leaves before it. -/
structure CommentLeaf where
  before : List Concrete
  node : Concrete

namespace CommentLeaf

/-- The comments of a row of leaves that come after some others. -/
def among (before : List Concrete) : List Concrete → List CommentLeaf
  | [] => []
  | n :: ns => (if n.isComment then [⟨before, n⟩] else []) ++ among (before ++ [n]) ns

/-- The last code before the comment ends on the row on which the comment starts. -/
def isTrailing (src : Placed) (c : CommentLeaf) : Bool :=
  (c.before.filter Concrete.isCode).getLast?.any fun n => src.endRow n == src.startRow c.node

/-- The leaves between a comment and a later one. -/
def between (c d : CommentLeaf) : List Concrete := d.before.drop (c.before.length + 1)

end CommentLeaf

/-- The comments of a tree, in the order of its leaves. -/
def Concrete.commentLeaves (root : Concrete) : List CommentLeaf := CommentLeaf.among [] root.leaves

/-- Comments that make a group: the first one and those that joined it. -/
structure Run where
  first : CommentLeaf
  rest : List CommentLeaf

namespace Run

/-- The comments of a run, in order. -/
def leaves (r : Run) : List CommentLeaf := r.first :: r.rest

/-- The last comment of a run. -/
def last (r : Run) : CommentLeaf := r.rest.getLast?.getD r.first

/-- The group of a run: from the start of the first comment to the end of the last one, trailing if
the first comment is. Nobody owns it. -/
def slot (src : Placed) (r : Run) : Slot where
  group := ⟨⟨src.pos r.first.node.start, src.pos r.last.node.stop⟩,
    r.leaves.map fun c => Comment.ofLeaf src c.node⟩
  startRow := src.startRow r.first.node
  endRow := src.endRow r.last.node
  startByte := r.first.node.start
  endByte := r.last.node.stop
  trailing := r.first.isTrailing src
  taken := false

/-- A comment of the run and the next comment of the tree belong together: no code stands between
them, and the second starts on the row on which the first ends or, unless the run is trailing, on
the row below. -/
def Admits (src : Placed) (r : Run) (c d : CommentLeaf) : Prop :=
  (∀ n ∈ c.between d, n.isCode = false) ∧
    if r.first.isTrailing src then src.startRow d.node = src.endRow c.node
    else src.startRow d.node ≤ src.endRow c.node + 1

/-- The run with one more comment. -/
def push (r : Run) (c : CommentLeaf) : Run := ⟨r.first, r.rest ++ [c]⟩

theorem getLast?_leaves (r : Run) : r.leaves.getLast? = some r.last := by
  rw [leaves, List.getLast?_cons, last]

theorem last_mem (r : Run) : r.last ∈ r.leaves := List.mem_of_getLast? r.getLast?_leaves

@[simp] theorem leaves_push (r : Run) (c : CommentLeaf) : (r.push c).leaves = r.leaves ++ [c] := rfl

@[simp] theorem last_push (r : Run) (c : CommentLeaf) : (r.push c).last = c := by
  simp [last, push]

theorem slot_push (src : Placed) (r : Run) (c : CommentLeaf) :
    (r.push c).slot src = (r.slot src).push src c.node := by
  simp [slot, Slot.push, Comment.ofLeaf, Placed.span, Placed.text, push, leaves, last]

end Run

/-! ## Comments in order -/

namespace CommentLeaf

theorem among_append (before ns ms : List Concrete) :
    among before (ns ++ ms) = among before ns ++ among (before ++ ns) ms := by
  induction ns generalizing before with
  | nil => rw [List.nil_append, List.append_nil]; rfl
  | cons n ns ih =>
    rw [List.cons_append, among, ih, among, List.append_assoc, List.append_assoc,
      List.singleton_append]

theorem map_node_among (before ns : List Concrete) :
    (among before ns).map node = ns.filter Concrete.isComment := by
  induction ns generalizing before with
  | nil => rfl
  | cons n ns ih =>
    rw [among, List.map_append, ih, List.filter_cons]
    split <;> rfl

theorem among_concat (ns : List Concrete) (n : Concrete) :
    among [] (ns ++ [n]) = among [] ns ++ if n.isComment then [⟨ns, n⟩] else [] := by
  rw [among_append, among, among, List.append_nil, List.nil_append]

/-- The leaves before a comment are those before the row and some of the row. -/
theorem prefix_of_mem_among {before ns : List Concrete} {c : CommentLeaf}
    (h : c ∈ among before ns) : before <+: c.before ∧ c.before ++ [c.node] <+: before ++ ns := by
  induction ns generalizing before with
  | nil => cases h
  | cons n ns ih =>
    rw [among, List.mem_append] at h
    rcases h with h | h
    · split at h
      · obtain rfl := List.mem_singleton.1 h
        exact ⟨List.prefix_rfl, ⟨ns, by rw [List.append_assoc]; rfl⟩⟩
      · cases h
    · obtain ⟨hbefore, hwhole⟩ := ih h
      rw [List.append_assoc] at hwhole
      exact ⟨(List.prefix_append before [n]).trans hbefore, hwhole⟩

/-- What stands before a comment stands, with the comment, before any later one. -/
theorem pairwise_among (before ns : List Concrete) :
    (among before ns).Pairwise fun c d => c.before ++ [c.node] <+: d.before := by
  induction ns generalizing before with
  | nil => exact .nil
  | cons n ns ih =>
    rw [among, List.pairwise_append]
    refine ⟨by split <;> simp, ih _, ?_⟩
    intro c hc d hd
    split at hc
    · obtain rfl := List.mem_singleton.1 hc
      exact (prefix_of_mem_among hd).1
    · cases hc

/-- No two comments have the same leaves before them. -/
theorem nodup_among (before ns : List Concrete) : (among before ns).Nodup := by
  apply (pairwise_among before ns).imp
  intro c d hprefix heq
  have hle := hprefix.length_le
  rw [heq, List.length_append, List.length_singleton] at hle
  omega

end CommentLeaf

/-! ## What gathering remembers -/

namespace Gathering

open CommentLeaf

variable {src : Placed} {g : Gathering} {ns : List Concrete} {runs : List Run}

/-- After some leaves the groups are those of some runs of their comments. The comments of a run
admit one another, and the next comment after a run is not admitted. The last code and whether it
comes before the last comment are remembered. -/
structure Follows (src : Placed) (ns : List Concrete) (g : Gathering) (runs : List Run) : Prop where
  slots : g.slots.reverse = runs.map (Run.slot src)
  leaves : runs.flatMap Run.leaves = among [] ns
  within : ∀ r ∈ runs, r.leaves.IsChain (r.Admits src)
  apart : runs.IsChain fun r s => ¬ r.Admits src r.last s.first
  codeRow : g.codeRow = (ns.filter Concrete.isCode).getLast?.map src.endRow
  isOpen : ∀ r ∈ runs.getLast?, g.isOpen = true ↔
    ∀ n ∈ ns.drop (r.last.before.length + 1), n.isCode = false

theorem follows_empty : Follows src [] empty [] where
  slots := rfl
  leaves := rfl
  within := by simp
  apart := .nil
  codeRow := rfl
  isOpen := by simp

/-- A leaf that is no code leaves the code as it is. -/
theorem filter_concat_of_not_code {n : Concrete} (hn : n.isCode = false) :
    (ns ++ [n]).filter Concrete.isCode = ns.filter Concrete.isCode := by
  rw [List.filter_append, List.filter_cons_of_neg (by simp [hn]), List.filter_nil, List.append_nil]

theorem isCode_of_isComment {n : Concrete} (hn : n.isComment = true) : n.isCode = false := by
  rw [Concrete.isCode, hn]
  rfl

section Step

variable (h : Follows src ns g runs) {n : Concrete}

include h

theorem length_before_last {r : Run} (hr : r ∈ runs) : r.last.before.length < ns.length := by
  have hmem : r.last ∈ among [] ns := h.leaves ▸ List.mem_flatMap.2 ⟨r, hr, r.last_mem⟩
  have hle := (prefix_of_mem_among hmem).2.length_le
  rw [List.length_append, List.length_singleton] at hle
  exact hle

/-- The leaves after the last comment, and one more. -/
theorem drop_concat {r : Run} (hr : r ∈ runs) :
    (ns ++ [n]).drop (r.last.before.length + 1) = ns.drop (r.last.before.length + 1) ++ [n] :=
  List.drop_append_of_le_length (length_before_last h hr)

/-- A comment is trailing if the last code that is remembered ends on its row. -/
theorem codeRow_eq : (g.codeRow == some (src.startRow n)) = isTrailing src ⟨ns, n⟩ := by
  rw [h.codeRow, isTrailing]
  cases (ns.filter Concrete.isCode).getLast? <;> rfl

/-- The last group is open and reaches a comment exactly if its run admits the comment. -/
theorem admits_iff {r : Run} (hr : r ∈ runs.getLast?) :
    (g.isOpen && (r.slot src).reaches (src.startRow n)) = true ↔ r.Admits src r.last ⟨ns, n⟩ := by
  rw [Bool.and_eq_true, h.isOpen r hr, Run.Admits]
  apply and_congr Iff.rfl
  show (if r.first.isTrailing src then src.startRow n == src.endRow r.last.node
    else src.startRow n ≤ src.endRow r.last.node + 1) = true ↔ _
  split <;> simp

/-- A comment that is not admitted begins a run. -/
theorem follows_begin (hn : n.isComment = true)
    (hnot : ∀ r ∈ runs.getLast?, ¬ r.Admits src r.last ⟨ns, n⟩) :
    Follows src (ns ++ [n])
      { g with
        slots := Slot.ofComment src n (g.codeRow == some (src.startRow n)) :: g.slots
        isOpen := true } (runs ++ [⟨⟨ns, n⟩, []⟩]) where
  slots := by
    rw [List.reverse_cons, h.slots, List.map_append, codeRow_eq h]
    rfl
  leaves := by
    rw [among_concat, if_pos hn, List.flatMap_append, h.leaves]
    rfl
  within := by
    rw [List.forall_mem_append, List.forall_mem_singleton]
    exact ⟨h.within, .singleton _⟩
  apart := by
    rw [List.isChain_append]
    refine ⟨h.apart, .singleton _, ?_⟩
    intro r hr s hs
    cases hs
    exact hnot r hr
  codeRow := by
    rw [filter_concat_of_not_code (isCode_of_isComment hn), h.codeRow]
  isOpen := by
    rw [List.getLast?_concat]
    intro r hr
    cases hr
    have hdrop : (ns ++ [n]).drop (ns.length + 1) = [] := List.drop_eq_nil_of_le (by simp)
    show true = true ↔ ∀ m ∈ (ns ++ [n]).drop (ns.length + 1), m.isCode = false
    simp [hdrop]

end Step

/-- A comment that is admitted joins the last run. -/
theorem follows_push {init : List Run} {r : Run} (h : Follows src ns g (init ++ [r])) {n : Concrete}
    (hn : n.isComment = true) (hadmits : r.Admits src r.last ⟨ns, n⟩) {last : Slot}
    {before : List Slot} (hslots : g.slots = last :: before) :
    Follows src (ns ++ [n]) { g with slots := last.push src n :: before }
      (init ++ [r.push ⟨ns, n⟩]) where
  slots := by
    have hall := h.slots
    rw [hslots, List.reverse_cons, List.map_append, List.map_singleton] at hall
    obtain ⟨hinit, hlast⟩ := List.append_inj' hall rfl
    rw [List.reverse_cons, List.map_append, List.map_singleton, hinit, Run.slot_push,
      List.singleton_inj.1 hlast]
  leaves := by
    have hall := h.leaves
    rw [List.flatMap_append, List.flatMap_singleton] at hall ⊢
    rw [among_concat, if_pos hn, ← hall, Run.leaves_push, List.append_assoc]
  within := by
    have hall := h.within
    rw [List.forall_mem_append, List.forall_mem_singleton] at hall ⊢
    refine ⟨hall.1, ?_⟩
    rw [Run.leaves_push, List.isChain_append]
    refine ⟨hall.2, .singleton _, ?_⟩
    intro c hc d hd
    rw [r.getLast?_leaves] at hc
    cases hc
    cases hd
    exact hadmits
  apart := by
    have hall := h.apart
    rw [List.isChain_append] at hall ⊢
    refine ⟨hall.1, .singleton _, ?_⟩
    intro s hs t ht
    cases ht
    exact hall.2.2 s hs r rfl
  codeRow := by
    rw [filter_concat_of_not_code (isCode_of_isComment hn), h.codeRow]
  isOpen := by
    rw [List.getLast?_concat]
    intro s hs
    cases hs
    have hopen : g.isOpen = true :=
      (h.isOpen r (by rw [List.getLast?_concat]; rfl)).2 hadmits.1
    have hdrop : (ns ++ [n]).drop (ns.length + 1) = [] := List.drop_eq_nil_of_le (by simp)
    rw [Run.last_push]
    show g.isOpen = true ↔ ∀ m ∈ (ns ++ [n]).drop (ns.length + 1), m.isCode = false
    simp [hdrop, hopen]

/-- **Step.** One more leaf changes what gathering remembers, and not what that stands for. -/
theorem follows_add (h : Follows src ns g runs) (n : Concrete) :
    ∃ runs, Follows src (ns ++ [n]) (g.add src n) runs := by
  unfold add
  by_cases hn : n.isComment = true
  · rw [if_pos hn]
    rcases runs.eq_nil_or_concat' with rfl | ⟨init, r, rfl⟩
    · have hslots : g.slots = [] := by simpa using h.slots
      have hbegin := follows_begin h hn (by simp)
      rw [hslots] at hbegin ⊢
      exact ⟨_, hbegin⟩
    · have hlast : r ∈ (init ++ [r]).getLast? := by rw [List.getLast?_concat]; rfl
      obtain ⟨before, hslots⟩ : ∃ before, g.slots = r.slot src :: before := by
        have hrev := congrArg List.reverse h.slots
        rw [List.reverse_reverse, List.map_append, List.reverse_append] at hrev
        exact ⟨_, hrev⟩
      simp only [hslots]
      by_cases hjoin : (g.isOpen && (r.slot src).reaches (src.startRow n)) = true
      · rw [if_pos hjoin]
        exact ⟨_, follows_push h hn ((admits_iff h hlast).1 hjoin) hslots⟩
      · rw [if_neg hjoin]
        have hbegin := follows_begin h hn fun s hs hadmits =>
          hjoin ((admits_iff h hlast).2
            (by rw [List.getLast?_concat] at hs; cases hs; exact hadmits))
        rw [hslots] at hbegin
        exact ⟨_, hbegin⟩
  · rw [if_neg hn]
    have hleaves : among [] (ns ++ [n]) = among [] ns := by
      rw [among_concat, if_neg hn, List.append_nil]
    by_cases hlayout : isLayout n = true
    · rw [if_pos hlayout]
      have hcode : n.isCode = false := by simp [Concrete.isCode, hlayout]
      refine ⟨runs, h.slots, h.leaves.trans hleaves.symm, h.within, h.apart, ?_, ?_⟩
      · rw [filter_concat_of_not_code hcode, h.codeRow]
      · intro r hr
        rw [h.isOpen r hr, drop_concat h (List.mem_of_getLast? hr), List.forall_mem_append,
          List.forall_mem_singleton]
        exact (and_iff_left hcode).symm
    · rw [if_neg hlayout]
      have hcode : n.isCode = true := by simp [Concrete.isCode, hn, hlayout]
      refine ⟨runs, h.slots, h.leaves.trans hleaves.symm, h.within, h.apart, ?_, ?_⟩
      · rw [List.filter_append, List.filter_cons_of_pos hcode, List.filter_nil,
          List.getLast?_concat]
        rfl
      · intro r hr
        rw [drop_concat h (List.mem_of_getLast? hr)]
        simp [hcode]

/-- **Run.** After all leaves the groups are those of runs of their comments. -/
theorem exists_follows (src : Placed) (ns : List Concrete) :
    ∃ runs, Follows src ns (ns.foldl (add src) empty) runs := by
  induction ns using List.reverseRecOn with
  | nil => exact ⟨[], follows_empty⟩
  | append_singleton ns n ih =>
    obtain ⟨runs, h⟩ := ih
    rw [List.foldl_append]
    exact follows_add h n

/-! ## Comments that follow one another -/

/-- Two comments that follow one another are in one run, or one run ends with the first and the next
one begins with the second. -/
theorem neighbours {c d : CommentLeaf} (hcd : [c, d] <:+: runs.flatMap Run.leaves) :
    (∃ r ∈ runs, [c, d] <:+: r.leaves) ∨
      ∃ r s, [r, s] <:+: runs ∧ c = r.last ∧ d = s.first := by
  induction runs with
  | nil => simp at hcd
  | cons r runs ih =>
    have hlater (hin : [c, d] <:+: runs.flatMap Run.leaves) :
        (∃ s ∈ r :: runs, [c, d] <:+: s.leaves) ∨
          ∃ s t, [s, t] <:+: r :: runs ∧ c = s.last ∧ d = t.first := by
      rcases ih hin with ⟨s, hs, hin⟩ | ⟨s, t, hst, hc, hd⟩
      · exact .inl ⟨s, List.mem_cons_of_mem r hs, hin⟩
      · exact .inr ⟨s, t, List.infix_cons hst, hc, hd⟩
    rw [List.flatMap_cons, List.infix_append_iff] at hcd
    rcases hcd with hin | hin | ⟨front, back, hsplit, hfront, hback⟩
    · exact .inl ⟨r, List.mem_cons_self, hin⟩
    · exact hlater hin
    · match front, hsplit with
      | [], hsplit =>
        obtain rfl : [c, d] = back := hsplit
        exact hlater hback.isInfix
      | [x], hsplit =>
        obtain ⟨rfl, rfl⟩ : c = x ∧ [d] = back := by simpa using hsplit
        cases runs with
        | nil => simp at hback
        | cons s runs =>
          obtain ⟨early, hearly⟩ := hfront
          have hlast : some r.last = some c := by
            rw [← r.getLast?_leaves, ← hearly, List.getLast?_concat]
          have hfirst : d = s.first := (List.cons_prefix_cons.1 hback).1
          exact .inr ⟨r, s, ⟨[], runs, rfl⟩, (Option.some.inj hlast).symm, hfirst⟩
      | [x, y], hsplit =>
        obtain ⟨rfl, rfl, rfl⟩ : c = x ∧ d = y ∧ [] = back := by simpa using hsplit
        exact .inl ⟨r, List.mem_cons_self, hfront.isInfix⟩
      | x :: y :: z :: front, hsplit => simp at hsplit

section Neighbours

variable (h : Follows src ns g runs)

include h

/-- No two runs have a comment in common. -/
theorem pairwise_disjoint : runs.Pairwise fun r s => ∀ c ∈ r.leaves, c ∉ s.leaves := by
  have hnodup := nodup_among [] ns
  rw [← h.leaves, List.nodup_flatMap] at hnodup
  exact hnodup.2

theorem eq_of_mem_leaves {r s : Run} (hr : r ∈ runs) (hs : s ∈ runs) {c : CommentLeaf}
    (hcr : c ∈ r.leaves) (hcs : c ∈ s.leaves) : r = s := by
  have hsymm : Std.Symm fun r s : Run => ∀ c ∈ r.leaves, c ∉ s.leaves :=
    ⟨fun _ _ hrs c hc hc' => hrs c hc' hc⟩
  by_contra hne
  exact (pairwise_disjoint h).forall hr hs hne c hcr hcs

/-- The comment that follows one of a run belongs to the run exactly if the run admits it. -/
theorem mem_leaves_iff {c d : CommentLeaf} (hcd : [c, d] <:+: among [] ns) {r : Run} (hr : r ∈ runs)
    (hc : c ∈ r.leaves) : d ∈ r.leaves ↔ r.Admits src c d := by
  rw [← h.leaves] at hcd
  rcases neighbours hcd with ⟨s, hs, hin⟩ | ⟨s, t, hst, rfl, rfl⟩
  · obtain rfl := eq_of_mem_leaves h hr hs hc (hin.subset List.mem_cons_self)
    have hadmits : [c, d].IsChain (r.Admits src) := List.IsChain.infix (h.within r hr) hin
    exact iff_of_true (hin.subset (List.mem_cons_of_mem c List.mem_cons_self))
      (List.isChain_pair.1 hadmits)
  · have hs : s ∈ runs := hst.subset List.mem_cons_self
    obtain rfl := eq_of_mem_leaves h hr hs hc s.last_mem
    have hnot : [r, t].IsChain fun r s => ¬ r.Admits src r.last s.first :=
      List.IsChain.infix h.apart hst
    have hdisjoint := List.pairwise_pair.1 ((pairwise_disjoint h).sublist hst.sublist)
    exact iff_of_false (fun hd => hdisjoint _ hd List.mem_cons_self) (List.isChain_pair.1 hnot)

end Neighbours

end Gathering

namespace CommentPool

open CommentLeaf Concrete

variable {src : Placed} {root : Concrete}

/-- The groups of a tree are those of runs of its comments. -/
theorem exists_runs (src : Placed) (root : Concrete) : ∃ runs : List Run,
    (ofTree src root).slots.toList = runs.map (Run.slot src) ∧
    runs.flatMap Run.leaves = root.commentLeaves ∧
    (∀ c d, [c, d] <:+: root.commentLeaves → ∀ r ∈ runs, c ∈ r.leaves →
      (d ∈ r.leaves ↔ r.Admits src c d)) ∧
    runs.IsChain fun r s => ¬ r.Admits src r.last s.first := by
  obtain ⟨runs, h⟩ := Gathering.exists_follows src root.leaves
  refine ⟨runs, h.slots, h.leaves, ?_, h.apart⟩
  intro c d hcd r hr hc
  exact Gathering.mem_leaves_iff h hcd hr hc

/-- The comments of an ordered tree stand one after the other. -/
theorem pairwise_commentLeaves (hroot : root.Ordered) :
    root.commentLeaves.Pairwise fun c d => c.node.Precedes d.node := by
  rw [← List.pairwise_map (f := node), Concrete.commentLeaves, map_node_among]
  exact hroot.pairwise_leaves.filter _

/-- Comments are grouped by a rule that looks at two of them at a time. The comments of a tree, in
the order of its leaves, are split into runs with at least one comment in each, and each run makes a
group. Of two comments that follow one another the second belongs to the run of the first exactly if
no code lies between them and it starts on the row on which the first one ends or, where the run is
not trailing, on the row below. A run is trailing if the last code before its first comment ends on
the row of that comment. In an ordered tree the comments, and so the groups, stand in the order of
the source. -/
theorem grouped_by_rule (src : Placed) (root : Concrete) : ∃ runs : List Run,
    (ofTree src root).slots.toList = runs.map (Run.slot src) ∧
    runs.flatMap Run.leaves = root.commentLeaves ∧
    root.commentLeaves.map node = root.leaves.filter Concrete.isComment ∧
    (∀ c d, [c, d] <:+: root.commentLeaves → ∀ r ∈ runs, c ∈ r.leaves →
      (d ∈ r.leaves ↔ r.Admits src c d)) ∧
    (root.Ordered → root.commentLeaves.Pairwise fun c d => c.node.Precedes d.node) := by
  obtain ⟨runs, hslots, hleaves, hrule, -⟩ := exists_runs src root
  exact ⟨runs, hslots, hleaves, map_node_among [] root.leaves, hrule, pairwise_commentLeaves⟩

/-- A variable. -/
def annotatedVar : Concrete :=
  rule "var_declaration" none 31 40 [
    token "var" 31 34,
    rule "var_spec" none 35 40 [
      rule "identifier" (some "name") 35 36 [],
      rule "type_identifier" (some "type") 37 40 []]]

/-- A file with comments beside its code and between it. -/
def annotatedFile : Concrete :=
  rule "source_file" none 0 46 [
    rule "package_clause" none 0 9 [
      token "package" 0 7, rule "package_identifier" none 8 9 []],
    rule "comment" none 10 14 [],
    rule "comment" none 15 19 [],
    rule "comment" none 20 24 [],
    rule "comment" none 26 30 [],
    annotatedVar,
    rule "comment" none 41 45 []]

/-- The text of that file. -/
def annotatedSource : Placed :=
  ⟨.ofString "package p // a\n// b\n// c\n\n// d\nvar x int // e\n", 1⟩

/-- Of its comments the second and the third stand in one group and the fourth in another. -/
theorem grouped_annotatedFile : ∃ runs : List Run, ∃ a b c d e,
    annotatedFile.commentLeaves = [a, b, c, d, e] ∧
    (ofTree annotatedSource annotatedFile).slots.toList = runs.map (Run.slot annotatedSource) ∧
    (∃ r ∈ runs, b ∈ r.leaves ∧ c ∈ r.leaves ∧ d ∉ r.leaves) ∧
    annotatedFile.commentLeaves.Pairwise fun c d => c.node.Precedes d.node := by
  obtain ⟨runs, hslots, hleaves, -, hrule, hordered⟩ :=
    grouped_by_rule annotatedSource annotatedFile
  have hrun {c : CommentLeaf} (hc : c ∈ annotatedFile.commentLeaves) : ∃ r ∈ runs, c ∈ r.leaves :=
    List.mem_flatMap.1 (hleaves.symm ▸ hc)
  obtain ⟨r, hr, hb⟩ := hrun (List.mem_cons_of_mem _ List.mem_cons_self)
  have halone : ∀ s ∈ (ofTree annotatedSource annotatedFile).slots.toList,
      Comment.ofLeaf annotatedSource (rule "comment" none 15 19 []) ∈ s.group.list →
      s.trailing = false := by decide +kernel
  have htrailing : r.first.isTrailing annotatedSource = false :=
    halone _ (hslots ▸ List.mem_map_of_mem hr)
      (List.mem_map_of_mem (f := fun c => Comment.ofLeaf annotatedSource c.node) hb)
  have hc := (hrule _ _ ⟨[_], [_, _], rfl⟩ r hr hb).2
    ⟨by decide +kernel, by rw [htrailing]; decide +kernel⟩
  refine ⟨runs, _, _, _, _, _, rfl, hslots, ⟨r, hr, hb, hc, ?_⟩, hordered (by decide +kernel)⟩
  intro hd
  have hadmits := ((hrule _ _ ⟨[_, _], [_], rfl⟩ r hr hc).1 hd).2
  rw [htrailing] at hadmits
  exact absurd hadmits (by decide +kernel)

end CommentPool

end UniformTree
