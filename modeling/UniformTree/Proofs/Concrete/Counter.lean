import Mathlib.Data.List.Basic
import Mathlib.Logic.Relation
import UniformTree.Proofs.Concrete.Descent
/-!
# Searching with a counter

The search for a node that lies too deep, move by move, with the depth in a counter of 32 bits that
wraps around at both ends. In a tree of fewer levels than such a counter can tell apart it always
holds the number of ancestors of the node, so it never wraps; every node is entered once and left at
most once, so the search comes to an end; and what it comes to is the first node in pre-order below
the limit (`Concrete.tooDeep?_first`).
-/

namespace UniformTree

/-- A search at a node that it has come to, or on its way out of a subtree that it is done with. -/
structure Search where
  cursor : Cursor
  depth : UInt32
  /-- The subtree of the node is done with. -/
  isLeaving : Bool

namespace Search

/-- At the root of a tree. -/
def start (root : Concrete) : Search := ⟨Cursor.root root, 0, false⟩

/-- One move of a search: to where it goes on, or to its answer. -/
def move (limit : UInt32) (s : Search) : Search ⊕ Option Concrete :=
  if s.isLeaving then
    match s.cursor.nextSibling? with
    | some c => .inl ⟨c, s.depth, false⟩
    | none =>
      match s.cursor.parent? with
      | some c => .inl ⟨c, s.depth - 1, true⟩
      | none => .inr none
  else if limit < s.depth then .inr (some s.cursor.node)
  else
    match s.cursor.firstChild? with
    | some c => .inl ⟨c, s.depth + 1, false⟩
    | none => .inl ⟨s.cursor, s.depth, true⟩

/-- The answer of a search, if it has one after a number of moves. -/
def answer? (limit : UInt32) : Nat → Search → Option (Option Concrete)
  | 0, _ => none
  | moves + 1, s =>
    match s.move limit with
    | .inl t => answer? limit moves t
    | .inr answer => some answer

/-- The second search is where the first one is after some moves. -/
def Reaches (limit : UInt32) : Search → Search → Prop :=
  Relation.ReflTransGen fun s t => s.move limit = .inl t

/-! ## What is left of a search -/

/-- The nodes that a search has not come to yet, with their levels. -/
def rest (s : Search) : List (Nat × Concrete) :=
  if s.isLeaving then s.cursor.beyond else s.cursor.ahead

/-- The first of the nodes left that lies below the limit. -/
def found (limit : UInt32) (s : Search) : Option Concrete :=
  (s.rest.find? fun r => limit.toNat < r.1).map (·.2)

/-- The moves left, if the search goes through all of its tree: one into each node to come and one
out of it and out of each of the ancestors, the last of which is the answer. -/
def toGo (s : Search) : Nat :=
  s.cursor.up.length + if s.isLeaving then 2 * s.cursor.after + 1 else 2 * s.cursor.pending

/-- The counter holds the number of ancestors, and there are few levels to come. -/
structure Counts (levels : Nat) (s : Search) : Prop where
  depth_eq : s.depth.toNat = s.cursor.up.length
  lt_levels : ∀ r ∈ s.rest, r.1 < levels

variable {levels k : Nat} {limit : UInt32} {s t : Search}

theorem toGo_pos (s : Search) : 0 < s.toGo := by
  unfold toGo Cursor.pending
  have := s.cursor.node.size_pos
  split <;> omega

/-! ## One move -/

/-- What a move keeps: the counter is right, what is found is the same, and one move less is
left. -/
structure Keeps (levels : Nat) (limit : UInt32) (s t : Search) : Prop where
  counts : t.Counts levels
  found_eq : t.found limit = s.found limit
  toGo_lt : t.toGo + 1 = s.toGo

/-- A move that leaves out nodes of which none lies below the limit. -/
theorem Keeps.of_rest (passed : List (Nat × Concrete)) (hs : s.Counts levels)
    (hdepth : t.depth.toNat = t.cursor.up.length) (hrest : s.rest = passed ++ t.rest)
    (hpassed : ∀ r ∈ passed, r.1 ≤ limit.toNat) (htoGo : t.toGo + 1 = s.toGo) :
    s.Keeps levels limit t := by
  refine ⟨⟨hdepth, fun r hr => hs.lt_levels r (hrest ▸ List.mem_append_right _ hr)⟩, ?_, htoGo⟩
  have hnone : passed.find? (fun r => limit.toNat < r.1) = none :=
    List.find?_eq_none.2 fun r hr => by simpa using hpassed r hr
  unfold found
  rw [hrest, List.find?_append, hnone, Option.none_or]

/-- To a sibling, at the same level. -/
theorem keeps_nextSibling {c d : Cursor} {depth : UInt32}
    (hs : (⟨c, depth, true⟩ : Search).Counts levels) (hd : c.nextSibling? = some d) :
    (⟨c, depth, true⟩ : Search).Keeps levels limit ⟨d, depth, false⟩ := by
  obtain ⟨hbeyond, hup⟩ := Cursor.beyond_nextSibling hd
  have hpending := Cursor.pending_nextSibling hd
  refine .of_rest [] hs (hs.depth_eq.trans hup.symm) hbeyond (by simp) ?_
  show d.up.length + 2 * d.pending + 1 = c.up.length + (2 * c.after + 1)
  omega

/-- To the parent. The node has an ancestor, so the counter is not at zero. -/
theorem keeps_parent {c d : Cursor} {depth : UInt32}
    (hs : (⟨c, depth, true⟩ : Search).Counts levels) (hlast : c.nextSibling? = none)
    (hd : c.parent? = some d) :
    (⟨c, depth, true⟩ : Search).Keeps levels limit ⟨d, depth - 1, true⟩ := by
  have hdepth : depth.toNat = c.up.length := hs.depth_eq
  have hup := Cursor.up_length_parent hd
  have hone : (1 : UInt32) ≤ depth := UInt32.le_iff_toNat_le.2 (by
    rw [hdepth, ← hup]
    exact Nat.le_add_left 1 _)
  have hafter := Cursor.after_parent hd hlast
  refine .of_rest [] hs ?_ (Cursor.beyond_parent hlast hd) (by simp) ?_
  · show (depth - 1).toNat = d.up.length
    rw [UInt32.toNat_sub_of_le _ _ hone, hdepth, ← hup]
    rfl
  · show d.up.length + (2 * d.after + 1) + 1 = c.up.length + (2 * c.after + 1)
    omega

/-- To the first child. It lies in the tree, so the counter is not at its end. -/
theorem keeps_firstChild {c d : Cursor} {depth : UInt32} (hlevels : levels < UInt32.size)
    (hs : (⟨c, depth, false⟩ : Search).Counts levels) (hle : depth ≤ limit)
    (hd : c.firstChild? = some d) :
    (⟨c, depth, false⟩ : Search).Keeps levels limit ⟨d, depth + 1, false⟩ := by
  have hdepth : depth.toNat = c.up.length := hs.depth_eq
  obtain ⟨hahead, hup⟩ := Cursor.ahead_firstChild hd
  have hpending := Cursor.pending_firstChild hd
  have hchild : d.up.length < levels := by
    refine hs.lt_levels (d.up.length, d.node) ?_
    show _ ∈ c.ahead
    rw [hahead, Cursor.ahead, Concrete.leveled_eq]
    exact List.mem_cons_of_mem _ List.mem_cons_self
  refine .of_rest [(c.up.length, c.node)] hs ?_ hahead ?_ ?_
  · show (depth + 1).toNat = d.up.length
    rw [UInt32.toNat_add, hdepth, hup]
    exact Nat.mod_eq_of_lt (Nat.lt_trans (hup ▸ hchild) hlevels)
  · rw [List.forall_mem_singleton, ← hdepth]
    exact UInt32.le_iff_toNat_le.1 hle
  · show d.up.length + 2 * d.pending + 1 = c.up.length + 2 * c.pending
    omega

/-- Out of a leaf. -/
theorem keeps_leaf {c : Cursor} {depth : UInt32}
    (hs : (⟨c, depth, false⟩ : Search).Counts levels) (hle : depth ≤ limit)
    (hleaf : c.firstChild? = none) :
    (⟨c, depth, false⟩ : Search).Keeps levels limit ⟨c, depth, true⟩ := by
  have hdepth : depth.toNat = c.up.length := hs.depth_eq
  refine .of_rest [(c.up.length, c.node)] hs hdepth (Cursor.ahead_leaf hleaf) ?_ ?_
  · rw [List.forall_mem_singleton, ← hdepth]
    exact UInt32.le_iff_toNat_le.1 hle
  · show c.up.length + (2 * c.after + 1) + 1 = c.up.length + 2 * c.pending
    have hsize : c.node.size = 1 := by
      unfold Cursor.firstChild? at hleaf
      split at hleaf
      · rename_i hnil
        rw [Concrete.size_eq, hnil, Concrete.sizeAll]
      · cases hleaf
    unfold Cursor.pending
    omega

/-- **Step.** A move keeps the counter right and loses nothing that could be found; an answer is
what there was to find. -/
theorem move_spec (limit : UInt32) (hlevels : levels < UInt32.size) (hs : s.Counts levels) :
    match s.move limit with
    | .inl t => s.Keeps levels limit t
    | .inr answer => answer = s.found limit := by
  rcases s with ⟨c, depth, isLeaving⟩
  unfold move
  cases isLeaving with
  | true =>
    simp only [if_true]
    cases hd : c.nextSibling? with
    | some d => exact keeps_nextSibling hs hd
    | none =>
      cases hp : c.parent? with
      | some d => exact keeps_parent hs hd hp
      | none =>
        have hnone : c.beyond = [] := Cursor.beyond_last hd hp
        show none = (c.beyond.find? _).map _
        rw [hnone]
        rfl
  | false =>
    simp only [Bool.false_eq_true, if_false]
    by_cases hlt : limit < depth
    · rw [if_pos hlt]
      have hdepth : limit.toNat < c.up.length := hs.depth_eq ▸ UInt32.lt_iff_toNat_lt.1 hlt
      show some c.node = (c.ahead.find? _).map _
      rw [Cursor.ahead, Concrete.leveled_eq, List.cons_append, List.find?_cons_of_pos]
      · rfl
      · exact decide_eq_true hdepth
    · rw [if_neg hlt]
      have hle : depth ≤ limit := UInt32.not_lt.1 hlt
      cases hd : c.firstChild? with
      | some d => exact keeps_firstChild hlevels hs hle hd
      | none => exact keeps_leaf hs hle hd

/-! ## A whole search -/

/-- **Run.** A search comes to an answer in the moves that it has to go, and the answer is what
there was to find. -/
theorem answer?_eq (hlevels : levels < UInt32.size) (hs : s.Counts levels) (hk : s.toGo ≤ k) :
    s.answer? limit k = some (s.found limit) := by
  induction k generalizing s with
  | zero =>
    have := s.toGo_pos
    omega
  | succ k ih =>
    have hmove := move_spec limit hlevels hs
    rw [answer?]
    cases ht : s.move limit with
    | inl t =>
      rw [ht] at hmove
      have := hmove.toGo_lt
      rw [← hmove.found_eq]
      exact ih hmove.counts (by omega)
    | inr answer =>
      rw [ht] at hmove
      exact congrArg some hmove

/-- **Run.** Wherever a search comes, the counter is right. -/
theorem counts_of_reaches (hlevels : levels < UInt32.size) (hs : s.Counts levels)
    (h : s.Reaches limit t) : t.Counts levels := by
  induction h with
  | refl => exact hs
  | tail _ hmove ih =>
    have := move_spec limit hlevels ih
    rw [hmove] at this
    exact this.counts

theorem counts_start (root : Concrete) : (start root).Counts root.height := by
  refine ⟨rfl, ?_⟩
  show ∀ r ∈ (Cursor.root root).ahead, r.1 < root.height
  rw [Cursor.ahead_root]
  intro r hr
  have hpos : 0 < root.height := by rw [Concrete.height_eq]; omega
  have := Concrete.levels_le_iff.2 (by omega : 0 + root.height ≤ root.height - 1 + 1) r hr
  omega

theorem toGo_start (root : Concrete) : (start root).toGo = 2 * root.size := by
  show 0 + 2 * (root.size + (Concrete.sizeAll [] + 0)) = 2 * root.size
  rw [Concrete.sizeAll]
  omega

end Search

namespace Concrete

/-! ## The first node below the limit -/

variable {level limit : Nat} {r : Nat × Concrete}

/-- Levels apart, the nodes with their levels are the nodes in pre-order. -/
theorem map_snd_leveled (n : Concrete) (level : Nat) :
    (n.leveled level).map (·.2) = n.preorder := by
  induction n using induction generalizing level with
  | step n ih =>
    rw [leveled_eq, preorder_eq, List.map_cons, leveledAll_eq, preorderAll_eq, List.map_flatMap]
    exact congrArg (n :: ·) (List.flatMap_congr fun c hc => ih c hc (level + 1))

/-- Levels grow by one at a time, so the first one below a limit is the next one. -/
theorem fst_of_find?_leveled {n : Concrete} (hlevel : level ≤ limit + 1)
    (hr : (n.leveled level).find? (fun r => limit < r.1) = some r) : r.1 = limit + 1 := by
  induction n using induction generalizing level with
  | step n ih =>
    rw [leveled_eq] at hr
    by_cases hlt : limit < level
    · rw [List.find?_cons_of_pos (by simpa using hlt), Option.some.injEq] at hr
      rw [← hr]
      show level = limit + 1
      omega
    · rw [List.find?_cons_of_neg (by simpa using hlt), leveledAll_eq, List.find?_flatMap] at hr
      obtain ⟨c, hc, hr⟩ := List.exists_of_findSome?_eq_some hr
      exact ih c hc (by omega) hr

theorem find?_eq_zipIdx {α : Type} (p : α → Bool) (xs : List α) :
    xs.find? p = (xs.zipIdx.find? fun r => p r.1).map (·.1) := by
  have h : xs.find? p = (xs.zipIdx.map Prod.fst).find? p := by rw [List.zipIdx_map_fst]
  rw [h, List.find?_map]
  rfl

/-- What is found with its number stands there, and nothing before it fits. -/
theorem find?_zipIdx_eq_some {α : Type} (p : α → Bool) (xs : List α) {x : α} {i : Nat} :
    xs.zipIdx.find? (fun r => p r.1) = some (x, i) ↔
      xs[i]? = some x ∧ p x = true ∧ ∀ j < i, ∀ y, xs[j]? = some y → p y = false := by
  rw [List.find?_eq_some_iff_getElem]
  simp only [List.getElem_zipIdx, List.length_zipIdx, Prod.mk.injEq, Nat.zero_add]
  constructor
  · rintro ⟨hx, j, hj, ⟨hget, rfl⟩, hbefore⟩
    refine ⟨List.getElem?_eq_some_iff.2 ⟨hj, hget⟩, hx, ?_⟩
    intro k hk y hy
    obtain ⟨-, rfl⟩ := List.getElem?_eq_some_iff.1 hy
    simpa using hbefore k hk
  · rintro ⟨hi, hx, hbefore⟩
    obtain ⟨hlt, hget⟩ := List.getElem?_eq_some_iff.1 hi
    refine ⟨hx, i, hlt, ⟨hget, rfl⟩, fun j hj => ?_⟩
    simpa using hbefore j hj _ (List.getElem?_eq_getElem (Nat.lt_trans hj hlt))

/-- The place in pre-order at which the limit is passed for the first time. -/
theorem tooDeep?_eq_some {root n : Concrete} {i : Nat} :
    root.tooDeep? limit = some (i, n) ↔ (root.leveled 0)[i]? = some (limit + 1, n) ∧
      ∀ j < i, ∀ r, (root.leveled 0)[j]? = some r → r.1 ≤ limit := by
  have hplace (r : Nat × Concrete) :=
    find?_zipIdx_eq_some (fun r => limit < r.1) (root.leveled 0) (x := r) (i := i)
  simp only [decide_eq_true_eq, decide_eq_false_iff_not, Nat.not_lt] at hplace
  rw [tooDeep?_eq, Option.map_eq_some_iff]
  constructor
  · rintro ⟨⟨r, j⟩, hfind, heq⟩
    cases heq
    obtain ⟨hr, hlt, hbefore⟩ := (hplace r).1 hfind
    have hfirst : (root.leveled 0).find? (fun r => limit < r.1) = some r := by
      rw [find?_eq_zipIdx, hfind, Option.map_some]
    rw [← fst_of_find?_leveled (Nat.zero_le _) hfirst]
    exact ⟨hr, hbefore⟩
  · rintro ⟨hr, hbefore⟩
    exact ⟨(_, i), (hplace _).2 ⟨hr, Nat.lt_succ_self limit, hbefore⟩, rfl⟩

theorem found_start (root : Concrete) (limit : UInt32) :
    (Search.start root).found limit = (root.tooDeep? limit.toNat).map (·.2) := by
  show ((Cursor.root root).ahead.find? _).map _ = _
  rw [Cursor.ahead_root, tooDeep?_eq, find?_eq_zipIdx, Option.map_map, Option.map_map]
  rfl

/-- The search finds the first node that lies too deep. Of the nodes in pre-order, each with its
distance from the root, it gives the first one whose distance is greater than the limit, and that
node lies exactly one level below the limit; it gives none exactly when no node lies below the
limit. With a counter of 32 bits, in a tree of fewer levels than such a counter can tell apart, the
search comes to this answer within two moves for each node, and wherever it comes on the way the
counter holds the number of ancestors of the node, so it is not at zero where there is a parent to
go back to. -/
theorem tooDeep?_first (root : Concrete) (limit : UInt32) (hlevels : root.height < UInt32.size) :
    (root.leveled 0).map (·.2) = root.preorder ∧
    (∀ i n, root.tooDeep? limit.toNat = some (i, n) ↔
      (root.leveled 0)[i]? = some (limit.toNat + 1, n) ∧
        ∀ j < i, ∀ r, (root.leveled 0)[j]? = some r → r.1 ≤ limit.toNat) ∧
    (root.tooDeep? limit.toNat = none ↔ ∀ r ∈ root.leveled 0, r.1 ≤ limit.toNat) ∧
    (Search.start root).answer? limit (2 * root.size) =
      some ((root.tooDeep? limit.toNat).map (·.2)) ∧
    ∀ s, (Search.start root).Reaches limit s → s.depth.toNat = s.cursor.up.length ∧
      (s.cursor.parent? ≠ none → s.depth ≠ 0) := by
  have hstart := Search.counts_start root
  refine ⟨root.map_snd_leveled 0, fun i n => tooDeep?_eq_some, ?_, ?_, ?_⟩
  · rw [tooDeep?_eq_none, levels_le_iff, Nat.zero_add]
  · rw [← found_start]
    exact Search.answer?_eq hlevels hstart (Nat.le_of_eq (Search.toGo_start root))
  · intro s hs
    have hdepth := (Search.counts_of_reaches hlevels hstart hs).depth_eq
    refine ⟨hdepth, fun hparent hzero => hparent ?_⟩
    rw [hzero] at hdepth
    unfold Cursor.parent?
    rw [List.eq_nil_of_length_eq_zero hdepth.symm]

/-- Two declarations, the second one of which nests deeper. -/
def twoDecls : Concrete :=
  rule "source_file" none 0 20 [
    rule "var_declaration" none 0 5 [rule "var_spec" none 4 5 []],
    rule "func_declaration" none 6 20 [rule "block" none 12 20 [rule "call" none 14 18 []]]]

/-- A node three levels down in the second declaration is the first one below the second level, and
no node lies below the third. -/
theorem tooDeep?_twoDecls :
    twoDecls.height < UInt32.size ∧
    (twoDecls.tooDeep? 2).map (·.2) = some (rule "call" none 14 18 []) ∧
    twoDecls.tooDeep? 3 = none := by
  have hlevels : twoDecls.height < UInt32.size := by decide
  obtain ⟨-, -, -, hanswer, -⟩ := tooDeep?_first twoDecls 2 hlevels
  obtain ⟨-, -, hnone, -⟩ := tooDeep?_first twoDecls 3 hlevels
  have hfound : (Search.start twoDecls).answer? 2 (2 * twoDecls.size) =
      some (some (rule "call" none 14 18 [])) := rfl
  exact ⟨hlevels, Option.some.inj (hanswer.symm.trans hfound), hnone.2 (by decide)⟩

end Concrete

end UniformTree
