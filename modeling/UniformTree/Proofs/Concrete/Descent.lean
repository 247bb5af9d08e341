import UniformTree.Concrete.Cursor
import UniformTree.Proofs.Concrete.Subtrees
/-!
# Descents go through a tree in pre-order

`leveled` lists the nodes of a tree in pre-order, each with its level. A descent has gone through
the front of this list and has the rest of it `ahead`, whichever way it goes on: to a child, to a
sibling or back up. So `Descent.tooDeep?` is a search of what is ahead, and none of the nodes of a
tree is too deep exactly when the tree is not too high.
-/

namespace UniformTree

namespace Concrete

/-! ## Levels -/

mutual

/-- The nodes of a subtree in pre-order, each with its level, if the subtree starts at one. -/
def leveled (level : Nat) : Concrete → List (Nat × Concrete)
  | ⟨kind, field, start, stop, isNamed, isError, isMissing, children⟩ =>
    (level, ⟨kind, field, start, stop, isNamed, isError, isMissing, children⟩) ::
      leveledAll (level + 1) children

/-- The nodes of a row of subtrees that all start at one level. -/
def leveledAll (level : Nat) : List Concrete → List (Nat × Concrete)
  | [] => []
  | c :: cs => leveled level c ++ leveledAll level cs

end

theorem leveled_eq (level : Nat) (n : Concrete) :
    n.leveled level = (level, n) :: leveledAll (level + 1) n.children := by
  cases n; rfl

theorem leveledAll_eq (level : Nat) (cs : List Concrete) :
    leveledAll level cs = cs.flatMap (leveled level) := by
  induction cs with
  | nil => rfl
  | cons c cs ih => rw [leveledAll, ih, List.flatMap_cons]

theorem forall_mem_leveledAll {level : Nat} {cs : List Concrete} {P : Nat × Concrete → Prop} :
    (∀ r ∈ leveledAll level cs, P r) ↔ ∀ c ∈ cs, ∀ r ∈ c.leveled level, P r := by
  rw [leveledAll_eq, List.forall_mem_flatMap]

/-- The levels of a subtree stay within a limit exactly when it is not higher than that. -/
theorem levels_le_iff {n : Concrete} {level limit : Nat} :
    (∀ r ∈ n.leveled level, r.1 ≤ limit) ↔ level + n.height ≤ limit + 1 := by
  induction n using Concrete.induction generalizing level with
  | step n ih =>
    rw [leveled_eq, List.forall_mem_cons, forall_mem_leveledAll, height_eq]
    constructor
    · rintro ⟨hl, hcs⟩
      have := heightAll_le.2 fun c hc =>
        show c.height ≤ limit - level by have := (ih c hc).1 (hcs c hc); omega
      omega
    · intro h
      refine ⟨by omega, fun c hc => (ih c hc).2 ?_⟩
      have := heightAll_le.1 (Nat.le_refl _) c hc
      omega

end Concrete

namespace Cursor

open Concrete

/-! ## What is ahead of a cursor -/

/-- The nodes after the subtrees of some siblings, on the way up from them. -/
def afterUp : List (Concrete × List Concrete) → List (Nat × Concrete)
  | [] => []
  | (_, right) :: up => leveledAll up.length right ++ afterUp up

/-- The nodes after the subtree of a cursor. -/
def beyond (c : Cursor) : List (Nat × Concrete) :=
  leveledAll c.up.length c.right ++ afterUp c.up

/-- The nodes at or after a cursor. -/
def ahead (c : Cursor) : List (Nat × Concrete) := c.node.leveled c.up.length ++ c.beyond

theorem ahead_root (n : Concrete) : (root n).ahead = n.leveled 0 := by
  simp [ahead, beyond, root, leveledAll, afterUp]

theorem ahead_firstChild {c d : Cursor} (h : c.firstChild? = some d) :
    c.ahead = (c.up.length, c.node) :: d.ahead ∧ d.up.length = c.up.length + 1 := by
  unfold firstChild? at h
  split at h
  · cases h
  · rename_i child rest hc
    cases h
    refine ⟨?_, rfl⟩
    simp [ahead, beyond, afterUp, leveled_eq c.up.length c.node, hc, leveledAll]

theorem ahead_leaf {c : Cursor} (h : c.firstChild? = none) :
    c.ahead = (c.up.length, c.node) :: c.beyond := by
  unfold firstChild? at h
  split at h
  · rename_i hc
    rw [ahead, leveled_eq, hc, leveledAll, List.singleton_append]
  · cases h

theorem beyond_nextSibling {c d : Cursor} (h : c.nextSibling? = some d) :
    c.beyond = d.ahead ∧ d.up.length = c.up.length := by
  unfold nextSibling? at h
  split at h
  · cases h
  · rename_i sibling rest hr
    cases h
    refine ⟨?_, rfl⟩
    simp [ahead, beyond, hr, leveledAll]

theorem beyond_parent {c d : Cursor} (hr : c.nextSibling? = none) (h : c.parent? = some d) :
    c.beyond = d.beyond := by
  unfold nextSibling? at hr
  unfold parent? at h
  split at h
  · cases h
  · rename_i parent rest up hu
    cases h
    split at hr
    · rename_i hright
      simp [beyond, hright, hu, leveledAll, afterUp]
    · cases hr

theorem beyond_last {c : Cursor} (hr : c.nextSibling? = none) (h : c.parent? = none) :
    c.beyond = [] := by
  unfold nextSibling? at hr
  unfold parent? at h
  split at h
  · rename_i hu
    split at hr
    · rename_i hright
      simp [beyond, hright, hu, leveledAll, afterUp]
    · cases hr
  · cases h

end Cursor

namespace Descent

/-! ## Steps of a descent -/

/-- The depth of a descent counts the ancestors of its node. -/
def IsPlaced (d : Descent) : Prop := d.depth = d.cursor.up.length

/-- Leaving a subtree goes on to the first node after it; there is none if nothing comes after. -/
theorem leave?_spec {d : Descent} (hd : d.IsPlaced) :
    match d.leave? with
    | some e => e.IsPlaced ∧ e.cursor.ahead = d.cursor.beyond ∧ e.passed = d.passed + 1
    | none => d.cursor.beyond = [] := by
  fun_induction leave? d with
  | case1 d c hs =>
    obtain ⟨hb, hu⟩ := Cursor.beyond_nextSibling hs
    exact ⟨hd.trans hu.symm, hb.symm, rfl⟩
  | case2 d hs c hp ih =>
    have hu := Cursor.up_length_parent hp
    have hc : IsPlaced ⟨c, d.depth - 1, d.passed⟩ := by
      simp only [IsPlaced] at hd ⊢
      omega
    rw [Cursor.beyond_parent hs hp]
    exact ih hc
  | case3 d hs hp => exact Cursor.beyond_last hs hp

/-- **Step.** The next node is the one that comes first ahead of this one. -/
theorem next?_spec {d : Descent} (hd : d.IsPlaced) :
    match d.next? with
    | some e => e.IsPlaced ∧ d.cursor.ahead = (d.depth, d.cursor.node) :: e.cursor.ahead ∧
        e.passed = d.passed + 1
    | none => d.cursor.ahead = [(d.depth, d.cursor.node)] := by
  unfold next?
  cases hc : d.cursor.firstChild? with
  | some c =>
    obtain ⟨ha, hu⟩ := Cursor.ahead_firstChild hc
    refine ⟨?_, by rw [ha, hd], rfl⟩
    simp only [IsPlaced] at hd ⊢
    omega
  | none =>
    have hl := leave?_spec hd
    simp only
    rw [Cursor.ahead_leaf hc, ← hd]
    cases he : d.leave? with
    | some e =>
      rw [he] at hl
      exact ⟨hl.1, by rw [hl.2.1], hl.2.2⟩
    | none =>
      rw [he] at hl
      simp only at hl ⊢
      rw [hl]

/-- **Run.** What is found is the first node ahead that lies deeper than the limit, together with
how many nodes come before it. -/
theorem tooDeep?_eq (limit : Nat) {d : Descent} (hd : d.IsPlaced) :
    d.tooDeep? limit =
      ((d.cursor.ahead.zipIdx d.passed).find? fun r => limit < r.1.1).map
        fun r => (r.2, r.1.2) := by
  fun_induction tooDeep? limit d with
  | case1 d hlt =>
    have hn := next?_spec hd
    cases he : d.next? with
    | some e =>
      rw [he] at hn
      simp [hn.2.1, hlt]
    | none =>
      rw [he] at hn
      simp only at hn
      simp [hn, hlt]
  | case2 d hle e he ih =>
    have hn := next?_spec hd
    rw [he] at hn
    rw [ih hn.1, hn.2.1, hn.2.2]
    simp [hle]
  | case3 d hle he =>
    have hn := next?_spec hd
    rw [he] at hn
    simp only at hn
    simp [hn, hle]

end Descent

namespace Concrete

/-- The first node in pre-order that lies below the limit, and its number. -/
theorem tooDeep?_eq (root : Concrete) (limit : Nat) :
    root.tooDeep? limit =
      ((root.leveled 0).zipIdx.find? fun r => limit < r.1.1).map fun r => (r.2, r.1.2) := by
  have h : (Descent.start root).IsPlaced := rfl
  rw [tooDeep?, Descent.tooDeep?_eq limit h, Descent.start, Cursor.ahead_root]

/-- No node is too deep exactly when the tree is not too high. -/
theorem tooDeep?_eq_none {root : Concrete} {limit : Nat} :
    root.tooDeep? limit = none ↔ root.height ≤ limit + 1 := by
  rw [tooDeep?_eq, Option.map_eq_none_iff, List.find?_eq_none, ← Nat.zero_add root.height,
    ← levels_le_iff]
  simp only [List.mem_zipIdx_iff_getElem?, decide_eq_true_eq, Nat.not_lt]
  constructor
  · intro h r hr
    obtain ⟨i, hi⟩ := List.getElem?_of_mem hr
    exact h (r, i) hi
  · rintro h ⟨r, i⟩ hr
    exact h r (List.mem_of_getElem? hr)

end Concrete

end UniformTree
