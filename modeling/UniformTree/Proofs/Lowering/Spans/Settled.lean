import UniformTree.Proofs.Concrete.Shape
import UniformTree.Proofs.Lowering.Yields
import UniformTree.Proofs.Walk.Owners
/-!
# Where the children of a node lie

The children of a node lie inside it, but for the comments that it owns, which stand beside it, and
the elements of a sequence stand in order. Nothing but the spans of a node and of its children
enters into this, so a source tree is settled once each of its nodes is (`Node.settled_of`).
What depends on the shape of the concrete tree is asked for only if `E`: order does not.
-/

namespace UniformTree

namespace Node

variable {E : Prop} {s t : Span} {n : Node}

/-- Comments that belong to a node without lying in it. -/
def isAside : Node → Bool
  | commentGroup _ => true
  | list role _ _ => role == .comments
  | _ => false

/-- The node is a sequence of nodes of one sort. -/
def isSequence : Node → Bool
  | fieldList _ => true
  | stmt (.block _) => true
  | list role _ _ => role != .comments
  | _ => false

/-- If `E` then the children of a node lie inside it, but for comments; and the elements of a
sequence stand in order. -/
structure Tidy (E : Prop) (n : Node) : Prop where
  covers : E → ∀ c ∈ n.children, c.isAside = false → c.span.Inside n.span
  inOrder : n.isSequence = true → n.children.Pairwise fun c d => c.span.Precedes d.span

/-- Every node that a walk visits is tidy, if it is no group of comments. -/
def Settled (E : Prop) (n : Node) : Prop := ∀ m ∈ n.visited, m.group? = none → m.Tidy E

/-- The node is settled and lies inside a span. -/
structure SitsIn (E : Prop) (s : Span) (n : Node) : Prop where
  settled : n.Settled E
  inside : n.span.Inside s

/-- The node is settled and, if `E`, lies inside a span or stands aside. -/
structure RestsIn (E : Prop) (s : Span) (n : Node) : Prop where
  settled : n.Settled E
  inside : E → n.isAside = false → n.span.Inside s

/-- Nodes that sit in a span, one after the other. -/
structure SitInRow (E : Prop) (s : Span) (ns : List Node) : Prop where
  sits : ∀ n ∈ ns, n.SitsIn E s
  inOrder : ns.Pairwise fun c d => c.span.Precedes d.span

theorem SitsIn.rests (h : n.SitsIn E s) : n.RestsIn E s := ⟨h.settled, fun _ _ => h.inside⟩

theorem SitsIn.trans (h : n.SitsIn E s) (hs : s.Inside t) : n.SitsIn E t :=
  ⟨h.settled, h.inside.trans hs⟩

/-- A node is settled if its children rest in it and, in a sequence, stand in order. -/
theorem settled_of (hrests : ∀ c ∈ n.children, c.RestsIn E n.span)
    (hseq : n.isSequence = true → n.children.Pairwise fun c d => c.span.Precedes d.span) :
    n.Settled E := by
  intro m hm hgroup
  rw [visited_eq, List.mem_cons] at hm
  rcases hm with rfl | hm
  · exact ⟨fun hE c hc => (hrests c hc).inside hE, hseq⟩
  · obtain ⟨c, hc, hm⟩ := List.mem_flatMap.1 hm
    exact (hrests c hc).settled m hm hgroup

theorem RestsIn.trans (h : n.RestsIn E s) (hs : E → s.Inside t) : n.RestsIn E t :=
  ⟨h.settled, fun hE haside => (h.inside hE haside).trans (hs hE)⟩

/-- A node that is no sequence is settled if its children rest in it. -/
theorem settled_of_rests (hs : n.span = s) (hseq : n.isSequence = false)
    (h : ∀ c ∈ n.children, c.RestsIn E s) : n.Settled E :=
  settled_of (hs ▸ h) (by simp [hseq])

/-! ## Slots and lists -/

section Slots

variable {α : Type} {f : α → Node} {x : Option α} {xs : List α}

theorem rests_slot (h : ∀ a ∈ x, (f a).SitsIn E s) : ∀ c ∈ slot f x, c.RestsIn E s :=
  forall_mem_slot.2 fun a ha => (h a ha).rests

/-- A group of comments rests wherever its owner is. -/
theorem rests_group (s : Span) (g : Option CommentGroup) :
    ∀ c ∈ slot commentGroup g, c.RestsIn E s := by
  rw [forall_mem_slot]
  intro g _
  have hcomment (c : Comment) : (comment c).Settled E :=
    settled_of (by simp [children]) (by simp [isSequence])
  constructor
  · intro m hm hgroup
    rw [visited_eq, List.mem_cons] at hm
    rcases hm with rfl | hm
    · cases hgroup
    · obtain ⟨c, hc, hm⟩ := List.mem_flatMap.1 hm
      obtain ⟨c, -, rfl⟩ := List.mem_map.1 hc
      exact hcomment c m hm hgroup
  · intro _ haside
    cases haside

theorem SitInRow.trans {ns : List Node} (h : SitInRow E s ns) (hs : s.Inside t) : SitInRow E t ns :=
  ⟨fun n hn => (h.sits n hn).trans hs, h.inOrder⟩

theorem row_nil : SitInRow E s [] := ⟨by simp, .nil⟩

theorem row_singleton (h : n.SitsIn E s) : SitInRow E s [n] :=
  ⟨List.forall_mem_singleton.2 h, List.pairwise_singleton _ _⟩

/-- A row may go on from where it ends. -/
theorem SitInRow.append {a b c : UInt32} {ns ms : List Node} (hns : SitInRow E ⟨a, b⟩ ns)
    (hms : SitInRow E ⟨b, c⟩ ms) (hab : a ≤ b) (hbc : b ≤ c) : SitInRow E ⟨a, c⟩ (ns ++ ms) := by
  constructor
  · intro n hn
    rcases List.mem_append.1 hn with hn | hn
    · obtain ⟨hsettled, hstart, hle, hstop⟩ := hns.sits n hn
      exact ⟨hsettled, hstart, hle, UInt32.le_trans hstop hbc⟩
    · obtain ⟨hsettled, hstart, hle, hstop⟩ := hms.sits n hn
      exact ⟨hsettled, UInt32.le_trans hab hstart, hle, hstop⟩
  · rw [List.pairwise_append]
    refine ⟨hns.inOrder, hms.inOrder, ?_⟩
    intro n hn m hm
    exact UInt32.le_trans (hns.sits n hn).inside.stop_le (hms.sits m hm).inside.start_le

/-- What makes a row in a span makes, as a list, one node that rests in it. -/
theorem rests_listOf {role : ListRole} (h : SitInRow E s (xs.map f)) :
    ∀ c ∈ listOf role f xs, c.RestsIn E s := by
  cases xs with
  | nil => simp [listOf]
  | cons y ys =>
    intro c hc
    obtain rfl := List.mem_singleton.1 hc
    have hpairs : ((y :: ys).map fun x => (f x).span).Pairwise Span.Precedes := by
      have hnodes := h.inOrder
      rw [List.pairwise_map] at hnodes ⊢
      exact hnodes
    have hin : ∀ t ∈ (y :: ys).map fun x => (f x).span, t.Inside s := by
      intro t ht
      obtain ⟨x, hx, rfl⟩ := List.mem_map.1 ht
      exact (h.sits (f x) (List.mem_map_of_mem hx)).inside
    have hcover := Span.coverAll_inside hin hpairs (by simp)
    refine ⟨settled_of ?_ fun _ => h.inOrder, fun _ _ => hcover⟩
    intro c hc
    refine ⟨(h.sits c hc).settled, fun _ _ => ?_⟩
    obtain ⟨x, hx, rfl⟩ := List.mem_map.1 hc
    exact Span.inside_coverAll (fun t ht => (hin t ht).le) hpairs (List.mem_map_of_mem hx)

/-- A list of one node lies where the node lies. -/
theorem rests_listOf_singleton {role : ListRole} {y : α} (h : (f y).RestsIn E s)
    (haside : (f y).isAside = false) : ∀ c ∈ listOf role f [y], c.RestsIn E s := by
  intro c hc
  obtain rfl := List.mem_singleton.1 hc
  have hspan : Span.coverAll ([y].map fun x => (f x).span) = (f y).span := rfl
  rw [hspan]
  refine ⟨settled_of ?_ fun _ => List.pairwise_singleton _ _, fun hE _ => h.inside hE haside⟩
  rw [children, List.map_singleton, List.forall_mem_singleton]
  exact ⟨h.settled, fun hE _ => Span.inside_self (h.inside hE haside).le⟩

/-- The comments that a file keeps stand aside. -/
theorem rests_comments (s : Span) (gs : List CommentGroup) :
    ∀ c ∈ listOf .comments commentGroup gs, c.RestsIn E s := by
  cases gs with
  | nil => simp [listOf]
  | cons g gs =>
    intro c hc
    obtain rfl := List.mem_singleton.1 hc
    refine ⟨settled_of ?_ (by simp [isSequence]), fun _ haside => by cases haside⟩
    intro c hc
    obtain ⟨g, -, rfl⟩ := List.mem_map.1 hc
    exact rests_group _ (some g) _ (by simp [slot])

end Slots

end Node

/-! ## Rows of results -/

namespace Lowering

open Concrete Lower Node

variable {E : Prop} {src : Placed} {n : Concrete} {cs : List Concrete}

/-- A node over the span of a concrete node sits in it if its children rest in it. -/
theorem sits_node (hn : n.Regular E src) {m : Node} (hs : m.span = src.span n)
    (hseq : m.isSequence = false) (h : ∀ c ∈ m.children, c.RestsIn E (src.span n)) :
    m.SitsIn E (src.span n) where
  settled := settled_of_rests hs hseq h
  inside := hs ▸ hn.inside n.mem_preorder_self

/-- A sequence over the span of a concrete node sits in it if its elements make a row in it. -/
theorem sits_row (hn : n.Regular E src) {m : Node} (hs : m.span = src.span n)
    (h : SitInRow E (src.span n) m.children) : m.SitsIn E (src.span n) where
  settled := settled_of (hs ▸ fun c hc => (h.sits c hc).rests) fun _ => h.inOrder
  inside := hs ▸ hn.inside n.mem_preorder_self

/-- Nodes of a row, each of them made into one node, make a row. -/
theorem row_nodes (hn : n.Regular E src) (hcs : n.InRow cs) {f : Concrete → Node}
    (h : ∀ c ∈ cs, (f c).SitsIn E (src.span c)) : SitInRow E (src.span n) (cs.map f) := by
  constructor
  · rw [List.forall_mem_map]
    intro c hc
    exact (h c hc).trans (hn.inside (hcs.mem c hc))
  · rw [List.pairwise_map]
    apply hcs.inOrder.imp_of_mem
    intro c d hc hd hcd
    have hprecedes := (hn.of_mem (hcs.mem d hd)).precedes hcd
    exact hprecedes.of_inside (h c hc).inside (h d hd).inside

/-- What is lowered from a row of nodes, each within its node, makes a row. -/
theorem row_mapM {α : Type} {lower : Concrete → Lower α} {g : α → List Node}
    (hn : n.Regular E src) (hcs : n.InRow cs)
    (h : ∀ c ∈ cs, (lower c).Yields fun x => SitInRow E (src.span c) (g x)) {lo hi : Nat}
    (hle : lo ≤ hi) (hhi : hi ≤ n.stop) (hbounds : ∀ c ∈ cs, lo ≤ c.start ∧ c.stop ≤ hi) :
    (cs.mapM lower).Yields fun xs => SitInRow E ⟨src.pos lo, src.pos hi⟩ (xs.flatMap g) := by
  induction cs generalizing lo with
  | nil =>
    rw [List.mapM_nil]
    exact .pure row_nil
  | cons c cs ih =>
    obtain ⟨⟨hlo, hchi⟩, hlater⟩ := List.forall_mem_cons.1 hbounds
    have hc := hn.of_mem (hcs.mem c List.mem_cons_self)
    have hcle := hc.nested.start_le_stop
    have hfit := hn.fits
    obtain ⟨hfirst, hrest⟩ := List.pairwise_cons.1 hcs.inOrder
    have htail : n.InRow cs := ⟨fun d hd => hcs.mem d (List.mem_cons_of_mem c hd), hrest⟩
    rw [List.mapM_cons]
    refine (h c List.mem_cons_self).bind fun x hx => ?_
    -- the rest of the row lies after the first node
    refine (ih htail (fun d hd => h d (List.mem_cons_of_mem c hd)) hchi
      fun d hd => ⟨hfirst d hd, (hlater d hd).2⟩).bind fun xs hxs => .pure ?_
    have hhead : SitInRow E ⟨src.pos lo, src.pos c.stop⟩ (g x) :=
      hx.trans (Placed.inside hlo hcle (Nat.le_refl _) (by omega))
    exact hhead.append hxs (Placed.pos_le_pos (by omega) (by omega))
      (Placed.pos_le_pos hchi (by omega))

/-- What is lowered from a row below a node, each within its node, makes a row in that node. -/
theorem row_flatMap {α : Type} {lower : Concrete → Lower α} {g : α → List Node}
    (hn : n.Regular E src) (hcs : n.InRow cs)
    (h : ∀ c ∈ cs, (lower c).Yields fun x => SitInRow E (src.span c) (g x)) :
    (cs.mapM lower).Yields fun xs => SitInRow E (src.span n) (xs.flatMap g) :=
  row_mapM hn hcs h hn.nested.start_le_stop (Nat.le_refl _) fun c hc =>
    hn.nested.bounds (hcs.mem c hc)

theorem row_map {α : Type} {lower : Concrete → Lower α} {f : α → Node}
    (hn : n.Regular E src) (hcs : n.InRow cs)
    (h : ∀ c ∈ cs, (lower c).Yields fun x => (f x).SitsIn E (src.span c)) :
    (cs.mapM lower).Yields fun xs => SitInRow E (src.span n) (xs.map f) := by
  simp only [List.map_eq_flatMap]
  exact row_flatMap hn hcs fun c hc => (h c hc).imp fun x hx => row_singleton hx

end Lowering

end UniformTree
