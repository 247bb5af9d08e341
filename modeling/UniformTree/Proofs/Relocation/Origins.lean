import UniformTree.Proofs.Positions
import UniformTree.Proofs.Relocation.Stmt
/-!
# Where positions and texts come from

A relocation that a tree does not notice leaves the file that the tree describes as it is, and with
it every node of the file. So whatever holds of the positions of the nodes of a tree holds of the
positions in the file (`Lowering.ends_of_visited`), and whatever holds of their spans and texts
together holds of the spans and texts of names, literals and comments
(`Lowering.text_of_visited`). No step of lowering has to be looked at again for this.
-/

namespace UniformTree

namespace Concrete

/-- No node of a tree ends before it starts or after a number of bytes. -/
def Within (length : Nat) (n : Concrete) : Prop :=
  ∀ c ∈ n.preorder, c.start ≤ c.stop ∧ c.stop ≤ length

instance (length : Nat) (n : Concrete) : Decidable (n.Within length) :=
  inferInstanceAs (Decidable (∀ c ∈ n.preorder, c.start ≤ c.stop ∧ c.stop ≤ length))

/-- Every spec of an import declaration has a path. -/
def HasPaths (n : Concrete) : Prop :=
  ∀ c ∈ n.preorder, c.kind = "import_declaration" → ∀ s ∈ Lowering.specNodes c,
    s.child? "path" ≠ none

instance (n : Concrete) : Decidable n.HasPaths :=
  inferInstanceAs (Decidable (∀ c ∈ n.preorder, c.kind = "import_declaration" →
    ∀ s ∈ Lowering.specNodes c, s.child? "path" ≠ none))

end Concrete

/-- The text of a name, a literal or a comment. -/
def Node.text? : Node → Option String
  | .expr (.ident id) => some id.name
  | .expr (.basicLit lit) => some lit.value
  | .comment c => some c.text
  | _ => none

theorem Node.text?_relocate (ρ : Relocation) {n : Node} {t : String} (h : n.text? = some t) :
    (n.relocate ρ).text? = some (ρ.text n.span t) := by
  unfold text? at h
  split at h <;> first | cases h; rfl | cases h

namespace Relocation

open Classical in
/-- Positions without a property go to one place. -/
noncomputable def confining (P : UInt32 → Prop) (place : UInt32) : Relocation where
  pos p := if P p then p else place
  text _ t := t

open Classical in
/-- Texts that do not agree with their spans are made longer. -/
noncomputable def marking (Q : Span → String → Prop) : Relocation where
  pos p := p
  text s t := if Q s t then t else t ++ "?"

theorem of_confining_pos {P : UInt32 → Prop} {place p : UInt32} (hplace : P place)
    (h : (confining P place).pos p = p) : P p := by
  by_contra hp
  have hmoved : (confining P place).pos p = place := if_neg hp
  have hp' : place = p := hmoved.symm.trans h
  exact hp (hp' ▸ hplace)

theorem of_marking_text {Q : Span → String → Prop} {s : Span} {t : String}
    (h : (marking Q).text s t = t) : Q s t := by
  by_contra hq
  have hlonger : (marking Q).text s t = t ++ "?" := if_neg hq
  have hlength : (t ++ "?").length = t.length := congrArg String.length (hlonger ▸ h)
  rw [String.length_append] at hlength
  exact absurd hlength (by simp)

end Relocation

namespace Lowering

open Concrete

variable {src : Placed} {root : Concrete} {f : File} {n : Node}

/-- A relocation that a tree does not notice leaves every node of its file as it is. -/
theorem relocate_eq_of_visited {ρ : Relocation} (hρ : ρ.Fits src src root)
    (h : file src root = .ok f) (hn : n ∈ (Node.file f).visited) : n.relocate ρ = n := by
  have hfile := file_relocate hρ
  rw [h] at hfile
  have hf : f = f.relocate ρ := Except.ok.inj hfile
  have hroot : (Node.file f).relocate ρ = Node.file f := congrArg Node.file hf.symm
  exact Node.relocate_eq_of_mem_visited hroot hn

/-- A property of the positions at which the nodes of a tree start and end is one of all positions
in its file. -/
theorem ends_of_visited {P : UInt32 → Prop}
    (hP : ∀ c ∈ root.preorder, P (src.pos c.start) ∧ P (src.pos c.stop))
    (h : file src root = .ok f) (hn : n ∈ (Node.file f).visited) :
    P n.span.start ∧ P n.span.stop := by
  have hroot : P (src.pos root.start) := (hP root root.mem_preorder_self).1
  have hfits : (Relocation.confining P (src.pos root.start)).Fits src src root :=
    { source := rfl
      starts := fun c hc => if_pos (hP c hc).1
      stops := fun c hc => if_pos (hP c hc).2
      texts := fun _ _ => rfl
      noNames := fun _ _ => rfl
      noPaths := fun _ _ _ _ _ _ => rfl }
  have hspan : n.span.relocate (.confining P (src.pos root.start)) = n.span := by
    rw [← Node.span_relocate, relocate_eq_of_visited hfits h hn]
  exact ⟨Relocation.of_confining_pos hroot (congrArg Span.start hspan),
    Relocation.of_confining_pos hroot (congrArg Span.stop hspan)⟩

/-- A relation between the spans and the texts of the nodes of a tree is one between the span and
the text of each name, literal and comment in its file, if it also allows the empty name at the
start of a node. -/
theorem text_of_visited {Q : Span → String → Prop} {t : String}
    (hQ : ∀ c ∈ root.preorder, Q (src.span c) (src.text c) ∧ Q (Span.point (src.pos c.start)) "")
    (hpaths : root.HasPaths) (h : file src root = .ok f) (hn : n ∈ (Node.file f).visited)
    (ht : n.text? = some t) : Q n.span t := by
  have hfits : (Relocation.marking Q).Fits src src root :=
    { source := rfl
      starts := fun _ _ => rfl
      stops := fun _ _ => rfl
      texts := fun c hc => if_pos (hQ c hc).1
      noNames := fun c hc => if_pos (hQ c hc).2
      noPaths := fun c hc hkind s hs hnone => absurd hnone (hpaths c hc hkind s hs) }
  have htext := Node.text?_relocate (.marking Q) ht
  rw [relocate_eq_of_visited hfits h hn, ht] at htext
  exact Relocation.of_marking_text (Option.some.inj htext).symm

end Lowering

/-! ## Bounds -/

/-- Both ends of a span lie from one number to another. -/
def Span.LiesIn (lo hi : Nat) (s : Span) : Prop :=
  (lo ≤ s.start.toNat ∧ s.start.toNat ≤ hi) ∧ lo ≤ s.stop.toNat ∧ s.stop.toNat ≤ hi

namespace Lowering

variable {src : Placed} {root : Concrete} {f : File} {n : Node}

/-- The positions in a file are those of its source. -/
theorem span_liesIn (hroot : root.Within src.source.length)
    (hfit : src.base.toNat + src.source.length ≤ Positions.limit) (h : file src root = .ok f)
    (hn : n ∈ (Node.file f).visited) :
    n.span.LiesIn src.base.toNat (src.base.toNat + src.source.length) := by
  have hpos {byte : Nat} (hbyte : byte ≤ src.source.length) :
      src.base.toNat ≤ (src.pos byte).toNat ∧
        (src.pos byte).toNat ≤ src.base.toNat + src.source.length := by
    rw [Placed.toNat_pos (by omega)]
    omega
  refine ends_of_visited (P := fun p => src.base.toNat ≤ p.toNat ∧
    p.toNat ≤ src.base.toNat + src.source.length) ?_ h hn
  intro c hc
  obtain ⟨hle, hstop⟩ := hroot c hc
  exact ⟨hpos (Nat.le_trans hle hstop), hpos hstop⟩

end Lowering

end UniformTree
