import UniformTree.Proofs.Relocation.Origins
import UniformTree.Proofs.Tree.Nodes
/-!
# Labels of names, literals and comments

In the uniform tree of a lowered file, a name, a literal and a comment are labelled with the text
that the source has over their span.
-/

namespace UniformTree

theorem Source.text_self (source : Source) (k : Nat) : source.text k k = "" := by
  have hnil : source.slice k k = [] := by
    refine List.eq_nil_of_length_eq_zero ?_
    rw [slice, List.length_drop, List.length_take]
    omega
  rw [text, hnil]
  rfl

/-- A text is what a source has over a span, and the span lies in the source. -/
structure Placed.Holds (src : Placed) (s : Span) (t : String) : Prop where
  start_le : src.base.toNat ≤ s.start.toNat
  le_stop : s.start.toNat ≤ s.stop.toNat
  stop_le : s.stop.toNat ≤ src.base.toNat + src.source.length
  text_eq : t = src.source.text (s.start.toNat - src.base.toNat) (s.stop.toNat - src.base.toNat)

/-- A source holds a range of its bytes. -/
theorem Placed.holds_slice {src : Placed} {i j : Nat} (hij : i ≤ j) (hj : j ≤ src.source.length)
    (hfit : src.base.toNat + src.source.length ≤ Positions.limit) :
    src.Holds ⟨src.pos i, src.pos j⟩ (src.source.text i j) := by
  have hi : (src.pos i).toNat = src.base.toNat + i := toNat_pos (by omega)
  have hj' : (src.pos j).toNat = src.base.toNat + j := toNat_pos (by omega)
  constructor
  · simp only [hi]; omega
  · simp only [hi, hj']; omega
  · simp only [hj']; omega
  · simp only [hi, hj', Nat.add_sub_cancel_left]

/-- The kinds whose labels are read from the source. -/
def Kind.isRead (k : Kind) : Bool := k == .ident || k == .basicLit || k == .comment

/-- A node of such a kind is labelled with its text. -/
theorem Node.label_eq_text? {n : Node} (h : n.kind.isRead = true) :
    ∃ t, n.text? = some t ∧ n.label = some t := by
  cases n with
  | comment c => exact ⟨c.text, rfl, rfl⟩
  | expr e =>
    cases e with
    | ident id => exact ⟨id.name, rfl, rfl⟩
    | basicLit lit => exact ⟨lit.value, rfl, rfl⟩
    | _ => cases h
  | stmt s => cases s <;> cases h
  | spec s => cases s <;> cases h
  | decl d => cases d <;> cases h
  | _ => cases h

namespace Lowering

open Concrete

variable {src : Placed} {root : Concrete} {f : File}

/-- Every name, literal and comment of a file holds the text of its span. -/
theorem holds_of_visited {n : Node} {t : String} (hroot : root.Within src.source.length)
    (hpaths : root.HasPaths) (hfit : src.base.toNat + src.source.length ≤ Positions.limit)
    (h : file src root = .ok f) (hn : n ∈ (Node.file f).visited) (ht : n.text? = some t) :
    src.Holds n.span t := by
  refine text_of_visited ?_ hpaths h hn ht
  intro c hc
  obtain ⟨hle, hstop⟩ := hroot c hc
  have hempty := Placed.holds_slice (Nat.le_refl c.start) (Nat.le_trans hle hstop) hfit
  rw [Source.text_self] at hempty
  exact ⟨Placed.holds_slice hle hstop hfit, hempty⟩

/-- Labels are faithful to their spans. Take any tree over a source in which nodes do not end before
they start or after the source, and in which the specs of imports have paths. In the uniform tree of
the file that it describes, whether comments are kept or not, the label of each name, literal and
comment is the text of the bytes that its span says. -/
theorem label_eq_text (hroot : root.Within src.source.length) (hpaths : root.HasPaths)
    (hfit : src.base.toNat + src.source.length ≤ Positions.limit) (h : file src root = .ok f)
    (o : BuildOptions) {t : Tree} (ht : t ∈ ((Node.file f).normalize o).nodes)
    (hkind : t.kind = .ident ∨ t.kind = .basicLit ∨ t.kind = .comment) :
    src.base.toNat ≤ t.span.start.toNat ∧ t.span.start.toNat ≤ t.span.stop.toNat ∧
    t.span.stop.toNat ≤ src.base.toNat + src.source.length ∧
    t.label = some (src.source.text (t.span.start.toNat - src.base.toNat)
      (t.span.stop.toNat - src.base.toNat)) := by
  rw [Node.normalize_eq] at ht
  obtain ⟨n, hn, rfl⟩ := Node.exists_visited ht
  rw [Node.kind_tree] at hkind
  have hread : n.kind.isRead = true := by
    rcases hkind with hk | hk | hk <;> rw [hk] <;> rfl
  obtain ⟨text, htext, hlabel⟩ := Node.label_eq_text? hread
  have hholds := holds_of_visited hroot hpaths hfit h hn htext
  rw [Node.span_tree, Node.label_tree, hlabel]
  exact ⟨hholds.start_le, hholds.le_stop, hholds.stop_le, congrArg some hholds.text_eq⟩

/-- A file in which the name of a variable is no character and a type has no name. -/
def patchedFile : Concrete :=
  rule "source_file" none 0 40 [
    rule "package_clause" none 0 9 [
      token "package" 0 7, rule "package_identifier" none 8 9 []],
    rule "import_declaration" none 10 20 [
      token "import" 10 16,
      rule "import_spec" none 17 20 [
        rule "interpreted_string_literal" (some "path") 17 20 []]],
    rule "var_declaration" none 21 30 [
      token "var" 21 24,
      rule "var_spec" none 25 30 [
        rule "identifier" (some "name") 25 26 [],
        rule "type_identifier" (some "type") 27 30 []]],
    rule "type_declaration" none 31 39 [
      token "type" 31 35,
      rule "type_spec" none 36 39 [
        rule "type_identifier" (some "type") 36 39 []]]]

/-- The text of that file. -/
def patchedSource : Placed where
  source := ⟨(Source.ofString "package p\nimport \"q\"\nvar ").bytes ++ [0xFF] ++
    (Source.ofString " int\ntype int\n").bytes⟩
  base := 100

/-- Its names and literals are labelled with what the source holds, and the name that is missing
with the empty text at the start of its spec. -/
theorem labels_patchedFile : ∃ f, Lowering.file patchedSource patchedFile = .ok f ∧
    (∀ t ∈ ((Node.file f).normalize ⟨true⟩).nodes, t.kind = .ident →
      t.label = some (patchedSource.source.text (t.span.start.toNat - 100)
        (t.span.stop.toNat - 100))) ∧
    (((Node.file f).tree ⟨true⟩).nodes.filter (·.kind.isRead)).map (fun t => (t.span, t.label)) =
      [(⟨108, 109⟩, some "p"), (⟨117, 120⟩, some "\"q\""), (⟨125, 126⟩, some "\uFFFD"),
        (⟨127, 130⟩, some "int"), (⟨136, 136⟩, some ""), (⟨136, 139⟩, some "int")] := by
  have hroot : patchedFile.Within patchedSource.source.length := by decide +kernel
  have hpaths : patchedFile.HasPaths := by decide +kernel
  refine ⟨_, rfl, ?_, ?_⟩
  · intro t ht hkind
    exact (label_eq_text hroot hpaths (by decide +kernel) rfl ⟨true⟩ ht (.inl hkind)).2.2.2
  · decide +kernel

end Lowering

end UniformTree
