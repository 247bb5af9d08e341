import UniformTree.Concrete.Fault
import UniformTree.Proofs.Concrete.Descent
import UniformTree.Proofs.Lowering.Depth.Stmt
/-!
# Unions of types and the limit on nesting

The limit bounds the height of the concrete tree. The uniform tree has at most four levels for each
of its levels and what unions add to that, so eight levels for each suffice as long as no union has
more than nine terms. They do not suffice in general: a union of any number of terms takes one level
of the concrete tree, and each of its terms one of the uniform tree.
-/

namespace UniformTree

namespace Node

variable {o : BuildOptions} {n : Node}

/-- An element of a sequence that is gathered in a list lies two levels below the owner. -/
theorem levels_lt_of_mem_listOf {α : Type} (role : ListRole) {f : α → Node} {xs : List α} {a : α}
    (hr : role ≠ .comments) (hf : (f a).isKept o = true) (ha : a ∈ xs)
    (h : ∀ c ∈ listOf role f xs, c ∈ n.children) : (f a).levels o + 1 < n.levels o := by
  cases xs with
  | nil => cases ha
  | cons x xs =>
    have hlist := levels_lt_of_mem (h _ (List.mem_singleton_self _)) (isKept_list (o := o) hr _ _)
    refine Nat.lt_of_le_of_lt (Nat.succ_le_of_lt (levels_lt_of_mem ?_ hf)) hlist
    exact List.mem_map_of_mem ha

end Node

namespace Concrete

/-! ## A family of trees -/

/-- More terms of a union, each after a bar. -/
def moreTerms (start : Nat) : Nat → List Concrete
  | 0 => []
  | m + 1 =>
    token "|" (start + 1) (start + 2) ::
      rule "type_identifier" none (start + 3) (start + 4) [] :: moreTerms (start + 4) m

/-- Unions of one term and some more, one within the other. -/
def unions (more : Nat) : Nat → Concrete
  | 0 => rule "type_identifier" none 29 30 []
  | k + 1 =>
    rule "type_elem" none 29 (30 + 4 * (more * (k + 1)))
      (unions more k :: moreTerms (30 + 4 * (more * k)) more)

/-- An interface with one element. -/
def interfaceOf (u : Concrete) : Concrete :=
  rule "interface_type" (some "type") 18 (u.stop + 2)
    [token "interface" 18 27, token "\x7b" 27 28, u, token "\x7d" (u.stop + 1) (u.stop + 2)]

/-- A type whose definition is an interface. -/
def typeSpecOf (u : Concrete) : Concrete :=
  rule "type_spec" none 16 (u.stop + 2)
    [rule "type_identifier" (some "name") 16 17 [], interfaceOf u]

/-- The declaration of the type. -/
def typeDeclOf (u : Concrete) : Concrete :=
  rule "type_declaration" none 11 (u.stop + 2) [token "type" 11 15, typeSpecOf u]

/-- A file with this declaration and nothing else. -/
def interfaceFile (u : Concrete) : Concrete :=
  rule "source_file" none 0 (u.stop + 3)
    [rule "package_clause" none 0 9 [token "package" 0 7, rule "package_identifier" none 8 9 []],
      typeDeclOf u]

/-- The text of such a file whose element is a union of names. -/
def unionText (more : Nat) : String :=
  "package p\n\ntype T interface\x7b A" ++ String.join (List.replicate more " | A") ++ " \x7d\n"

end Concrete

namespace Lowering

open Concrete Lower

variable {o : BuildOptions} {src : Placed} {below : Below} {n c : Concrete} {k : Nat}

/-! ## How deep unions go at least -/

/-- Each expression that is joined from the right adds a level. -/
theorem le_levels_joined {op : String} {cover : Expr → Expr → Span} (ys : List Expr) :
    ∀ {x : Expr} {k : Nat}, k ≤ (Node.expr x).levels o → k + ys.length ≤
      (Node.expr (ys.foldl (fun x y => .binary (cover x y) x op y) x)).levels o := by
  induction ys with
  | nil => intro x k hx; exact hx
  | cons y ys ih =>
    intro x k hx
    have hlt : (Node.expr x).levels o < (Node.expr (.binary (cover x y) x op y)).levels o :=
      Node.levels_lt_of_mem List.mem_cons_self (Node.isKept_expr x)
    have := ih (Nat.succ_le_of_lt (Nat.lt_of_le_of_lt hx hlt))
    rw [List.foldl_cons, List.length_cons]
    omega

theorem expr_union (hn : ExprForm.ofKind n.kind = .union) :
    Lowering.expr src below n = union src below n := by
  unfold Lowering.expr
  rw [hn]

theorem le_levels_union (hc : n.parts.head? = some c)
    (h : (below.expr c).Yields fun x => k ≤ (Node.expr x).levels o) :
    (union src below n).Yields fun x => k + (n.parts.length - 1) ≤ (Node.expr x).levels o := by
  obtain ⟨cs, hcs⟩ : ∃ cs, n.parts = c :: cs := by
    cases hp : n.parts with
    | nil => rw [hp] at hc; cases hc
    | cons d ds => rw [hp] at hc; cases hc; exact ⟨ds, rfl⟩
  unfold union exprEach
  rw [hcs, List.mapM_cons]
  refine Yields.bind (P := fun es => ∃ first rest, es = first :: rest ∧
    rest.length = cs.length ∧ k ≤ (Node.expr first).levels o) ?_ fun es hes => ?_
  · refine h.bind fun first hfirst => ?_
    refine (Yields.mapM fun d _ => Yields.trivial (below.expr d)).bind fun rest hrest => .pure ?_
    exact ⟨first, rest, rfl, hrest.1, hfirst⟩
  · obtain ⟨first, rest, rfl, hlen, hfirst⟩ := hes
    refine .pure ?_
    rw [List.length_cons, Nat.add_sub_cancel, ← hlen]
    exact le_levels_joined rest hfirst

/-! ## What stands over a type in an interface -/

theorem lt_levels_element (hm : isMethod n = false)
    (h : (below.expr n).Yields fun x => k ≤ (Node.expr x).levels o) :
    (element src below n).Yields fun fd => k < (Node.field fd).levels o := by
  refine (Yields.trivial _).bind fun doc _ => ?_
  refine Yields.bind (P := fun r => k ≤ (Node.expr r.2).levels o) ?_ fun r hr =>
    (Yields.trivial _).bind fun line _ => .pure ?_
  · rw [elementType, hm]
    exact h.bind fun x hx => .pure hx
  · refine Nat.lt_of_le_of_lt hr (Node.levels_lt_of_mem ?_ (Node.isKept_expr r.2))
    simp [Node.children]

theorem lt_levels_interface (hn : ExprForm.ofKind n.kind = .interface) (hc : c ∈ n.parts)
    (hm : isMethod c = false) (h : (below.expr c).Yields fun x => k ≤ (Node.expr x).levels o) :
    (Lowering.expr src below n).Yields fun x => k + 2 < (Node.expr x).levels o := by
  unfold Lowering.expr
  rw [hn]
  refine Yields.bind (P := fun l => k + 1 < (Node.fieldList l).levels o) ?_ fun l hl => .pure ?_
  · refine (Yields.exists_mapM hc (lt_levels_element hm h)).bind fun list hlist => .pure ?_
    obtain ⟨fd, hfd, hk⟩ := hlist
    refine Nat.lt_of_lt_of_le (Nat.succ_lt_succ hk) (Nat.succ_le_of_lt ?_)
    exact Node.levels_lt_of_mem (List.mem_map_of_mem hfd) (Node.isKept_field fd)
  · refine Nat.lt_of_lt_of_le (Nat.succ_lt_succ hl) (Nat.succ_le_of_lt ?_)
    exact Node.levels_lt_of_mem List.mem_cons_self (Node.isKept_fieldList l)

theorem lt_levels_typeSpec (hc : n.child? "type" = some c)
    (h : (below.expr c).Yields fun x => k ≤ (Node.expr x).levels o) :
    (typeSpec src below n).Yields fun s => k < (Node.spec s).levels o := by
  refine (Yields.trivial _).bind fun doc _ => ?_
  refine (Yields.trivial _).bind fun typeParams _ => ?_
  refine Yields.bind (P := fun x => k ≤ (Node.expr x).levels o) ?_ fun x hx => ?_
  · rw [exprIn, hc]
    exact h
  refine (Yields.trivial _).bind fun line _ => .pure ?_
  refine Nat.lt_of_le_of_lt hx (Node.levels_lt_of_mem ?_ (Node.isKept_expr x))
  simp [Node.children, Node.ofSpec]

theorem lt_levels_genDecl {tok : DeclToken} (hc : c ∈ specNodes n)
    (h : (Lowering.spec src below tok c).Yields fun s => k < (Node.spec s).levels o) :
    (genDecl src below tok n).Yields fun d => k + 2 < (Node.decl d).levels o := by
  refine (Yields.trivial _).bind fun doc _ => ?_
  refine (Yields.exists_mapM hc h).bind fun specs hspecs => .pure ?_
  obtain ⟨s, hs, hk⟩ := hspecs
  have := Node.levels_lt_of_mem_listOf .specs (o := o)
    (n := .decl (.gen (src.span n) doc tok specs)) (by decide) (Node.isKept_spec s) hs
    fun c hc => List.mem_append_right _ hc
  omega

theorem lt_levels_file {clause name : Concrete} {root : Concrete}
    (hc : c ∈ root.parts.filter fun n => !isPackageClause n)
    (h : (Lowering.decl src (upTo src root.height) c).Yields fun d => k < (Node.decl d).levels o) :
    (fileAt src root clause name).Yields fun f => k + 2 < (Node.file f).levels o := by
  refine (Yields.trivial _).bind fun doc _ => ?_
  refine (Yields.exists_mapM hc h).bind fun decls hdecls => ?_
  refine (Yields.trivial _).bind fun pool _ => .pure ?_
  obtain ⟨d, hd, hk⟩ := hdecls
  have := Node.levels_lt_of_mem_listOf .decls (o := o)
    (n := .file ⟨src.span root, doc, ident src name, decls, pool.remaining⟩) (by decide)
    (Node.isKept_decl d) hd
    fun c hc => List.mem_append_right _ (List.mem_cons_of_mem _ (List.mem_append_left _ hc))
  omega

/-! ## The family -/

theorem parts_moreTerms (start m : Nat) :
    ((moreTerms start m).filter isPart).length = m := by
  induction m generalizing start with
  | zero => rfl
  | succ m ih =>
    have htoken : (token "|" (start + 1) (start + 2)).isPart = false := rfl
    have hterm : (rule "type_identifier" none (start + 3) (start + 4) []).isPart = true := by
      simp [rule, isPart, isComment]
    rw [moreTerms, List.filter_cons, htoken, List.filter_cons, hterm]
    simp [ih]

theorem isPart_unions (more k : Nat) : (unions more k).isPart = true := by
  cases k <;> simp [unions, rule, isPart, isComment]

theorem parts_unions (more k : Nat) : (unions more (k + 1)).parts =
    unions more k :: (moreTerms (30 + 4 * (more * k)) more).filter isPart := by
  have hchildren : (unions more (k + 1)).children =
    unions more k :: moreTerms (30 + 4 * (more * k)) more := rfl
  rw [parts, hchildren, List.filter_cons, if_pos (isPart_unions more k)]

theorem height_moreTerms (start m : Nat) : heightAll (moreTerms start m) ≤ 1 := by
  induction m generalizing start with
  | zero => simp [moreTerms, heightAll]
  | succ m ih =>
    have := ih (start + 4)
    simp only [moreTerms, heightAll, token, rule, height]
    omega

theorem height_unions (more k : Nat) : (unions more k).height = k + 1 := by
  induction k with
  | zero => rfl
  | succ k ih =>
    have := height_moreTerms (30 + 4 * (more * k)) more
    simp only [unions, rule, height, heightAll, ih]
    omega

theorem hasFault_moreTerms (start m : Nat) : hasFaultAll (moreTerms start m) = false := by
  induction m generalizing start with
  | zero => rfl
  | succ m ih => simp [moreTerms, hasFaultAll, token, rule, hasFault, ih]

theorem hasFault_unions (more k : Nat) : (unions more k).hasFault = false := by
  induction k with
  | zero => rfl
  | succ k ih => simp [unions, rule, hasFault, hasFaultAll, ih, hasFault_moreTerms]

/-- Each of the unions adds a level for each of its terms after the first. -/
theorem le_levels_unions (more k : Nat) {levels : Nat} (h : k < levels) :
    ((upTo src levels).expr (unions more k)).Yields fun x =>
      more * k + 1 ≤ (Node.expr x).levels o := by
  induction k generalizing levels with
  | zero =>
    cases levels with
    | zero => omega
    | succ levels => exact .pure (by rw [Node.levels_ident]; omega)
  | succ k ih =>
    cases levels with
    | zero => omega
    | succ levels =>
      have hform : ExprForm.ofKind (unions more (k + 1)).kind = .union := rfl
      have hexpr : (upTo src (levels + 1)).expr (unions more (k + 1)) =
          union src (upTo src levels) (unions more (k + 1)) := expr_union hform
      have hhead : (unions more (k + 1)).parts.head? = some (unions more k) := by
        rw [parts_unions]
        rfl
      have hunion : (union src (upTo src levels) (unions more (k + 1))).Yields fun x =>
          more * k + 1 + ((unions more (k + 1)).parts.length - 1) ≤ (Node.expr x).levels o :=
        le_levels_union hhead (ih (Nat.lt_of_succ_lt_succ h))
      rw [parts_unions, List.length_cons, parts_moreTerms] at hunion
      rw [hexpr, Nat.mul_succ]
      exact hunion.imp fun x hx => by omega

theorem unionsWithin_moreTerms (start m terms : Nat) :
    ∀ c ∈ moreTerms start m, c.UnionsWithin terms := by
  induction m generalizing start with
  | zero => simp [moreTerms]
  | succ m ih =>
    have hleaf (c : Concrete) (hu : c.isUnion = false) (hc : c.children = []) :
        c.UnionsWithin terms := unionsWithin_iff.2 (by simp [hu, hc])
    refine List.forall_mem_cons.2 ⟨hleaf _ rfl rfl, List.forall_mem_cons.2 ⟨hleaf _ rfl rfl, ?_⟩⟩
    exact ih (start + 4)

theorem unionsWithin_unions (more k : Nat) : (unions more k).UnionsWithin (more + 1) := by
  induction k with
  | zero =>
    have hu : (unions more 0).isUnion = false := rfl
    have hc : (unions more 0).children = [] := rfl
    exact unionsWithin_iff.2 (by simp [hu, hc])
  | succ k ih =>
    refine unionsWithin_iff.2 ⟨fun _ => ?_, List.forall_mem_cons.2 ⟨ih, ?_⟩⟩
    · exact Nat.le_of_eq (by rw [parts_unions, List.length_cons, parts_moreTerms])
    · exact unionsWithin_moreTerms _ _ _

/-! ## The declaration around it -/

section InterfaceFile

variable (u : Concrete)

theorem height_interfaceFile : (interfaceFile u).height = u.height + 4 := by
  have : 0 < u.height := by rw [height_eq]; omega
  simp only [interfaceFile, typeDeclOf, typeSpecOf, interfaceOf, rule, token, height, heightAll]
  omega

theorem hasFault_interfaceFile : (interfaceFile u).hasFault = u.hasFault := by
  simp [interfaceFile, typeDeclOf, typeSpecOf, interfaceOf, rule, token, hasFault, hasFaultAll]

theorem unionsWithin_interfaceFile {terms : Nat} (h : u.UnionsWithin terms) :
    (interfaceFile u).UnionsWithin terms := by
  have hrule (c : Concrete) (hc : c.isUnion = false)
      (hcs : ∀ d ∈ c.children, d.UnionsWithin terms) : c.UnionsWithin terms :=
    unionsWithin_iff.2 ⟨by simp [hc], hcs⟩
  have hleaf (c : Concrete) (hu : c.isUnion = false) (hc : c.children = []) :
      c.UnionsWithin terms := hrule c hu (by simp [hc])
  have hinterface : (interfaceOf u).UnionsWithin terms := by
    refine hrule _ rfl (List.forall_mem_cons.2 ⟨hleaf _ rfl rfl, List.forall_mem_cons.2 ⟨?_, ?_⟩⟩)
    · exact hleaf _ rfl rfl
    · exact List.forall_mem_cons.2 ⟨h, List.forall_mem_singleton.2 (hleaf _ rfl rfl)⟩
  have hspec : (typeSpecOf u).UnionsWithin terms :=
    hrule _ rfl (List.forall_mem_cons.2 ⟨hleaf _ rfl rfl, List.forall_mem_singleton.2 hinterface⟩)
  have hdecl : (typeDeclOf u).UnionsWithin terms :=
    hrule _ rfl (List.forall_mem_cons.2 ⟨hleaf _ rfl rfl, List.forall_mem_singleton.2 hspec⟩)
  refine hrule _ rfl (List.forall_mem_cons.2 ⟨hrule _ rfl ?_, List.forall_mem_singleton.2 hdecl⟩)
  exact List.forall_mem_cons.2 ⟨hleaf _ rfl rfl, List.forall_mem_singleton.2 (hleaf _ rfl rfl)⟩

/-- Eight levels stand over the element of the interface. -/
theorem exists_interfaceFile {k : Nat} (hp : u.isPart = true) (hm : isMethod u = false)
    (h : ((upTo src (u.height + 3)).expr u).Yields fun x => k ≤ (Node.expr x).levels o) :
    ∃ f, file src (interfaceFile u) = .ok f ∧ k + 8 ≤ (Node.file f).levels o := by
  have hu : u ∈ (interfaceOf u).parts :=
    List.mem_filter.2 ⟨by simp [interfaceOf, rule], hp⟩
  have hinterface : ((upTo src (u.height + 4)).expr (interfaceOf u)).Yields fun x =>
      k + 2 < (Node.expr x).levels o := lt_levels_interface rfl hu hm h
  have hspec : typeSpecOf u ∈ specNodes (typeDeclOf u) := List.mem_singleton_self _
  have htype : (typeSpecOf u).child? "type" = some (interfaceOf u) := rfl
  have hdecl : (Lowering.decl src (upTo src (u.height + 4)) (typeDeclOf u)).Yields fun d =>
      k + 5 < (Node.decl d).levels o :=
    lt_levels_genDecl hspec (lt_levels_typeSpec htype hinterface)
  have hpart : typeDeclOf u ∈ (interfaceFile u).parts.filter fun n => !isPackageClause n :=
    List.mem_singleton_self _
  refine ⟨_, rfl, ?_⟩
  refine lt_levels_file hpart ?_ _
  rw [height_interfaceFile]
  exact hdecl

end InterfaceFile

/-- A file with unions of some terms within each other is accepted with a limit that does not depend
on the number of terms, and has at least one level for each term after the first of each union. -/
theorem exists_unions (src : Placed) (more k : Nat) (o : BuildOptions) :
    (interfaceFile (unions more k)).tooDeep? (k + 4) = none ∧
    (interfaceFile (unions more k)).hasFault = false ∧
    (interfaceFile (unions more k)).UnionsWithin (more + 1) ∧
    ∃ f, file src (interfaceFile (unions more k)) = .ok f ∧
      more * k + 9 ≤ ((Node.file f).normalize o).depth := by
  have hm : isMethod (unions more k) = false := by cases k <;> rfl
  have hle : ((upTo src ((unions more k).height + 3)).expr (unions more k)).Yields fun x =>
      more * k + 1 ≤ (Node.expr x).levels o :=
    le_levels_unions more k (by rw [height_unions]; omega)
  obtain ⟨f, hf, hlevels⟩ := exists_interfaceFile _ (isPart_unions more k) hm hle
  refine ⟨?_, ?_, unionsWithin_interfaceFile _ (unionsWithin_unions more k), f, hf, ?_⟩
  · exact tooDeep?_eq_none.2 (Nat.le_of_eq (by rw [height_interfaceFile, height_unions]))
  · rw [hasFault_interfaceFile, hasFault_unions]
  · rw [Node.depth_normalize]
    omega

/-! ## The bound and its limits -/

theorem depth_le_of_tooDeep?_eq_none {w limit : Nat} (hw : 4 ≤ w) {root : Concrete} {f : File}
    (hroot : root.tooDeep? limit = none) (hf : file src root = .ok f) (o : BuildOptions) :
    ((Node.file f).normalize o).depth ≤ w * (limit + 1) + root.surplus w :=
  calc ((Node.file f).normalize o).depth = (Node.file f).levels o := Node.depth_normalize _ o
    _ ≤ root.reach w := levels_file hf o hw
    _ = w * root.height + root.surplus w := rfl
    _ ≤ w * (limit + 1) + root.surplus w :=
      Nat.add_le_add_right (Nat.mul_le_mul_left w (tooDeep?_eq_none.1 hroot)) _

/-- If no union has more than a number of terms, a level of the concrete tree becomes at most four
levels of the uniform tree, or one level for each term after the first. So eight levels suffice for
each level that the limit allows if the unions have at most nine terms, and not if they may have
more. -/
theorem depth_normalize_le (terms : Nat) :
    (∀ (src : Placed) (root : Concrete) (limit : Nat) (o : BuildOptions) (f : File),
      root.UnionsWithin terms → root.tooDeep? limit = none → file src root = .ok f →
        ((Node.file f).normalize o).depth ≤ max 4 (terms - 1) * (limit + 1)) ∧
    ((∀ (src : Placed) (root : Concrete) (limit : Nat) (o : BuildOptions) (f : File),
      root.hasFault = false → root.UnionsWithin terms → root.tooDeep? limit = none →
        file src root = .ok f → ((Node.file f).normalize o).depth ≤ 8 * (limit + 1)) ↔
      terms ≤ 9) := by
  have hbound {src : Placed} {root : Concrete} {limit w : Nat} {o : BuildOptions} {f : File}
      (hw : 4 ≤ w) (hterms : terms ≤ w + 1) (hunions : root.UnionsWithin terms)
      (hroot : root.tooDeep? limit = none) (hf : file src root = .ok f) :
      ((Node.file f).normalize o).depth ≤ w * (limit + 1) := by
    have hzero : root.surplus w = 0 :=
      surplus_eq_zero fun c hc hu => Nat.le_trans (hunions c hc hu) hterms
    have := depth_le_of_tooDeep?_eq_none hw hroot hf o
    rwa [hzero] at this
  refine ⟨fun src root limit o f => hbound (by omega) (by omega), fun h => ?_,
    fun hterms src root limit o f _ => hbound (by decide) hterms⟩
  refine Nat.le_of_not_lt fun hlt => ?_
  obtain ⟨hroot, hfault, hunions, f, hf, hdepth⟩ := exists_unions default (terms - 1) 32 ⟨true⟩
  rw [Nat.sub_add_cancel (by omega)] at hunions
  have := h default _ _ ⟨true⟩ f hfault hunions hroot hf
  omega

/-- For a union of three terms the bound holds. -/
theorem depth_three_terms_le :
    ∃ f, file default (interfaceFile (unions 2 1)) = .ok f ∧
      ((Node.file f).normalize ⟨true⟩).depth ≤ 8 * (5 + 1) := by
  obtain ⟨hroot, hfault, hunions, f, hf, -⟩ := exists_unions default 2 1 ⟨true⟩
  refine ⟨f, hf, ?_⟩
  exact (depth_normalize_le 3).2.2 (by decide) default _ 5 ⟨true⟩ f hfault hunions hroot hf

/-- Without a bound on the terms it fails: a union of 64 names lies five levels below the root and
has 72 levels in the uniform tree, which is more than eight for each of the six. -/
theorem not_depth_normalize_le :
    ¬ ∀ (src : Placed) (root : Concrete) (limit : Nat) (o : BuildOptions) (f : File),
      root.hasFault = false → root.tooDeep? limit = none → file src root = .ok f →
        ((Node.file f).normalize o).depth ≤ 8 * (limit + 1) := by
  intro h
  let src : Placed := ⟨.ofString (unionText 63), 1⟩
  obtain ⟨hroot, hfault, -, f, hf, hdepth⟩ := exists_unions src 63 1 ⟨true⟩
  have := h src _ _ ⟨true⟩ f hfault hroot hf
  omega

end Lowering

end UniformTree
