import UniformTree.Proofs.Json.Members
import UniformTree.Proofs.Tree.Queries
import UniformTree.Tree.Json
/-!
# Trees through JSON

A tree that was written is read back as far as the brackets allow: each level of a tree takes two of
them, and the span of a node on the lowest level takes one more, so 63 levels fit under the limit.
No text is read as a tree of more levels.
-/

namespace UniformTree

namespace Tree

open Json

/-! ## The written members -/

theorem skipSpace_curly (s : List Char) : skipSpace ('\x7b' :: s) = '\x7b' :: s := rfl

theorem readKind_quote (depth : Nat) (k : Kind) (s : List Char) :
    readKind depth (quote k.name.toList ++ s) = .ok (k, s) := by
  rw [quote_append]
  unfold readKind
  rw [skipSpace_quote]
  simp [string_escapes, ok_bind, kindNamed, String.ofList_toList, Kind.ofName?_name]

theorem readLabel_quote (l : String) (s : List Char) :
    readLabel (quote l.toList ++ s) = .ok (some l, s) := by
  have h : readString (quote l.toList ++ s) = .ok (l.toList, s) := by
    rw [quote_append]
    exact string_escapes _ _
  rw [quote_append] at h ⊢
  unfold readLabel
  rw [skipSpace_quote]
  simp [h, ok_bind, String.ofList_toList, pure, Except.pure]

theorem colon_cons (s : List Char) : colon (':' :: s) = .ok s := rfl

/-- A value that has not come before is taken. -/
theorem once_none {α : Type} {value : Reader α} {x : α} {s r : List Char}
    (h : value s = .ok (x, r)) : once none value (':' :: s) = .ok (some x, r) := by
  simp only [once, colon_cons, ok_bind, h]
  rfl

theorem once_none_error {α : Type} {value : Reader α} {f : Refusal} {s : List Char}
    (h : value s = .error f) : once none value (':' :: s) = .error f := by
  simp only [once, colon_cons, ok_bind, h]
  rfl

/-! ## Spans -/

theorem spanText_append (x : Span) (s : List Char) :
    spanText x ++ s = '\x7b' :: (quote "start".toList ++ ':' :: (Text.digits x.start.toNat ++
      ',' :: (quote "end".toList ++ ':' :: (Text.digits x.stop.toNat ++ '\x7d' :: s)))) := by
  simp only [spanText, memberName, List.cons_append, List.append_assoc, List.nil_append]

theorem length_digits_append (n : Nat) (s : List Char) :
    s.length ≤ (Text.digits n ++ s).length := by
  rw [List.length_append]
  omega

theorem readSpan_spanText {depth : Nat} (hd : 1 < depth) (x : Span) (s : List Char) :
    readSpan depth (spanText x ++ s) = .ok (x, s) := by
  have hstart (r : List Char) : spanMember "start".toList (none, none)
      (':' :: (Text.digits x.start.toNat ++ ',' :: r)) = .ok ((some x.start, none), ',' :: r) := by
    rw [spanMember, if_pos rfl, once_none (readUInt32_digits x.start (.inl rfl) r)]
    rfl
  have hstop (r : List Char) : spanMember "end".toList (some x.start, none)
      (':' :: (Text.digits x.stop.toNat ++ '\x7d' :: r)) =
        .ok ((some x.start, some x.stop), '\x7d' :: r) := by
    rw [spanMember, if_neg (by decide), if_pos rfl,
      once_none (readUInt32_digits x.stop (.inr rfl) r)]
    rfl
  have hm : members spanMember true (none, none) (quote "start".toList ++ ':' ::
      (Text.digits x.start.toNat ++ ',' :: (quote "end".toList ++ ':' ::
        (Text.digits x.stop.toNat ++ '\x7d' :: s)))) = .ok ((some x.start, some x.stop), s) := by
    rw [members_first (hstart _) (length_digits_append _ _),
      members_next (hstop s) (length_digits_append _ _), members_close]
  rw [spanText_append, readSpan, skipSpace_curly]
  simp only
  rw [if_neg (by omega), hm]
  rfl

/-- There is no room for a span where no more than one bracket may be opened. -/
theorem readSpan_spanText_error {depth : Nat} (hd : depth ≤ 1) (x : Span) (s : List Char) :
    readSpan depth (spanText x ++ s) = .error .malformed := by
  rw [spanText_append, readSpan, skipSpace_curly]
  simp only
  rw [if_pos hd]

/-! ## Members of a node -/

section Members

variable {depth : Nat} {child : Reader Tree}

theorem treeMember_kind (k : Kind) (s : List Char) :
    treeMember depth child "kind".toList Draft.empty (':' :: (quote k.name.toList ++ s)) =
      .ok (⟨some k, none, none, none⟩, s) := by
  have h : once Draft.empty.kind (readKind depth) (':' :: (quote k.name.toList ++ s)) = _ :=
    once_none (readKind_quote depth k s)
  rw [treeMember, if_pos rfl, h]
  rfl

theorem treeMember_span (hd : 1 < depth) (k : Kind) (x : Span) (s : List Char) :
    treeMember depth child "span".toList ⟨some k, none, none, none⟩ (':' :: (spanText x ++ s)) =
      .ok (⟨some k, some x, none, none⟩, s) := by
  rw [treeMember, if_neg (by decide), if_pos rfl, once_none (readSpan_spanText hd x s)]
  rfl

theorem treeMember_span_error (hd : depth ≤ 1) (k : Kind) (x : Span) (s : List Char) :
    treeMember depth child "span".toList ⟨some k, none, none, none⟩ (':' :: (spanText x ++ s)) =
      .error .malformed := by
  rw [treeMember, if_neg (by decide), if_pos rfl, once_none_error (readSpan_spanText_error hd x s)]
  rfl

theorem treeMember_label (k : Kind) (x : Span) (l : String) (s : List Char) :
    treeMember depth child "label".toList ⟨some k, some x, none, none⟩
      (':' :: (quote l.toList ++ s)) = .ok (⟨some k, some x, some (some l), none⟩, s) := by
  rw [treeMember, if_neg (by decide), if_neg (by decide), if_pos rfl,
    once_none (readLabel_quote l s)]
  rfl

theorem treeMember_children (k : Kind) (x : Span) (l : Option (Option String)) {cs : List Tree}
    {s r : List Char} (h : readChildren depth child s = .ok (cs, r)) :
    treeMember depth child "children".toList ⟨some k, some x, l, none⟩ (':' :: s) =
      .ok (⟨some k, some x, l, some cs⟩, r) := by
  rw [treeMember, if_neg (by decide), if_neg (by decide), if_neg (by decide), if_pos rfl,
    once_none h]
  rfl

theorem treeMember_children_error (k : Kind) (x : Span) (l : Option (Option String)) {f : Refusal}
    {s : List Char} (h : readChildren depth child s = .error f) :
    treeMember depth child "children".toList ⟨some k, some x, l, none⟩ (':' :: s) = .error f := by
  rw [treeMember, if_neg (by decide), if_neg (by decide), if_neg (by decide), if_pos rfl,
    once_none_error h]
  rfl

/-- The text of a node after its opening brace, up to its children. -/
def headText (k : Kind) (x : Span) (l : Option String) (s : List Char) : List Char :=
  quote "kind".toList ++ ':' :: (quote k.name.toList ++ ',' :: (quote "span".toList ++ ':' ::
    (spanText x ++ (labelText l ++ s))))

theorem text_append (k : Kind) (x : Span) (l : Option String) (cs : List Tree) (s : List Char) :
    text ⟨k, x, l, cs⟩ ++ s = '\x7b' :: headText k x l (childrenText cs ++ '\x7d' :: s) := by
  simp only [text, headText, memberName, List.cons_append, List.append_assoc, List.nil_append]

/-- Up to the children every node is read, if there is room for its span. -/
theorem members_headText (hd : 1 < depth) (k : Kind) (x : Span) (l : Option String)
    (s : List Char) :
    members (treeMember depth child) true Draft.empty (headText k x l s) =
      members (treeMember depth child) false ⟨some k, some x, l.map some, none⟩ s := by
  rw [headText, members_first (treeMember_kind k _) (by simp),
    members_next (treeMember_span hd k x _) (by simp)]
  cases l with
  | none => rfl
  | some l =>
    simp only [labelText, memberName, List.cons_append, List.append_assoc, List.nil_append]
    exact members_next (treeMember_label k x l s) (by simp)

theorem members_headText_error (hd : depth ≤ 1) (k : Kind) (x : Span) (l : Option String)
    (s : List Char) :
    members (treeMember depth child) true Draft.empty (headText k x l s) = .error .malformed := by
  rw [headText, members_first (treeMember_kind k _) (by simp)]
  exact members_next_error (treeMember_span_error hd k x _)

end Members

/-! ## Children -/

/-- A reader that reads the written trees of up to `n` levels and refuses the others. -/
def ReadsUpTo (n : Nat) (reader : Reader Tree) : Prop :=
  ∀ t s, reader (text t ++ s) = if t.levels ≤ n then .ok (t, s) else .error .malformed

theorem text_cons (t : Tree) : ∃ r, ∀ s, text t ++ s = '\x7b' :: (r ++ s) := by
  rcases t with ⟨k, x, l, cs⟩
  refine ⟨headText k x l (childrenText cs ++ ['\x7d']), fun s => ?_⟩
  rw [text_append]
  simp only [headText, List.cons_append, List.append_assoc, List.nil_append]

section Arrays

variable {n : Nat} {child : Reader Tree} (h : ReadsUpTo n child)

include h

/-- One element is read before the others, with or without a comma in front. -/
theorem elements_cons {c : Tree} {cs : List Tree} {s r : List Char}
    (hcs : elements child false s = if levelsAll cs ≤ n then .ok (cs, r) else .error .malformed)
    (first : Bool) :
    elements child first (separated first (text c ++ s)) =
      if levelsAll (c :: cs) ≤ n then .ok (c :: cs, r) else .error .malformed := by
  obtain ⟨t, ht⟩ := text_cons c
  have hc := h c s
  rw [ht] at hc ⊢
  rw [levelsAll]
  by_cases hle : c.levels ≤ n
  · rw [if_pos hle] at hc
    rw [elements_separated hc (by simp), hcs]
    by_cases hall : levelsAll cs ≤ n
    · rw [if_pos hall, if_pos (by omega)]
      rfl
    · rw [if_neg hall, if_neg (by omega)]
      rfl
  · rw [if_neg hle] at hc
    rw [elements_separated_error hc, if_neg (by omega)]

theorem elements_textAll (cs : List Tree) (s : List Char) :
    elements child false (textAll cs ++ ']' :: s) =
      if levelsAll cs ≤ n then .ok (cs, s) else .error .malformed := by
  induction cs with
  | nil => rw [textAll, List.nil_append, elements_close, levelsAll, if_pos (Nat.zero_le n)]
  | cons c cs ih =>
    simp only [textAll, List.cons_append, List.append_assoc]
    exact elements_cons h ih false

/-- The children of a node are read, unless there are none. -/
theorem members_childrenText {depth : Nat} (hd : 1 < depth) (k : Kind) (x : Span)
    (l : Option (Option String)) (cs : List Tree) (s : List Char) :
    members (treeMember depth child) false ⟨some k, some x, l, none⟩
        (childrenText cs ++ '\x7d' :: s) =
      if levelsAll cs ≤ n then
        .ok (⟨some k, some x, l, if cs.isEmpty then none else some cs⟩, s)
      else .error .malformed := by
  cases cs with
  | nil =>
    rw [childrenText, List.nil_append, members_close, levelsAll, if_pos (Nat.zero_le n)]
    rfl
  | cons c cs =>
    have htext : childrenText (c :: cs) ++ '\x7d' :: s = ',' :: (quote "children".toList ++
        ':' :: '[' :: (text c ++ (textAll cs ++ ']' :: '\x7d' :: s))) := by
      simp only [childrenText, memberName, List.cons_append, List.append_assoc, List.nil_append]
    have hread : readChildren depth child
        ('[' :: (text c ++ (textAll cs ++ ']' :: '\x7d' :: s))) =
          if levelsAll (c :: cs) ≤ n then .ok (c :: cs, '\x7d' :: s) else .error .malformed := by
      have hskip (r : List Char) : skipSpace ('[' :: r) = '[' :: r := rfl
      rw [readChildren, hskip]
      simp only
      rw [if_neg (by omega)]
      exact elements_cons h (elements_textAll h cs _) true
    rw [htext]
    by_cases hall : levelsAll (c :: cs) ≤ n
    · rw [if_pos hall] at hread ⊢
      rw [members_next (treeMember_children k x l hread) (by simp; omega), members_close]
      rfl
    · rw [if_neg hall] at hread ⊢
      exact members_next_error (treeMember_children_error k x l hread)

end Arrays

/-! ## Whole trees -/

/-- A reader that may open `2 * n + 2` brackets, the last one refused, reads `n` levels. -/
theorem readsUpTo_readTree (n : Nat) : ReadsUpTo n (readTree (2 * n + 2)) := by
  induction n with
  | zero =>
    rintro ⟨k, x, l, cs⟩ s
    rw [text_append, readTree, skipSpace_curly]
    simp only
    rw [treeObject, members_headText_error (Nat.le_refl 1), levels, if_neg (by omega)]
    rfl
  | succ n ih =>
    rintro ⟨k, x, l, cs⟩ s
    rw [text_append, readTree, skipSpace_curly]
    simp only
    have ih : ReadsUpTo n (readTree (2 * (n + 1))) := ih
    rw [treeObject, members_headText (by omega), members_childrenText ih (by omega), levels]
    by_cases hall : levelsAll cs ≤ n
    · rw [if_pos hall, if_pos (show 1 + levelsAll cs ≤ n + 1 by omega)]
      cases l <;> cases cs <;> rfl
    · rw [if_neg hall, if_neg (by omega)]
      rfl

/-! ## Levels of what is read -/

theorem depth_of_readSpan {depth : Nat} {s r : List Char} {x : Span}
    (h : readSpan depth s = .ok (x, r)) : 1 < depth := by
  refine Nat.lt_of_not_le fun hd => ?_
  unfold readSpan at h
  split at h
  · cases h
  · rw [if_pos hd] at h; cases h
  · rw [if_pos hd] at h; cases h
  · cases h

theorem value_of_once {α : Type} {old x : Option α} {value : Reader α} {s r : List Char}
    (h : once old value s = .ok (x, r)) : ∃ y t, value t = .ok (y, r) ∧ x = some y := by
  cases old with
  | some _ => cases h
  | none =>
    obtain ⟨t, -, h⟩ := ok_of_bind h
    obtain ⟨⟨y, u⟩, hy, h⟩ := ok_of_bind h
    cases h
    exact ⟨y, t, hy, rfl⟩

theorem value_of_needed {α : Type} {first : Bool} {element : Reader α} {s r : List Char} {x : α}
    (h : needed first element s = .ok (x, r)) : ∃ t, element t = .ok (x, r) := by
  obtain ⟨⟨more, t⟩, -, h⟩ := ok_of_bind h
  cases more with
  | true => exact ⟨t, h⟩
  | false => cases h

theorem value_of_elementOr {α : Type} {default x : α} {element : Reader α} {s r : List Char}
    (h : elementOr default element s = .ok (x, r)) :
    x = default ∨ ∃ t, element t = .ok (x, r) := by
  obtain ⟨⟨more, t⟩, -, h⟩ := ok_of_bind h
  cases more with
  | true => exact .inr ⟨t, h⟩
  | false => cases h; exact .inl rfl

section Levels

variable {n depth : Nat} {child : Reader Tree}
  (hchild : ∀ {s t r}, child s = .ok (t, r) → t.levels ≤ n)

include hchild

theorem levelsAll_of_readChildren {s r : List Char} {cs : List Tree}
    (h : readChildren depth child s = .ok (cs, r)) : levelsAll cs ≤ n := by
  unfold readChildren at h
  split at h
  · cases h
  · split at h
    · cases h
    · exact levelsAll_le.2 (elements_forall hchild h)
  · cases h

/-- What is known of the members of a node that have been read. -/
def Draft.Fits (depth n : Nat) (p : Draft) : Prop :=
  (p.span.isSome → 1 < depth) ∧ ∀ cs, p.children = some cs → levelsAll cs ≤ n

theorem fits_of_treeMember {key s r : List Char} {p q : Draft} (hp : p.Fits depth n)
    (h : treeMember depth child key p s = .ok (q, r)) : q.Fits depth n := by
  unfold treeMember at h
  split at h
  · obtain ⟨⟨x, u⟩, -, h⟩ := ok_of_bind h
    cases h
    exact hp
  split at h
  · obtain ⟨⟨x, u⟩, hx, h⟩ := ok_of_bind h
    obtain ⟨y, t, hy, rfl⟩ := value_of_once hx
    cases h
    exact ⟨fun _ => depth_of_readSpan hy, hp.2⟩
  split at h
  · obtain ⟨⟨x, u⟩, -, h⟩ := ok_of_bind h
    cases h
    exact hp
  split at h
  · obtain ⟨⟨x, u⟩, hx, h⟩ := ok_of_bind h
    obtain ⟨y, t, hy, rfl⟩ := value_of_once hx
    cases h
    refine ⟨hp.1, fun cs hcs => ?_⟩
    cases hcs
    exact levelsAll_of_readChildren hchild hy
  · obtain ⟨u, -, h⟩ := ok_of_bind h
    cases h
    exact hp

theorem levels_of_treeObject {s r : List Char} {t : Tree}
    (h : treeObject depth child s = .ok (t, r)) : 1 < depth ∧ levelsAll t.children ≤ n := by
  obtain ⟨⟨p, u⟩, hp, h⟩ := ok_of_bind h
  have hfits : p.Fits depth n :=
    members_invariant (fun hq hm => fits_of_treeMember hchild hq hm)
      ⟨fun h => absurd h (by decide), fun cs hcs => by cases hcs⟩ hp
  rcases p with ⟨_ | k, _ | x, l, cs⟩ <;> cases h
  refine ⟨hfits.1 rfl, ?_⟩
  cases cs with
  | none => exact Nat.zero_le n
  | some cs => exact hfits.2 cs rfl

theorem levels_of_treeArray {s r : List Char} {t : Tree}
    (h : treeArray depth child s = .ok (t, r)) : 1 < depth ∧ levelsAll t.children ≤ n := by
  obtain ⟨⟨k, s₁⟩, -, h⟩ := ok_of_bind h
  obtain ⟨⟨x, s₂⟩, hx, h⟩ := ok_of_bind h
  obtain ⟨⟨l, s₃⟩, -, h⟩ := ok_of_bind h
  obtain ⟨⟨cs, s₄⟩, hcs, h⟩ := ok_of_bind h
  obtain ⟨s₅, -, h⟩ := ok_of_bind h
  cases h
  obtain ⟨t, ht⟩ := value_of_needed hx
  refine ⟨depth_of_readSpan ht, ?_⟩
  rcases value_of_elementOr hcs with rfl | ⟨t, ht⟩
  · exact Nat.zero_le n
  · exact levelsAll_of_readChildren hchild ht

end Levels

/-- **Step.** A node adds one level to its children and takes a bracket for its span. -/
theorem levels_of_readTree_add_two {n depth : Nat}
    (hchild : ∀ {s t r}, readTree depth s = .ok (t, r) → t.levels ≤ n) {s r : List Char} {t : Tree}
    (h : readTree (depth + 2) s = .ok (t, r)) : 0 < depth ∧ t.levels ≤ n + 1 := by
  have key : 1 < depth + 1 ∧ levelsAll t.children ≤ n := by
    rw [readTree] at h
    split at h
    · cases h
    · exact levels_of_treeArray hchild h
    · exact levels_of_treeObject hchild h
    · cases h
  rw [levels_eq]
  omega

theorem not_ok_of_readTree_zero {s r : List Char} {t : Tree} : readTree 0 s ≠ .ok (t, r) := by
  intro h
  rw [readTree] at h
  split at h <;> cases h

/-- **Run.** No more levels are read than brackets may be opened for. -/
theorem levels_of_readTree {n : Nat} {s r : List Char} {t : Tree}
    (h : readTree (2 * n + 2) s = .ok (t, r)) : t.levels ≤ n := by
  induction n generalizing s r t with
  | zero =>
    have hchild {s t r} (h : readTree 0 s = .ok (t, r)) : t.levels ≤ 0 :=
      absurd h not_ok_of_readTree_zero
    exact absurd (levels_of_readTree_add_two hchild h).1 (Nat.lt_irrefl 0)
  | succ n ih => exact (levels_of_readTree_add_two ih h).2

/-! ## The text of a tree -/

/-- The number of levels that are read: each takes two brackets, and one more is refused. -/
def levelLimit : Nat := 63

theorem ofJson_eq (t : Tree) :
    ofJson t.toJson = if t.levels ≤ levelLimit then .ok t else .error .malformed := by
  have h := readsUpTo_readTree levelLimit t []
  rw [List.append_nil] at h
  rw [ofJson, toJson, String.toList_ofList, show nestingLimit = 2 * levelLimit + 2 from rfl, h]
  split <;> rfl

theorem levels_of_ofJson {s : String} {t : Tree} (h : ofJson s = .ok t) :
    t.levels ≤ levelLimit := by
  obtain ⟨⟨u, r⟩, hu, h⟩ := ok_of_bind h
  have hle := levels_of_readTree (n := levelLimit) hu
  simp only at h
  split at h
  · cases h
    exact hle
  · cases h

/-- A tree is read back from its text exactly if it has at most 63 levels, and is refused as
malformed otherwise; so whatever was read from any text is read back from its own. -/
theorem ofJson_toJson (t : Tree) :
    (ofJson t.toJson = if t.depth ≤ 63 then .ok t else .error .malformed) ∧
    ∀ s u, ofJson s = .ok u → ofJson u.toJson = .ok u := by
  constructor
  · rw [ofJson_eq, depth_eq, levelLimit]
  · intro s u h
    rw [ofJson_eq, if_pos (levels_of_ofJson h)]

/-- A column of nodes, each of them the only child of the one above it. -/
def column : Nat → Tree
  | 0 => ⟨.ident, ⟨1, 4⟩, some "x", []⟩
  | below + 1 => ⟨.parenExpr, ⟨1, 4⟩, none, [column below]⟩

theorem depth_column (below : Nat) : (column below).depth = below + 1 := by
  rw [depth_eq]
  induction below with
  | zero => rfl
  | succ below ih =>
    have hlevels : (column (below + 1)).levels = 1 + max (column below).levels 0 := rfl
    rw [hlevels, ih]
    omega

/-- A column of 63 nodes is read back and one of 64 is refused; and a node in array form, with its
kind as an object, is read back from the object that it is written as. -/
theorem ofJson_toJson_column :
    ofJson (column 62).toJson = .ok (column 62) ∧
    ofJson (column 63).toJson = .error .malformed ∧
    ofJson "[\x7b\"Ident\":null\x7d,[1,4],\"x\"]" = .ok (column 0) ∧
    ofJson (column 0).toJson = .ok (column 0) := by
  have harray : ofJson "[\x7b\"Ident\":null\x7d,[1,4],\"x\"]" = .ok (column 0) := by cbv
  have hlast := (ofJson_toJson (column 62)).1
  have hbeyond := (ofJson_toJson (column 63)).1
  rw [depth_column, if_pos (by decide)] at hlast
  rw [depth_column, if_neg (by decide)] at hbeyond
  exact ⟨hlast, hbeyond, harray, (ofJson_toJson (column 0)).2 _ _ harray⟩

end Tree

end UniformTree
