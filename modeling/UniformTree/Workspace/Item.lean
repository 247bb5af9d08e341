import UniformTree.Error
import UniformTree.Parse
/-!
# Files and directories

A directory holds files and directories by name. A path leads through it: its parts are the names
between the slashes, where a part that is empty or a dot stays and two dots go back.
-/

namespace UniformTree

/-- What a file holds: its bytes, and the concrete tree that the parser gives for them, if it gives
one. -/
structure Content where
  bytes : List UInt8
  tree : Option Concrete
deriving Repr

namespace Content

/-- The document that a file holds. Without a concrete tree there is none. -/
def document (c : Content) (path : String) : Except ParseError Document :=
  match c.tree with
  | none => .error (.noTree path)
  | some root => .ok ⟨⟨c.bytes⟩, root⟩

/-- The source tree of a file whose nodes lie at most `limit` levels below the root. -/
def parse (c : Content) (limit : UInt32) (path : String) (base : UInt32) :
    Except ParseError File := do
  (← c.document path).parse limit path base

/-- The uniform tree of a file that is read by itself. -/
def uniform (c : Content) (settings : Settings) (path : String) : Except ParseError Tree := do
  (← c.document path).uniform settings path

/-- The number of bytes. -/
def size (c : Content) : Nat := c.bytes.length

end Content

/-- A file or a directory. -/
inductive Item where
  | file (content : Content)
  | directory (entries : List (String × Item))
deriving Repr

namespace Item

/-- A directory without entries. -/
def empty : Item := directory []

/-- The entries of a directory. -/
def entries : Item → List (String × Item)
  | file _ => []
  | directory es => es

/-- What a row of names leads to. -/
def get? : List String → Item → Option Item
  | [], i => some i
  | name :: names, i => (i.entries.lookup name).bind (get? names)

/-- Entries with something under a name, in the place of what was there. -/
def replaceIn (name : String) (new : Option Item) (es : List (String × Item)) :
    List (String × Item) :=
  es.filter (·.1 != name) ++ (new.map (name, ·)).toList

/-- Change what a row of names leads to. Directories on the way that are not there are made. -/
def alter (change : Option Item → Option Item) : List String → Option Item → Option Item
  | [], i => change i
  | name :: names, i =>
    let es := (i.getD empty).entries
    some (directory (replaceIn name (alter change names (es.lookup name)) es))

/-! ## Names in a directory -/

/-- No directory has two entries of one name. -/
inductive Distinct : Item → Prop
  | file (content : Content) : Distinct (.file content)
  | directory {es : List (String × Item)} (names : (es.map (·.1)).Nodup)
    (entries : ∀ e ∈ es, Distinct e.2) : Distinct (.directory es)

section Distinct

variable {i j : Item} {name : String} {names : List String} {es : List (String × Item)}
  {change : Option Item → Option Item}

theorem distinct_empty : empty.Distinct := .directory .nil fun _ h => nomatch h

theorem Distinct.names_entries (h : i.Distinct) : (i.entries.map (·.1)).Nodup := by
  cases h with
  | file content => exact .nil
  | directory names _ => exact names

theorem Distinct.of_mem_entries (h : i.Distinct) {e : String × Item} (he : e ∈ i.entries) :
    e.2.Distinct := by
  cases h with
  | file content => cases he
  | directory _ entries => exact entries e he

theorem Distinct.of_lookup (h : i.Distinct) (hj : i.entries.lookup name = some j) :
    j.Distinct := by
  obtain ⟨before, after, hentries, -⟩ := List.lookup_eq_some_iff.1 hj
  have hmem : (name, j) ∈ i.entries := by
    rw [hentries]
    exact List.mem_append_right before List.mem_cons_self
  exact h.of_mem_entries hmem

/-- What a row of names leads to. -/
theorem Distinct.of_get? (h : i.Distinct) (hj : get? names i = some j) : j.Distinct := by
  induction names generalizing i with
  | nil => exact Option.some.inj hj ▸ h
  | cons name names ih =>
    obtain ⟨k, hk, hj⟩ := Option.bind_eq_some_iff.1 hj
    exact ih (h.of_lookup hk) hj

/-- An entry is written in the place of what was there under its name. -/
theorem names_replaceIn (h : (es.map (·.1)).Nodup) (name : String) (new : Option Item) :
    ((replaceIn name new es).map (·.1)).Nodup := by
  have hrest : ((es.filter (·.1 != name)).map (·.1)).Nodup :=
    h.sublist (List.filter_sublist.map _)
  cases new with
  | none => simpa [replaceIn] using hrest
  | some j =>
    rw [replaceIn, List.map_append, List.nodup_append]
    refine ⟨hrest, List.pairwise_singleton _ name, ?_⟩
    intro k hk other hother heq
    obtain ⟨e, he, rfl⟩ := List.mem_map.1 hk
    have hne : e.1 ≠ name := bne_iff_ne.1 (List.mem_filter.1 he).2
    exact hne (heq.trans (List.mem_singleton.1 hother))

/-- A change that makes no directory with two entries of one name. -/
def KeepsDistinct (change : Option Item → Option Item) : Prop :=
  ∀ x : Option Item, (∀ i ∈ x, i.Distinct) → ∀ i ∈ change x, i.Distinct

theorem keepsDistinct_alter (h : KeepsDistinct change) (names : List String) :
    KeepsDistinct (alter change names) := by
  induction names with
  | nil => exact h
  | cons name names ih =>
    intro x hx
    have hold : (x.getD empty).Distinct := by
      cases x with
      | none => exact distinct_empty
      | some i => exact hx i rfl
    rintro _ ⟨⟩
    refine .directory (names_replaceIn hold.names_entries name _) ?_
    intro e he
    rcases List.mem_append.1 he with he | he
    · exact hold.of_mem_entries (List.mem_filter.1 he).1
    · obtain ⟨j, hj, rfl⟩ := Option.map_eq_some_iff.1 (Option.mem_toList.1 he)
      exact ih _ (fun i hi => hold.of_lookup hi) j hj

end Distinct

/-! ## Paths -/

/-- The parts of a path between its slashes. -/
def partsOf : List Char → List (List Char)
  | [] => [[]]
  | c :: cs =>
    if c = '/' then [] :: partsOf cs
    else
      match partsOf cs with
      | [] => [[c]]
      | part :: more => (c :: part) :: more

/-- The parts of a path. -/
def parts (path : String) : List String := (partsOf path.toList).map String.ofList

/-- From a place one part on, whatever is there. -/
def step (place : List String) (part : String) : List String :=
  if part = "" ∨ part = "." then place
  else if part = ".." then place.dropLast
  else place ++ [part]

/-- From a place one part on. Only directories can be gone through. -/
def enter (root : Item) (place : List String) (part : String) : Except FileFailure (List String) :=
  match root.get? place with
  | none => .error .notFound
  | some (file _) => .error .notDirectory
  | some (directory _) => .ok (step place part)

/-- The place to which a path leads. -/
def place (root : Item) (path : String) : Except FileFailure (List String) :=
  if path = "" then .error .notFound else (parts path).foldlM (enter root) []

/-- What a path leads to. -/
def find (root : Item) (path : String) : Except FileFailure Item :=
  match root.place path with
  | .error f => .error f
  | .ok names =>
    match root.get? names with
    | some i => .ok i
    | none => .error .notFound

theorem Distinct.of_find {root i : Item} {path : String} (h : root.Distinct)
    (hi : root.find path = .ok i) : i.Distinct := by
  unfold find at hi
  split at hi
  · cases hi
  · split at hi
    next j hj =>
      cases hi
      exact h.of_get? hj
    next => cases hi

/-- The content of the file to which a path leads. -/
def read (root : Item) (path : String) : Except FileFailure Content :=
  match root.find path with
  | .error f => .error f
  | .ok (directory _) => .error .isDirectory
  | .ok (file c) => .ok c

/-- The path of a name in a directory. -/
def join (dir name : String) : String :=
  if dir = "" ∨ dir.toList.getLast? = some '/' then dir ++ name else dir ++ "/" ++ name

end Item

end UniformTree
