/-!
# TOML values and tables

A table grows while a document is read, and how it came into being decides what may still be added
to it: a table with a header, a table that is only on the way to one with a header, a table that is
only on the way to a dotted key, and a table in braces, which is closed.
-/

namespace UniformTree.Toml

/-- How a table came into being. -/
inductive TableForm where
  /-- It is the document, or it has a header, or it is an element of an array of tables. -/
  | header
  /-- A header of a table below it is all that there is of it. -/
  | implied
  /-- A dotted key through it is all that there is of it. -/
  | dotted
  /-- It stands in braces. -/
  | inline
deriving DecidableEq, Repr

/-- A value. Of floats and of dates and times only what they are is kept. -/
inductive Value where
  | string (text : String)
  | integer (number : Int)
  | float
  | boolean (yes : Bool)
  | dateTime
  | array (elements : List Value)
  | table (form : TableForm) (entries : List (String × Value))
  /-- An array of tables with headers: the last one and, going back, those before it. -/
  | tables (last : List (String × Value)) (before : List (List (String × Value)))
deriving Repr, Inhabited

/-- A table. -/
structure Table where
  form : TableForm
  entries : List (String × Value)
deriving Repr

namespace Table

/-- A table without entries. -/
def empty (form : TableForm) : Table := ⟨form, []⟩

/-- The value of a key. -/
def find? (t : Table) (key : String) : Option Value := t.entries.lookup key

/-- Entries with a value for a key, in the place of the one that the key had or after the others. -/
def putIn (key : String) (v : Value) : List (String × Value) → List (String × Value)
  | [] => [(key, v)]
  | (k, old) :: entries => if k = key then (key, v) :: entries else (k, old) :: putIn key v entries

/-- The table with a value for a key. -/
def put (t : Table) (key : String) (v : Value) : Table :=
  { t with entries := putIn key v t.entries }

theorem lookup_putIn (key : String) (v : Value) (entries : List (String × Value)) :
    (putIn key v entries).lookup key = some v := by
  induction entries with
  | nil => simp [putIn]
  | cons e es ih =>
    obtain ⟨k, old⟩ := e
    by_cases h : k = key
    · simp [putIn, h]
    · have hk : (key == k) = false := by simpa using Ne.symm h
      simp [putIn, h, List.lookup_cons, hk, ih]

@[simp] theorem find?_put (t : Table) (key : String) (v : Value) :
    (t.put key v).find? key = some v := lookup_putIn key v t.entries

/-- Change the table at the end of a path. Tables that are not there are made, in the given form.
An array of tables is gone through by its last element. A dotted key does not go through a table
with a header. -/
def alter (made : TableForm) (change : Table → Option Table) : List String → Table → Option Table
  | [], t => change t
  | key :: path, t =>
    match t.find? key with
    | none =>
      (alter made change path (empty made)).map fun u => t.put key (.table u.form u.entries)
    | some (.table form entries) =>
      if form = .inline || (made = .dotted && form = .header) then none
      else (alter made change path ⟨form, entries⟩).map fun u =>
        t.put key (.table u.form u.entries)
    | some (.tables last before) =>
      (alter made change path ⟨.header, last⟩).map fun u => t.put key (.tables u.entries before)
    | some _ => none

/-- Give a new key its value. A dotted key ends in a table that dotted keys have made, and no other
key does. -/
def insert (t : Table) (path : List String) (key : String) (v : Value) : Option Table :=
  alter .dotted (fun u =>
    if (u.form == .dotted) == path.isEmpty then none
    else if (u.find? key).isSome then none
    else some (u.put key v)) path t

/-- Open a table with a header. It must be new, or only implied so far. -/
def openTable (t : Table) (path : List String) (key : String) : Option Table :=
  alter .implied (fun u =>
    match u.find? key with
    | none => some (u.put key (.table .header []))
    | some (.table .implied entries) => some (u.put key (.table .header entries))
    | some _ => none) path t

/-- Open one more element of an array of tables. -/
def openElement (t : Table) (path : List String) (key : String) : Option Table :=
  alter .implied (fun u =>
    match u.find? key with
    | none => some (u.put key (.tables [] []))
    | some (.tables last before) => some (u.put key (.tables [] (last :: before)))
    | some _ => none) path t

/-- Give a key of the table at the end of a path its value. -/
def insertAt (t : Table) (table path : List String) (key : String) (v : Value) : Option Table :=
  alter .implied (fun u => u.insert path key v) table t

end Table

end UniformTree.Toml
