import Mathlib.Data.List.Induction
import UniformTree.Proofs.Settings.RoundTrip
import UniformTree.Proofs.Text.Names
import UniformTree.Workspace.Basic
/-!
# Settings of several layers

A setting has the value of the highest layer that makes it (`get_ofLayers`): the caller before the
environment before the file. What a layer says of one setting is nothing to the others.
-/

namespace UniformTree

/-! ## One setting at a time -/

/-- One of the settings. -/
inductive Setting where
  | maxFileSize
  | parallel
  | includeComments
  | maxNesting
deriving DecidableEq, Repr

namespace Setting

/-- What a setting may be set to. -/
abbrev Value : Setting → Type
  | maxFileSize => UInt64
  | parallel => Bool
  | includeComments => Bool
  | maxNesting => UInt32

/-- The environment variable that makes a setting. -/
def variableName : Setting → String
  | maxFileSize => "GOAST_SCAN_MAX_FILE_SIZE"
  | parallel => "GOAST_SCAN_PARALLEL"
  | includeComments => "GOAST_TREE_INCLUDE_COMMENTS"
  | maxNesting => "GOAST_TREE_MAX_NESTING"

theorem variableName_injective : Function.Injective variableName := by
  intro j k h
  cases j <;> cases k <;> first | rfl | exact absurd h (by decide)

/-- A text of decimal digits, perhaps with a plus sign before them, and the number they denote. -/
def IsNumeral (text : String) (n : Nat) : Prop :=
  ∃ ds : List Char, ds ≠ [] ∧ (∀ d ∈ ds, Text.isDigit d = true) ∧ Text.valueOf ds = n ∧
    (text.toList = ds ∨ text.toList = '+' :: ds)

/-- A text says of a setting that it is to have a value. -/
def Denotes : (k : Setting) → String → k.Value → Prop
  | maxFileSize, text, n => IsNumeral text n.toNat
  | parallel, text, yes => text = Settings.flag yes
  | includeComments, text, yes => text = Settings.flag yes
  | maxNesting, text, n => IsNumeral text n.toNat

/-- The value that a text gives a setting. -/
def parse? : (k : Setting) → String → Option k.Value
  | maxFileSize, text => (Settings.parseNatural? UInt64.size text).map .ofNat
  | parallel, text => Settings.parseFlag? text
  | includeComments, text => Settings.parseFlag? text
  | maxNesting, text => (Settings.parseNatural? UInt32.size text).map .ofNat

end Setting

namespace Settings

open Setting (IsNumeral)

variable {s t : Settings}

/-- What a setting is set to. -/
def get (s : Settings) : (k : Setting) → Option k.Value
  | .maxFileSize => s.maxFileSize
  | .parallel => s.parallel
  | .includeComments => s.includeComments
  | .maxNesting => s.maxNesting

theorem ext_get (h : ∀ k, s.get k = t.get k) : s = t := by
  obtain ⟨size, parallel, comments, nesting⟩ := s
  obtain ⟨size', parallel', comments', nesting'⟩ := t
  have hsize : size = size' := h .maxFileSize
  have hparallel : parallel = parallel' := h .parallel
  have hcomments : comments = comments' := h .includeComments
  have hnesting : nesting = nesting' := h .maxNesting
  rw [hsize, hparallel, hcomments, hnesting]

theorem get_unset (k : Setting) : unset.get k = none := by
  cases k <;> rfl

/-! ## Layers -/

theorem get_above (upper lower : Settings) (k : Setting) :
    (upper.above lower).get k = (upper.get k).or (lower.get k) := by
  cases k <;> exact Option.orElse_eq_or

/-- The highest layer that makes a setting decides. -/
theorem get_ofLayers (layers : List Settings) (k : Setting) :
    (ofLayers layers).get k = layers.reverse.findSome? (·.get k) := by
  induction layers using List.reverseRecOn with
  | nil => exact get_unset k
  | append_singleton layers layer ih =>
    rw [ofLayers, List.foldl_append, List.foldl_cons, List.foldl_nil, ← ofLayers, get_above, ih,
      List.reverse_append, List.reverse_singleton, List.singleton_append, List.findSome?_cons]
    cases layer.get k <;> rfl

/-! ## The environment -/

section Numerals

variable {text : String} {n bound : Nat} {ds : List Char}

/-- The digits of a numeral are what is left of it without its sign. -/
theorem isNumeral_iff (h : (match text.toList with
      | '+' :: ds => ds
      | ds => ds) = ds) :
    IsNumeral text n ↔ ds ≠ [] ∧ (∀ d ∈ ds, Text.isDigit d = true) ∧ Text.valueOf ds = n := by
  constructor
  · rintro ⟨es, hne, hall, hvalue, hes | hes⟩
    · rw [hes] at h
      split at h
      next rest =>
        have hplus : Text.isDigit '+' = true := hall '+' List.mem_cons_self
        exact absurd hplus (by decide)
      next =>
        subst h
        exact ⟨hne, hall, hvalue⟩
    · rw [hes] at h
      subst h
      exact ⟨hne, hall, hvalue⟩
  · rintro ⟨hne, hall, hvalue⟩
    refine ⟨ds, hne, hall, hvalue, ?_⟩
    split at h
    next heq => exact .inr (h ▸ heq)
    next => exact .inl h

theorem parseNatural?_eq_some_iff :
    parseNatural? bound text = some n ↔ IsNumeral text n ∧ n < bound := by
  obtain ⟨ds, hds⟩ : ∃ ds, (match text.toList with
    | '+' :: ds => ds
    | ds => ds) = ds := ⟨_, rfl⟩
  have hparse : parseNatural? bound text =
      if (!ds.isEmpty && ds.all Text.isDigit && Text.valueOf ds < bound) = true then
        some (Text.valueOf ds) else none := by
    subst hds
    rfl
  rw [hparse, isNumeral_iff hds, Option.ite_none_right_eq_some]
  simp only [Bool.and_eq_true, Bool.not_eq_true', List.isEmpty_eq_false_iff, List.all_eq_true,
    decide_eq_true_eq, Option.some.injEq]
  constructor
  · rintro ⟨⟨⟨hne, hall⟩, hlt⟩, rfl⟩
    exact ⟨⟨hne, hall, rfl⟩, hlt⟩
  · rintro ⟨⟨hne, hall, rfl⟩, hlt⟩
    exact ⟨⟨⟨hne, hall⟩, hlt⟩, rfl⟩

end Numerals

theorem parseFlag?_eq_some_iff {text : String} {yes : Bool} :
    parseFlag? text = some yes ↔ text = flag yes := by
  unfold parseFlag?
  cases yes with
  | true => simp [flag]
  | false =>
    by_cases h : text = "true" <;> simp [flag, h]

/-- What an environment sets a setting to, if the text of its variable can be read. -/
def ofVariable (k : Setting) (env : Environment) : Option k.Value :=
  (env k.variableName).bind k.parse?

theorem get_ofEnvironment (env : Environment) (k : Setting) :
    (ofEnvironment env).get k = ofVariable k env := by
  cases k with
  | maxFileSize => exact Option.map_bind ..
  | parallel => rfl
  | includeComments => rfl
  | maxNesting => exact Option.map_bind ..

theorem map_parseNatural?_eq_some_iff {α : Type} {ofNat : Nat → α} {toNat : α → Nat}
    {bound : Nat} {text : String} {x : α} (hlt : ∀ x, toNat x < bound)
    (hto : ∀ n, n < bound → toNat (ofNat n) = n) (hof : ∀ x, ofNat (toNat x) = x) :
    (parseNatural? bound text).map ofNat = some x ↔ IsNumeral text (toNat x) := by
  rw [Option.map_eq_some_iff]
  constructor
  · rintro ⟨n, hn, rfl⟩
    obtain ⟨hnumeral, hbound⟩ := parseNatural?_eq_some_iff.1 hn
    rwa [hto n hbound]
  · intro h
    exact ⟨toNat x, parseNatural?_eq_some_iff.2 ⟨h, hlt x⟩, hof x⟩

/-- A text gives a setting the value that it denotes, and otherwise none. -/
theorem parse?_eq_some_iff {k : Setting} {text : String} {x : k.Value} :
    k.parse? text = some x ↔ k.Denotes text x := by
  cases k with
  | maxFileSize =>
    exact map_parseNatural?_eq_some_iff UInt64.toNat_lt_size
      (fun _ h => UInt64.toNat_ofNat_of_lt' h) fun _ => UInt64.ofNat_toNat
  | parallel => exact parseFlag?_eq_some_iff
  | includeComments => exact parseFlag?_eq_some_iff
  | maxNesting =>
    exact map_parseNatural?_eq_some_iff UInt32.toNat_lt_size
      (fun _ h => UInt32.toNat_ofNat_of_lt' h) fun _ => UInt32.ofNat_toNat

/-! ## Settings in force -/

/-- What a caller sets a setting to. -/
def ofCaller (k : Setting) (overrides : Option Settings) : Option k.Value :=
  overrides.bind (·.get k)

/-- The settings in the file of a project, none if there is no file. -/
def ofProject : Option FileText → Except SettingsError Settings
  | none => .ok unset
  | some file => ofFile file

/-- The settings of a file, over them those of the environment, and over them those of the
caller. -/
def inForce (project : Settings) (env : Environment) (overrides : Option Settings) : Settings :=
  ofLayers ([project, ofEnvironment env] ++ overrides.toList)

/-- How settings come about that are in force: each is made by the highest layer that makes it, and
together they are the result unless one of them is zero. -/
structure Resolves (project : Settings) (env : Environment) (overrides : Option Settings)
    (s : Settings) (result : Except SettingsError Settings) : Prop where
  /-- The caller comes before the environment, and the environment before the file. -/
  highest : ∀ k, s.get k = (ofCaller k overrides).or ((ofVariable k env).or (project.get k))
  accepted : ∀ t, result = .ok t ↔ t = s ∧ s.maxFileSize ≠ some 0 ∧ s.maxNesting ≠ some 0
  size_zero : s.maxFileSize = some 0 →
    result = .error (.invalid "scan.max_file_size" "must be greater than 0")
  nesting_zero : s.maxFileSize ≠ some 0 → s.maxNesting = some 0 →
    result = .error (.invalid "tree.max_nesting" "must be greater than 0")

section InForce

variable {file : Option FileText} {project project' : Settings} {env env' : Environment}
  {overrides others : Option Settings} {e : SettingsError}

theorem get_inForce (project : Settings) (env : Environment) (overrides : Option Settings)
    (k : Setting) :
    (inForce project env overrides).get k =
      (ofCaller k overrides).or ((ofVariable k env).or (project.get k)) := by
  have hcaller : overrides.toList.findSome? (·.get k) = ofCaller k overrides := by
    cases overrides with
    | none => rfl
    | some s => exact List.findSome?_singleton
  have hlower : [ofEnvironment env, project].findSome? (·.get k) =
      (ofVariable k env).or (project.get k) := by
    rw [List.findSome?_cons, get_ofEnvironment, List.findSome?_singleton]
    cases ofVariable k env <;> rfl
  have hreverse : ([project, ofEnvironment env] ++ overrides.toList).reverse =
      overrides.toList ++ [ofEnvironment env, project] := by
    cases overrides <;> rfl
  rw [inForce, get_ofLayers, hreverse, List.findSome?_append, hcaller, hlower]

/-- What a lower layer says of a setting is without effect where a higher one makes it. -/
theorem inForce_congr
    (h : ∀ k, (ofCaller k overrides).isSome ∨ ofVariable k env = ofVariable k env' ∧
      ((ofVariable k env).isSome ∨ project.get k = project'.get k)) :
    inForce project env overrides = inForce project' env' overrides := by
  apply ext_get
  intro k
  rw [get_inForce, get_inForce]
  rcases h k with hcaller | ⟨henv, hvariable | hproject⟩
  · obtain ⟨x, hx⟩ := Option.isSome_iff_exists.1 hcaller
    rw [hx, Option.some_or, Option.some_or]
  · obtain ⟨x, hx⟩ := Option.isSome_iff_exists.1 hvariable
    rw [← henv, hx, Option.some_or, Option.some_or]
  · rw [henv, hproject]

theorem resolves_inForce (project : Settings) (env : Environment) (overrides : Option Settings) :
    Resolves project env overrides (inForce project env overrides)
      (validate (inForce project env overrides)) where
  highest := get_inForce project env overrides
  accepted := by
    intro t
    rw [validate_eq_ok_iff, invalid?_eq_none_iff, And.comm]
  size_zero := fun h => validate_eq_error_iff.2 (invalid?_eq_some_iff.2 (.inl ⟨h, rfl⟩))
  nesting_zero := fun h h' => validate_eq_error_iff.2 (invalid?_eq_some_iff.2 (.inr ⟨h, h', rfl⟩))

theorem resolve_of_ofProject (h : ofProject file = .ok project) (env : Environment)
    (overrides : Option Settings) :
    resolve file env overrides = validate (inForce project env overrides) := by
  cases file with
  | none =>
    cases h
    rfl
  | some file =>
    rw [resolve, show ofFile file = .ok project from h]
    rfl

/-- A file without settings is refused before the other layers are looked at. -/
theorem resolve_of_error (h : ofProject file = .error e) (env : Environment)
    (overrides : Option Settings) : resolve file env overrides = .error e := by
  cases file with
  | none => cases h
  | some file =>
    rw [resolve, show ofFile file = .error e from h]
    rfl

/-- Environments come to the same where each of them sets a setting to the same, or the caller makes
it. -/
theorem resolve_congr_env (file : Option FileText)
    (h : ∀ k, (ofCaller k overrides).isSome ∨ ofVariable k env = ofVariable k env') :
    resolve file env overrides = resolve file env' overrides := by
  cases hfile : ofProject file with
  | error e => rw [resolve_of_error hfile, resolve_of_error hfile]
  | ok project =>
    have hinForce : inForce project env overrides = inForce project env' overrides :=
      inForce_congr fun k => (h k).imp_right fun henv => ⟨henv, .inr rfl⟩
    rw [resolve_of_ofProject hfile, resolve_of_ofProject hfile, hinForce]

theorem unreadable_of_read {path text : String} (h : read path text = .error e) :
    ∃ message, e = .unreadable path message := by
  unfold read at h
  split at h
  · cases h
    exact ⟨_, rfl⟩
  · split at h <;> cases h
    exact ⟨_, rfl⟩

end InForce

end Settings

end UniformTree
