import UniformTree.Proofs.Settings.Layers
import UniformTree.Proofs.Text.Lossy
import UniformTree.Workspace.Basic
/-!
# The settings of a project

A workspace has the settings file of a project and the variables of the environment. Setting a
variable changes what is found under its name, so each setting is reached by its own variable only.
-/

namespace UniformTree

namespace Workspace

open Settings

variable {w : Workspace} {path : String} {overrides : Option Settings}

theorem environment_setVariable (w : Workspace) (name other : String) (value : Option String) :
    (w.setVariable name value).environment other =
      if other = name then value else w.environment other := by
  rw [environment, setVariable, List.lookup_append]
  by_cases h : other = name
  · subst h
    have hrest : (w.bindings.filter (·.1 != other)).lookup other = none := by
      apply lookup_of_not_mem
      simp
    rw [if_pos rfl, hrest, Option.or_none]
    cases value with
    | none => rfl
    | some text => exact lookup_cons_self other text []
  · have hfirst : ((value.map (name, ·)).toList).lookup other = none := by
      cases value with
      | none => rfl
      | some text => exact lookup_cons_ne h text []
    rw [if_neg h, hfirst, Option.none_or, lookup_filter_ne h]
    rfl

theorem path_settingsFile? {file : FileText} (h : w.settingsFile? path = some file) :
    file.path = Item.join path fileName := by
  simp only [settingsFile?] at h
  split at h <;> cases h <;> rfl

theorem loadSettings_of_ofProject {project : Settings}
    (h : ofProject (w.settingsFile? path) = .ok project) (overrides : Option Settings) :
    w.loadSettings path overrides = validate (inForce project w.environment overrides) :=
  resolve_of_ofProject h w.environment overrides

/-- Two values of a variable come to the same if what is read from them is the same, or if the
caller makes the setting. -/
theorem loadSettings_setVariable (w : Workspace) (path : String) {k : Setting}
    {value value' : Option String}
    (h : (ofCaller k overrides).isSome ∨ value.bind k.parse? = value'.bind k.parse?) :
    (w.setVariable k.variableName value).loadSettings path overrides =
      (w.setVariable k.variableName value').loadSettings path overrides := by
  apply resolve_congr_env
  intro j
  by_cases hj : j = k
  · subst hj
    refine h.imp_right fun hvalue => ?_
    rw [ofVariable, ofVariable, environment_setVariable, environment_setVariable, if_pos rfl,
      if_pos rfl, hvalue]
  · have hname : j.variableName ≠ k.variableName := fun h => hj (Setting.variableName_injective h)
    right
    rw [ofVariable, ofVariable, environment_setVariable, environment_setVariable, if_neg hname,
      if_neg hname]

/-- Each setting of a project is made by the highest layer that makes it: the caller, the variable
of the setting, the file. A file whose text holds no settings is refused whatever the other layers
say. Otherwise the settings are refused if one of them comes out as zero, and nothing else is: a
lower layer is of no account where a higher one makes the setting, a variable whose text denotes
nothing is as if it were not set, and what is said of one setting has no effect on another. -/
theorem loadSettings_by_priority (w : Workspace) (path : String) (overrides : Option Settings) :
    (∀ file text e, w.settingsFile? path = some ⟨file, some text⟩ → read file text = .error e →
      (∃ message, e = .unreadable (Item.join path fileName) message) ∧
      ∀ bindings others, loadSettings { w with bindings } path others = .error e) ∧
    (∀ project, ofProject (w.settingsFile? path) = .ok project →
      ∃ s, Resolves project w.environment overrides s (w.loadSettings path overrides)) ∧
    (∀ (k : Setting) text x, k.parse? text = some x ↔ k.Denotes text x) ∧
    (∀ (k : Setting) text, (∀ x, ¬ k.Denotes text x) →
      (w.setVariable k.variableName (some text)).loadSettings path overrides =
        (w.setVariable k.variableName none).loadSettings path overrides) ∧
    (∀ w' path' project project', ofProject (w.settingsFile? path) = .ok project →
      ofProject (settingsFile? w' path') = .ok project' →
      (∀ k, (ofCaller k overrides).isSome ∨
        ofVariable k w.environment = ofVariable k w'.environment ∧
          ((ofVariable k w.environment).isSome ∨ project.get k = project'.get k)) →
      w.loadSettings path overrides = w'.loadSettings path' overrides) ∧
    ∀ w' path' others project project' k s s', ofProject (w.settingsFile? path) = .ok project →
      ofProject (settingsFile? w' path') = .ok project' →
      project.get k = project'.get k → ofVariable k w.environment = ofVariable k w'.environment →
      ofCaller k overrides = ofCaller k others →
      w.loadSettings path overrides = .ok s →
      w'.loadSettings path' others = .ok s' → s.get k = s'.get k := by
  refine ⟨?_, ?_, fun _ _ _ => parse?_eq_some_iff, ?_, ?_, ?_⟩
  · intro file text e hfile hread
    have hproject : ofProject (w.settingsFile? path) = .error e := by
      rw [hfile]
      exact hread
    refine ⟨?_, fun bindings others => resolve_of_error hproject _ others⟩
    rw [← path_settingsFile? hfile]
    exact unreadable_of_read hread
  · intro project hproject
    rw [loadSettings_of_ofProject hproject]
    exact ⟨_, resolves_inForce project w.environment overrides⟩
  · intro k text hnothing
    have hparse : k.parse? text = none :=
      Option.eq_none_iff_forall_ne_some.2 fun x hx => hnothing x (parse?_eq_some_iff.1 hx)
    exact loadSettings_setVariable w path (.inr hparse)
  · intro w' path' project project' hproject hproject' h
    rw [loadSettings_of_ofProject hproject, loadSettings_of_ofProject hproject', inForce_congr h]
  · intro w' path' others project project' k s s' hproject hproject' hfile hvariable hcaller hs hs'
    rw [loadSettings_of_ofProject hproject] at hs
    rw [loadSettings_of_ofProject hproject'] at hs'
    rw [(validate_eq_ok_iff.1 hs).2, (validate_eq_ok_iff.1 hs').2, get_inForce, get_inForce, hfile,
      hvariable, hcaller]

/-! ## A project and one below it -/

/-- A file that holds a text. -/
def written (text : String) : Content := ⟨(Source.ofString text).bytes, none⟩

theorem ofBytes?_written (text : String) : Text.ofBytes? (written text).bytes = some text :=
  Text.ofBytes?_eq_some_iff.2 rfl

/-- A project with settings, one below it whose settings are not TOML, and two variables, of which
one has a number that is too great. -/
def layered (s : Settings) : Workspace where
  root := .directory [(fileName, .file (written s.text)),
    ("broken", .directory [(fileName, .file (written "[scan"))])]
  bindings := [("GOAST_SCAN_MAX_FILE_SIZE", "+5000"), ("GOAST_TREE_MAX_NESTING", "4294967296")]
  distinct := by
    have hnames : [fileName, "broken"].Nodup := by decide
    refine .directory hnames (List.forall_mem_cons.2 ⟨.file _, ?_⟩)
    refine List.forall_mem_singleton.2 (.directory (List.nodup_singleton fileName) ?_)
    exact List.forall_mem_singleton.2 (.file _)

theorem settingsFile?_layered (s : Settings) :
    (layered s).settingsFile? "." = some ⟨"./goast.toml", some s.text⟩ := by
  show some (FileText.mk _ (Text.ofBytes? (written s.text).bytes)) = _
  rw [ofBytes?_written]
  rfl

theorem settingsFile?_broken (s : Settings) :
    (layered s).settingsFile? "broken" = some ⟨"broken/goast.toml", some "[scan"⟩ := by
  show some (FileText.mk _ (Text.ofBytes? (written "[scan").bytes)) = _
  rw [ofBytes?_written]
  rfl

theorem ofProject_layered {s : Settings}
    (h : s.maxFileSize.all (·.toNat < Toml.integerLimit) = true) :
    ofProject ((layered s).settingsFile? ".") = .ok s := by
  rw [settingsFile?_layered]
  refine read_text (fun n hn => ?_) "./goast.toml"
  rw [Option.mem_def.1 hn] at h
  exact of_decide_eq_true h

/-- A caller that keeps comments and sets nothing else. -/
def keeping : Settings := ⟨none, none, some true, none⟩

/-- A size of zero in the file below one in the environment, a variable with a number that is too
great, and a caller that makes one setting; the same where the file has another size; another
caller; and the project whose settings are not TOML. -/
theorem loadSettings_layered :
    (layered ⟨some 0, some false, none, some 9⟩).loadSettings "." (some keeping) =
      .ok ⟨some 5000, some false, some true, some 9⟩ ∧
    (layered ⟨some 0, some false, none, some 9⟩).loadSettings "." (some keeping) =
      (layered ⟨some 7, some false, none, some 9⟩).loadSettings "." (some keeping) ∧
    (∀ s, (layered ⟨none, none, some false, some 9⟩).loadSettings "." none = .ok s →
      s.get .maxNesting = some 9) ∧
    ((layered unset).setVariable "GOAST_TREE_MAX_NESTING" (some "4294967296")).loadSettings "."
        (some keeping) =
      ((layered unset).setVariable "GOAST_TREE_MAX_NESTING" none).loadSettings "."
        (some keeping) ∧
    ∃ message, ∀ others, (layered unset).loadSettings "broken" others =
      .error (.unreadable "broken/goast.toml" message) := by
  have hfile : ofProject ((layered ⟨some 0, some false, none, some 9⟩).settingsFile? ".") =
      .ok ⟨some 0, some false, none, some 9⟩ := ofProject_layered rfl
  have hother : ofProject ((layered ⟨some 7, some false, none, some 9⟩).settingsFile? ".") =
      .ok ⟨some 7, some false, none, some 9⟩ := ofProject_layered rfl
  have hthird : ofProject ((layered ⟨none, none, some false, some 9⟩).settingsFile? ".") =
      .ok ⟨none, none, some false, some 9⟩ := ofProject_layered rfl
  obtain ⟨-, hresolves, -, -, hhidden, hapart⟩ := loadSettings_by_priority
    (layered ⟨some 0, some false, none, some 9⟩) "." (some keeping)
  obtain ⟨-, -, -, hnothing, -, -⟩ := loadSettings_by_priority (layered unset) "." (some keeping)
  obtain ⟨hrefused, -⟩ := loadSettings_by_priority (layered unset) "broken" none
  obtain ⟨s, hs⟩ := hresolves _ hfile
  have hforce : s = ⟨some 5000, some false, some true, some 9⟩ := by
    apply ext_get
    intro k
    rw [hs.highest]
    cases k <;> rfl
  subst hforce
  have hfirst := (hs.accepted _).2 ⟨rfl, by decide, by decide⟩
  refine ⟨hfirst, ?_, ?_, ?_, ?_⟩
  · refine hhidden _ _ _ _ hfile hother fun k => ?_
    cases k with
    | maxFileSize => exact .inr ⟨rfl, .inl rfl⟩
    | parallel => exact .inr ⟨rfl, .inr rfl⟩
    | includeComments => exact .inl rfl
    | maxNesting => exact .inr ⟨rfl, .inr rfl⟩
  · intro t ht
    exact (hapart _ "." none _ _ .maxNesting _ t hfile hthird rfl rfl rfl
      hfirst ht).symm
  · refine hnothing .maxNesting "4294967296" fun x hx => ?_
    have hparse : Setting.parse? .maxNesting "4294967296" = none := rfl
    cases hparse.symm.trans (parse?_eq_some_iff.2 hx)
  · have hread : read "broken/goast.toml" "[scan" =
        .error (.unreadable "broken/goast.toml" "the text is not TOML") := by
      with_unfolding_all rfl
    exact ⟨_, (hrefused _ _ _ (settingsFile?_broken unset) hread).2 (layered unset).bindings⟩

end Workspace

end UniformTree
