import Mathlib.Algebra.Ring.Nat
import UniformTree.Proofs.Toml.Sections
import UniformTree.Settings.Toml
/-!
# Settings through TOML

Settings are written as a document of two sections, so they are read back as they were
(`read_text`). What is not written is a size that TOML has no integer for, and what is not accepted
afterwards is what would not have been accepted before.
-/

namespace UniformTree

namespace Settings

open Toml (Line Section document integerLimit Reads)

/-! ## The written sections -/

/-- The line of a setting, if it is made. -/
def lineOf {α : Type} (key : String) (write : α → String) (value : α → Toml.Value)
    (setting : Option α) : List Line :=
  (setting.map fun x => ⟨key, (write x).toList, value x⟩).toList

/-- The lines of the settings for listing files. -/
def scanLines (s : Settings) : List Line :=
  lineOf "max_file_size" (fun n => Text.decimal n.toNat) (.integer ·.toNat) s.maxFileSize ++
    lineOf "parallel" flag .boolean s.parallel

/-- The lines of the settings for what is kept of a source. -/
def treeLines (s : Settings) : List Line :=
  lineOf "include_comments" flag .boolean s.includeComments ++
    lineOf "max_nesting" (fun n => Text.decimal n.toNat) (.integer ·.toNat) s.maxNesting

/-- The sections as which settings are written. -/
def sections (s : Settings) : List Section := [⟨"scan", s.scanLines⟩, ⟨"tree", s.treeLines⟩]

section Lines

variable {α β : Type} {key name : String} {write : α → String} {value : α → Toml.Value}

theorem toList_settingLine (key : String) (write : α → String) (value : α → Toml.Value)
    (setting : Option α) :
    (settingLine key write setting).toList =
      (lineOf key write value setting).flatMap Line.written := by
  cases setting with
  | none => rfl
  | some x => simp [settingLine, lineOf, Line.written]

theorem sound_lineOf {setting : Option α} (hkey : Toml.IsBareKey key)
    (hreads : ∀ x ∈ setting, Reads (write x).toList (value x)) :
    ∀ l ∈ lineOf key write value setting, l.Sound := by
  intro l hl
  rw [lineOf, Option.mem_toList] at hl
  obtain ⟨x, hx, rfl⟩ := Option.map_eq_some_iff.1 hl
  exact ⟨hkey, hreads x hx⟩

theorem keys_lineOf (setting : Option α) :
    ((lineOf key write value setting).map (·.key)).Sublist [key] := by
  cases setting with
  | none => exact List.nil_sublist [key]
  | some x => exact List.Sublist.refl [key]

theorem lookup_lineOf (setting : Option α) :
    ((lineOf key write value setting).map Line.entry).lookup key = setting.map value := by
  cases setting with
  | none => rfl
  | some x => exact lookup_cons_self key (value x) []

theorem lookup_lineOf_ne (h : name ≠ key) (setting : Option α) :
    ((lineOf key write value setting).map Line.entry).lookup name = none := by
  cases setting with
  | none => rfl
  | some x => exact lookup_cons_ne h (value x) []

theorem setting?_map {read : Toml.Value → Option β} {f : α → β}
    (h : ∀ x, read (value x) = some (f x)) (setting : Option α) :
    setting? read (setting.map value) = some (setting.map f) := by
  cases setting with
  | none => rfl
  | some x => simp [setting?, h]

end Lines

theorem toList_text (s : Settings) : s.text.toList = document s.sections := by
  have hsize := toList_settingLine "max_file_size" (fun n : UInt64 => Text.decimal n.toNat)
    (.integer ·.toNat) s.maxFileSize
  have hparallel := toList_settingLine "parallel" flag .boolean s.parallel
  have hcomments := toList_settingLine "include_comments" flag .boolean s.includeComments
  have hnesting := toList_settingLine "max_nesting" (fun n : UInt32 => Text.decimal n.toNat)
    (.integer ·.toNat) s.maxNesting
  simp [text, sections, scanLines, treeLines, document, Section.written, hsize, hparallel,
    hcomments, hnesting]

/-! ## Reading them back -/

theorem reads_flag (yes : Bool) : Reads (flag yes).toList (.boolean yes) := by
  cases yes with
  | false => exact Toml.reads_false
  | true => exact Toml.reads_true

theorem reads_decimal {n : Nat} (h : n < integerLimit) :
    Reads (Text.decimal n).toList (.integer n) := by
  rw [Text.decimal, String.toList_ofList]
  exact Toml.reads_digits h

theorem sound_sections {s : Settings} (h : ∀ n ∈ s.maxFileSize, n.toNat < integerLimit) :
    ∀ t ∈ s.sections, t.Sound := by
  have hnesting (n : UInt32) : n.toNat < integerLimit :=
    Nat.lt_trans n.toNat_lt_size (by decide)
  intro t ht
  rcases List.mem_pair.1 ht with rfl | rfl
  · constructor
    · show Toml.IsBareKey "scan"
      decide
    · intro l hl
      rcases List.mem_append.1 hl with hl | hl
      · exact sound_lineOf (by decide) (fun n hn => reads_decimal (h n hn)) l hl
      · exact sound_lineOf (by decide) (fun yes _ => reads_flag yes) l hl
    · show ((scanLines s).map (·.key)).Nodup
      rw [scanLines, List.map_append]
      exact List.Nodup.sublist ((keys_lineOf _).append (keys_lineOf _)) (by decide)
  · constructor
    · show Toml.IsBareKey "tree"
      decide
    · intro l hl
      rcases List.mem_append.1 hl with hl | hl
      · exact sound_lineOf (by decide) (fun yes _ => reads_flag yes) l hl
      · exact sound_lineOf (by decide) (fun n _ => reads_decimal (hnesting n)) l hl
    · show ((treeLines s).map (·.key)).Nodup
      rw [treeLines, List.map_append]
      exact List.Nodup.sublist ((keys_lineOf _).append (keys_lineOf _)) (by decide)

/-- The document that is written holds the two tables. -/
theorem read?_text {s : Settings} (h : ∀ n ∈ s.maxFileSize, n.toNat < integerLimit) :
    Toml.read? s.text = some ⟨.header, s.sections.map Section.entry⟩ := by
  have hmark : Toml.skipMark (document s.sections) = document s.sections := rfl
  have hnames : (s.sections.map (·.name)).Nodup := by
    show ["scan", "tree"].Nodup
    decide
  rw [Toml.read?, toList_text, hmark]
  exact Toml.readFrom_document (sound_sections h) hnames

/-! ## The settings in the tables -/

theorem natural?_integer {bound n : Nat} (h : n < bound) :
    natural? bound (.integer n) = some n := if_pos h

theorem setting?_boolean (setting : Option Bool) :
    setting? boolean? (setting.map .boolean) = some setting := by
  cases setting <;> rfl

theorem lookup_scanLines (s : Settings) :
    (s.scanLines.map Line.entry).lookup "max_file_size" =
        s.maxFileSize.map (fun n => .integer n.toNat) ∧
      (s.scanLines.map Line.entry).lookup "parallel" = s.parallel.map .boolean := by
  simp only [scanLines, List.map_append, List.lookup_append, lookup_lineOf]
  rw [lookup_lineOf_ne (by decide), lookup_lineOf_ne (by decide)]
  exact ⟨Option.or_none, Option.none_or⟩

theorem lookup_treeLines (s : Settings) :
    (s.treeLines.map Line.entry).lookup "include_comments" = s.includeComments.map .boolean ∧
      (s.treeLines.map Line.entry).lookup "max_nesting" =
        s.maxNesting.map (fun n => .integer n.toNat) := by
  simp only [treeLines, List.map_append, List.lookup_append, lookup_lineOf]
  rw [lookup_lineOf_ne (by decide), lookup_lineOf_ne (by decide)]
  exact ⟨Option.or_none, Option.none_or⟩

/-- In the two tables each setting is found again. -/
theorem ofEntries?_sections (s : Settings) :
    ofEntries? (s.sections.map Section.entry) = some s := by
  have hsize : setting? (natural? UInt64.size)
      (s.maxFileSize.map fun n => .integer n.toNat) = some (s.maxFileSize.map (·.toNat)) :=
    setting?_map (fun n => natural?_integer n.toNat_lt_size) s.maxFileSize
  have hnesting : setting? (natural? UInt32.size)
      (s.maxNesting.map fun n => .integer n.toNat) = some (s.maxNesting.map (·.toNat)) :=
    setting?_map (fun n => natural?_integer n.toNat_lt_size) s.maxNesting
  have hscan : (s.sections.map Section.entry).lookup "scan" =
      some (.table .header (s.scanLines.map Line.entry)) := rfl
  have htree : (s.sections.map Section.entry).lookup "tree" =
      some (.table .header (s.treeLines.map Line.entry)) := rfl
  obtain ⟨hsizeAt, hparallelAt⟩ := lookup_scanLines s
  obtain ⟨hcommentsAt, hnestingAt⟩ := lookup_treeLines s
  have hwide : (UInt64.ofNat ∘ fun n : UInt64 => n.toNat) = id := by
    funext n
    exact UInt64.ofNat_toNat
  have hnarrow : (UInt32.ofNat ∘ fun n : UInt32 => n.toNat) = id := by
    funext n
    exact UInt32.ofNat_toNat
  unfold ofEntries?
  rw [hscan, htree]
  simp [section?, record?, Record.field?, hsizeAt, hparallelAt, hcommentsAt, hnestingAt, hsize,
    hnesting, setting?_boolean, hwide, hnarrow]

/-- Settings that can be written are read back, whether they are permitted or not. -/
theorem read_text {s : Settings} (h : ∀ n ∈ s.maxFileSize, n.toNat < integerLimit) (path : String) :
    read path s.text = .ok s := by
  rw [read, read?_text h]
  simp only [ofEntries?_sections]

/-! ## From settings to text and back -/

/-- Settings are written unless the size has no integer. -/
theorem toToml_eq (s : Settings) :
    (∃ n ∈ s.maxFileSize, integerLimit ≤ n.toNat) ∧
        s.toToml = .error (.unreadable "<serialization>" "a number is too great") ∨
      (∀ n ∈ s.maxFileSize, n.toNat < integerLimit) ∧ s.toToml = .ok s.text := by
  unfold toToml
  cases s.maxFileSize with
  | none => exact .inr ⟨fun n hn => absurd hn (Option.not_mem_none n), rfl⟩
  | some n =>
    by_cases h : integerLimit ≤ n.toNat
    · exact .inl ⟨⟨n, rfl, h⟩, if_pos (by simpa using h)⟩
    · refine .inr ⟨?_, if_neg (by simpa using h)⟩
      rintro m ⟨⟩
      exact Nat.lt_of_not_le h

theorem ofToml_text {s : Settings} (h : ∀ n ∈ s.maxFileSize, n.toNat < integerLimit) :
    ofToml s.text = s.validate := by
  rw [ofToml, read_text h]
  rfl

/-- Settings of any values, permitted or not, can be written exactly if the size of a file, where it
is set, is an integer of 64 bits with a sign; otherwise writing is what fails. What was written is
read as the same settings if they are permitted, and if not it is refused for the reason for which
they are refused. -/
theorem ofToml_toToml (s : Settings) :
    ((∃ e, s.toToml = .error e) ↔ ∃ n, s.maxFileSize = some n ∧ 2 ^ 63 - 1 < n.toNat) ∧
    (∀ e, s.toToml = .error e → ∃ message, e = .unreadable "<serialization>" message) ∧
    ∀ written, s.toToml = .ok written →
      (∀ t, s.validate = .ok t → ofToml written = .ok s) ∧
      ∀ e, s.validate = .error e →
        ofToml written = .error e ∧ ∃ field message, e = .invalid field message := by
  have hlimit : integerLimit = 2 ^ 63 := rfl
  rcases toToml_eq s with ⟨⟨n, hn, hgreat⟩, htoml⟩ | ⟨hfits, htoml⟩
  · rw [htoml]
    refine ⟨⟨fun _ => ⟨n, hn, by omega⟩, fun _ => ⟨_, rfl⟩⟩, ?_, ?_⟩
    · intro e he
      cases he
      exact ⟨_, rfl⟩
    · intro written hwritten
      cases hwritten
  · rw [htoml]
    refine ⟨⟨?_, ?_⟩, ?_, ?_⟩
    · rintro ⟨e, he⟩
      cases he
    · rintro ⟨n, hn, hgreat⟩
      have hsmall := hfits n hn
      omega
    · intro e he
      cases he
    · intro written hwritten
      cases hwritten
      rw [ofToml_text hfits]
      constructor
      · intro t ht
        rw [ht, (validate_eq_ok_iff.1 ht).2]
      · intro e he
        refine ⟨he, ?_⟩
        rcases invalid?_eq_some_iff.1 (validate_eq_error_iff.1 he) with ⟨-, rfl⟩ | ⟨-, -, rfl⟩
        · exact ⟨_, _, rfl⟩
        · exact ⟨_, _, rfl⟩

/-- The greatest integer as a size, with a limit and a flag; one more than that; and a limit of
zero. -/
theorem ofToml_extremes :
    ofToml (text ⟨some 9223372036854775807, some false, none, some 7⟩) =
      .ok ⟨some 9223372036854775807, some false, none, some 7⟩ ∧
    (∃ e, toToml ⟨some 9223372036854775808, none, some true, none⟩ = .error e) ∧
    ofToml (text ⟨none, none, some true, some 0⟩) = .error (mustBePositive "tree.max_nesting") := by
  obtain ⟨-, -, hgreatest⟩ := ofToml_toToml ⟨some 9223372036854775807, some false, none, some 7⟩
  obtain ⟨hfails, -, -⟩ := ofToml_toToml ⟨some 9223372036854775808, none, some true, none⟩
  obtain ⟨-, -, hzero⟩ := ofToml_toToml ⟨none, none, some true, some 0⟩
  refine ⟨(hgreatest _ rfl).1 _ rfl, hfails.2 ⟨_, rfl, by decide⟩, ((hzero _ rfl).2 _ rfl).1⟩

end Settings

end UniformTree
