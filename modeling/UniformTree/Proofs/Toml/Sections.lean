import Mathlib.Data.List.Nodup
import UniformTree.Proofs.Text.Names
import UniformTree.Proofs.Toml.Scalars
import UniformTree.Toml.Document
/-!
# Sections are read back

A document of sections, each a header in brackets and under it one line for each key, with an empty
line between two sections. As long as no section has the name of another one, and no key of a
section comes twice, it is read as the tables that it was written from (`readFrom_document`).
-/

namespace UniformTree.Toml

/-! ## What is written -/

/-- A key that needs no quotes. -/
def IsBareKey (k : String) : Prop := k.toList ≠ [] ∧ ∀ c ∈ k.toList, isBare c = true

instance (k : String) : Decidable (IsBareKey k) :=
  decidable_of_iff (k.toList ≠ [] ∧ k.toList.all isBare = true)
    (and_congr_right fun _ => List.all_eq_true)

/-- A key, the text after its equals sign, and the value that this is to be. -/
structure Line where
  key : String
  text : List Char
  value : Value

namespace Line

/-- The line as it is written. -/
def written (l : Line) : List Char := l.key.toList ++ ' ' :: '=' :: ' ' :: (l.text ++ ['\n'])

/-- The entry that the line makes. -/
def entry (l : Line) : String × Value := (l.key, l.value)

/-- The key needs no quotes and the text is read as the value. -/
structure Sound (l : Line) : Prop where
  bare : IsBareKey l.key
  reads : Reads l.text l.value

end Line

/-- The name of a table and the lines for its entries. -/
structure Section where
  name : String
  lines : List Line

namespace Section

/-- The section as it is written. -/
def written (s : Section) : List Char :=
  '[' :: (s.name.toList ++ ']' :: '\n' :: s.lines.flatMap Line.written)

/-- The table that the section makes. -/
def entry (s : Section) : String × Value := (s.name, .table .header (s.lines.map Line.entry))

/-- The name needs no quotes, the lines are sound and no key comes twice. -/
structure Sound (s : Section) : Prop where
  bare : IsBareKey s.name
  lines : ∀ l ∈ s.lines, l.Sound
  keys : (s.lines.map (·.key)).Nodup

end Section

/-- Sections with an empty line between them. -/
def document : List Section → List Char
  | [] => []
  | s :: ss => s.written ++ ss.flatMap fun t => '\n' :: t.written

/-! ## Keys -/

section Keys

variable {k : String} {c : Char} {s t rest : List Char}

theorem IsBareKey.exists_cons (h : IsBareKey k) :
    ∃ c cs, k.toList = c :: cs ∧ isBare c = true := by
  obtain ⟨hne, hall⟩ := h
  obtain ⟨c, cs, hk⟩ := List.exists_cons_of_ne_nil hne
  exact ⟨c, cs, hk, hall c (hk ▸ List.mem_cons_self)⟩

theorem keyPart_bare (hk : IsBareKey k) (hc : isBare c = false) :
    keyPart (k.toList ++ c :: s) = some (k, c :: s) := by
  obtain ⟨d, ds, hds, hd⟩ := hk.exists_cons
  have htake : (k.toList ++ c :: s).takeWhile isBare = k.toList := by
    rw [List.takeWhile_append_of_pos hk.2, List.takeWhile_cons_of_neg (by simp [hc]),
      List.append_nil]
  have hdrop : (k.toList ++ c :: s).dropWhile isBare = c :: s := by
    rw [List.dropWhile_append_of_pos hk.2, List.dropWhile_cons_of_neg (by simp [hc])]
  have hstring : String.ofList (d :: ds) = k := by rw [← hds, String.ofList_toList]
  rw [hds, List.cons_append] at htake hdrop ⊢
  rw [keyPart, htake]
  · simp only
    rw [hstring, hdrop]
  all_goals exact fun _ => cons_ne_of_class hd rfl

/-- A key with nothing after it that could belong to it. -/
theorem key_bare (hk : IsBareKey k) (hc : isBare c = false) (hs : skipSpace (c :: s) = t)
    (ht : ∀ r, t ≠ '.' :: r) : key (k.toList ++ c :: s) = some (([], k), t) := by
  have hspace : skipSpace (k.toList ++ c :: s) = k.toList ++ c :: s := by
    obtain ⟨d, ds, hds, hd⟩ := hk.exists_cons
    rw [hds, List.cons_append]
    exact skipSpace_of_class hd rfl rfl
  have hparts : keyParts (k.toList ++ c :: s) = some (([], k), t) := by
    rw [keyParts, hspace, keyPart_bare hk hc]
    simp only
    rw [hs]
    split
    next r => exact absurd rfl (ht r)
    next => rfl
  rw [key, hparts]
  rfl

end Keys

/-! ## Lines -/

section Lines

variable {l : Line} {d d' : Draft} {s t r rest : List Char} {c : Char}

theorem written_append (l : Line) (rest : List Char) :
    l.written ++ rest = l.key.toList ++ ' ' :: ('=' :: ' ' :: (l.text ++ '\n' :: rest)) := by
  simp [Line.written]

theorem entry_written (hl : l.Sound) (depth : Nat) (rest : List Char) :
    entry (value depth) (l.written ++ rest) = some (([], l.key, l.value), '\n' :: rest) := by
  have hkey : key (l.written ++ rest) =
      some (([], l.key), '=' :: ' ' :: (l.text ++ '\n' :: rest)) := by
    rw [written_append]
    exact key_bare hl.bare rfl rfl fun _ => by simp
  have hvalue := hl.reads depth rest
  rw [entry, hkey]
  show ((value depth (skipSpace (l.text ++ '\n' :: rest))).map _) = _
  rw [hvalue]
  rfl

theorem addEntry_written (hl : l.Sound) (d : Draft) (rest : List Char) :
    d.addEntry (l.written ++ rest) =
      (d.root.insertAt d.current [] l.key l.value).map fun root => ({ d with root }, rest) := by
  have hend : restOfLine? ('\n' :: rest) = some rest := rfl
  unfold Draft.addEntry
  rw [entry_written hl]
  simp only [Option.bind_eq_bind, Option.bind_some, hend]
  cases d.root.insertAt d.current [] l.key l.value <;> rfl

/-- There is no more filler than spaces and line breaks where no comment begins after them. -/
theorem skipFiller_of_skipBreaks (hs : skipBreaks s = c :: t) (hc : c ≠ '#') :
    skipFiller s = c :: t := by
  rw [skipFiller, hs]
  split
  next heq => exact absurd (List.cons.inj heq).1 hc
  next => rfl

theorem skipFiller_bare (hc : isBare c = true) : skipFiller (c :: s) = c :: s := by
  refine skipFiller_of_skipBreaks ?_ (ne_of_class hc rfl)
  rw [skipBreaks, isSpace_of_class hc rfl rfl]
  · rfl
  · exact ne_of_class hc rfl
  · exact fun _ heq => absurd heq (ne_of_class hc rfl)

theorem skipFiller_bracket (s : List Char) : skipFiller ('[' :: s) = '[' :: s :=
  skipFiller_of_skipBreaks (by simp [skipBreaks, isSpace]) (by decide)

theorem skipFiller_feed_bracket (s : List Char) : skipFiller ('\n' :: '[' :: s) = '[' :: s :=
  skipFiller_of_skipBreaks (by simp [skipBreaks, isSpace]) (by decide)

/-- A line that is read leaves the reading of the others. -/
theorem readFrom_line (hs : skipFiller s = c :: t) (h : d.line (c :: t) = some (d', r))
    (hr : r.length < s.length) : d.readFrom s = d'.readFrom r := by
  rw [Draft.readFrom, hs]
  simp only [h]
  rw [if_pos hr]

end Lines

/-! ## Tables -/

section Tables

variable {name k : String} {v w : Value} {done entries : List (String × Value)}

theorem putIn_of_not_mem (h : k ∉ entries.map (·.1)) :
    Table.putIn k v entries = entries ++ [(k, v)] := by
  induction entries with
  | nil => rfl
  | cons e es ih =>
    obtain ⟨hne, hes⟩ := not_or.1 (mt List.mem_cons.2 h)
    rw [Table.putIn, if_neg (Ne.symm hne), ih hes, List.cons_append]

theorem putIn_last (h : name ∉ done.map (·.1)) :
    Table.putIn name w (done ++ [(name, v)]) = done ++ [(name, w)] := by
  induction done with
  | nil => rw [List.nil_append, Table.putIn, if_pos rfl, List.nil_append]
  | cons e es ih =>
    obtain ⟨hne, hes⟩ := not_or.1 (mt List.mem_cons.2 h)
    rw [List.cons_append, Table.putIn, if_neg (Ne.symm hne), ih hes, List.cons_append]

theorem lookup_last (h : name ∉ done.map (·.1)) :
    (done ++ [(name, v)]).lookup name = some v := by
  rw [List.lookup_append, lookup_of_not_mem h, Option.none_or, lookup_cons_self]

theorem find?_of_not_mem {form : TableForm} (h : k ∉ entries.map (·.1)) :
    (Table.mk form entries).find? k = none :=
  lookup_of_not_mem h

/-- A new entry comes after those of the last table. -/
theorem insertAt_last (hname : name ∉ done.map (·.1)) (hk : k ∉ entries.map (·.1)) :
    (Table.mk .header (done ++ [(name, .table .header entries)])).insertAt [name] [] k v =
      some ⟨.header, done ++ [(name, .table .header (entries ++ [(k, v)]))]⟩ := by
  have hfind : (Table.mk .header (done ++ [(name, .table .header entries)])).find? name =
      some (.table .header entries) := lookup_last hname
  simp only [Table.insertAt, Table.insert, Table.alter, hfind, find?_of_not_mem hk]
  simp [Table.put, putIn_of_not_mem hk, putIn_last hname]

theorem openTable_new (hname : name ∉ done.map (·.1)) :
    (Table.mk .header done).openTable [] name =
      some ⟨.header, done ++ [(name, .table .header [])]⟩ := by
  simp only [Table.openTable, Table.alter, find?_of_not_mem hname, Table.put,
    putIn_of_not_mem hname]

end Tables

/-! ## Reading sections -/

section Reading

variable {d : Draft} {done entries : List (String × Value)} {name : String} {l : Line}
  {s : Section}

/-- A document as far as it has been read, in the middle of its last section. -/
def within (done : List (String × Value)) (name : String) (entries : List (String × Value)) :
    Draft :=
  ⟨⟨.header, done ++ [(name, .table .header entries)]⟩, [name]⟩

theorem not_mem_of_nodup {names later : List String} (h : (names ++ name :: later).Nodup) :
    name ∉ names :=
  fun hmem => (List.nodup_append.1 h).2.2 name hmem name List.mem_cons_self rfl

/-- A line adds its entry to the section that it stands in. -/
theorem readFrom_written (hl : l.Sound) (hname : name ∉ done.map (·.1))
    (hkey : l.key ∉ entries.map (·.1)) (rest : List Char) :
    (within done name entries).readFrom (l.written ++ rest) =
      (within done name (entries ++ [l.entry])).readFrom rest := by
  obtain ⟨c, cs, hk, hc⟩ := hl.bare.exists_cons
  have hadd : (within done name entries).addEntry (l.written ++ rest) =
      some (within done name (entries ++ [l.entry]), rest) := by
    rw [addEntry_written hl]
    simp only [within, insertAt_last hname hkey, Option.map_some]
    rfl
  have hlength : rest.length < (l.written ++ rest).length := by
    simp only [written_append, List.length_append, List.length_cons]
    omega
  obtain ⟨t, ht⟩ : ∃ t, l.written ++ rest = c :: t := by
    rw [written_append, hk]
    exact ⟨_, rfl⟩
  rw [ht] at hadd hlength ⊢
  refine readFrom_line (skipFiller_bare hc) ?_ hlength
  rw [Draft.line, hadd]
  · exact fun _ => cons_ne_of_class hc rfl
  · exact fun _ => cons_ne_of_class hc rfl

/-- Lines add their entries to the section that they stand in. -/
theorem readFrom_lines {ls : List Line} (hls : ∀ l ∈ ls, l.Sound) (hname : name ∉ done.map (·.1))
    (hkeys : (entries.map (·.1) ++ ls.map (·.key)).Nodup) (rest : List Char) :
    (within done name entries).readFrom (ls.flatMap Line.written ++ rest) =
      (within done name (entries ++ ls.map Line.entry)).readFrom rest := by
  induction ls generalizing entries with
  | nil => simp
  | cons l ls ih =>
    have hkey : l.key ∉ entries.map (·.1) := not_mem_of_nodup hkeys
    have hnext : ((entries ++ [l.entry]).map (·.1) ++ ls.map (·.key)).Nodup := by
      simpa [Line.entry] using hkeys
    rw [List.flatMap_cons, List.append_assoc,
      readFrom_written (hls l List.mem_cons_self) hname hkey,
      ih (fun m hm => hls m (List.mem_cons_of_mem l hm)) hnext, List.append_assoc]
    rfl

theorem line_header (hd : d.root = ⟨.header, done⟩) (hbare : IsBareKey name)
    (hname : name ∉ done.map (·.1)) (rest : List Char) :
    d.line ('[' :: (name.toList ++ ']' :: '\n' :: rest)) = some (within done name [], rest) := by
  obtain ⟨c, cs, hk, hc⟩ := hbare.exists_cons
  have hone (r : List Char) : name.toList ++ ']' :: '\n' :: rest ≠ '[' :: r := by
    rw [hk]
    exact cons_ne_of_class hc rfl
  have hkey : key (name.toList ++ ']' :: '\n' :: rest) = some (([], name), ']' :: '\n' :: rest) :=
    key_bare hbare rfl rfl fun _ => by simp
  have hclosing : word? [']'] (']' :: '\n' :: rest) = some ('\n' :: rest) := rfl
  have hend : restOfLine? ('\n' :: rest) = some rest := rfl
  have hopen : d.root.openTable [] name = some ⟨.header, done ++ [(name, .table .header [])]⟩ := by
    rw [hd]
    exact openTable_new hname
  rw [Draft.line, Draft.header, hkey]
  · simp only [Option.bind_eq_bind, Option.bind_some, hclosing, hend, hopen]
    rfl
  · exact fun r heq => hone r heq

/-- A section adds its table to those before it, whatever filler stands before its header. -/
theorem readFrom_section (hd : d.root = ⟨.header, done⟩) (hs : s.Sound)
    (hname : s.name ∉ done.map (·.1)) {lead : List Char}
    (hlead : ∀ t, skipFiller (lead ++ '[' :: t) = '[' :: t) (rest : List Char) :
    d.readFrom (lead ++ (s.written ++ rest)) =
      (within done s.name (s.lines.map Line.entry)).readFrom rest := by
  have hwritten : s.written ++ rest = '[' :: (s.name.toList ++ ']' :: '\n' ::
      (s.lines.flatMap Line.written ++ rest)) := by
    simp [Section.written]
  have hlength : (s.lines.flatMap Line.written ++ rest).length <
      (lead ++ (s.written ++ rest)).length := by
    simp only [hwritten, List.length_append, List.length_cons]
    omega
  rw [hwritten] at hlength ⊢
  rw [readFrom_line (hlead _) (line_header hd hs.bare hname _) hlength]
  exact readFrom_lines hs.lines hname (by simpa using hs.keys) rest

/-- Sections add their tables to those before them. -/
theorem readFrom_sections {ss : List Section} (hd : d.root = ⟨.header, done⟩)
    (hss : ∀ s ∈ ss, s.Sound) (hnames : (done.map (·.1) ++ ss.map (·.name)).Nodup) :
    d.readFrom (ss.flatMap fun s => '\n' :: s.written) =
      some ⟨.header, done ++ ss.map Section.entry⟩ := by
  induction ss generalizing d done with
  | nil =>
    have hend : skipFiller [] = [] := by rw [skipFiller]; rfl
    rw [List.flatMap_nil, Draft.readFrom, hend, hd]
    simp
  | cons s ss ih =>
    have hname : s.name ∉ done.map (·.1) := not_mem_of_nodup hnames
    have hnext : ((done ++ [s.entry]).map (·.1) ++ ss.map (·.name)).Nodup := by
      simpa [Section.entry] using hnames
    have hlead (t : List Char) : skipFiller (['\n'] ++ '[' :: t) = '[' :: t :=
      skipFiller_feed_bracket t
    have hsection := readFrom_section hd (hss s List.mem_cons_self) hname hlead
      (ss.flatMap fun s => '\n' :: s.written)
    have hroot : (within done s.name (s.lines.map Line.entry)).root =
        ⟨.header, done ++ [s.entry]⟩ := rfl
    have hsections := ih hroot (fun t ht => hss t (List.mem_cons_of_mem s ht)) hnext
    rw [List.flatMap_cons, List.map_cons, List.append_cons done]
    exact hsection.trans hsections

/-- Sections that are written one after the other are read as their tables. -/
theorem readFrom_document {ss : List Section} (hss : ∀ s ∈ ss, s.Sound)
    (hnames : (ss.map (·.name)).Nodup) :
    Draft.empty.readFrom (document ss) = some ⟨.header, ss.map Section.entry⟩ := by
  have hroot : Draft.empty.root = ⟨.header, []⟩ := rfl
  cases ss with
  | nil => exact readFrom_sections hroot hss hnames
  | cons s ss =>
    have hlead (t : List Char) : skipFiller ([] ++ '[' :: t) = '[' :: t := skipFiller_bracket t
    have hsection := readFrom_section hroot (hss s List.mem_cons_self) List.not_mem_nil hlead
      (ss.flatMap fun s => '\n' :: s.written)
    have hnext : (within [] s.name (s.lines.map Line.entry)).root = ⟨.header, [s.entry]⟩ := rfl
    have hsections := readFrom_sections hnext (fun t ht => hss t (List.mem_cons_of_mem s ht)) hnames
    exact hsection.trans hsections

end Reading

end UniformTree.Toml
