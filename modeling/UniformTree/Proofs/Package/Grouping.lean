import Mathlib.Data.List.Induction
import UniformTree.Package.Grouping
import UniformTree.Proofs.Text.Names
/-!
# Groups of files

Adding a file to its group changes what is looked up under its name and nothing else. So the groups
of files hold, in ascending order of the names, under each name the files of that name in the order
in which they came, and no name without a file.
-/

namespace UniformTree

namespace Package

variable {groups : List FileGroup} {files : List File} {f : File} {g : FileGroup} {k : String}

/-- The files of a name. -/
def named (k : String) (files : List File) : List File := files.filter fun f => f.name.name == k

/-! ## Adding a file -/

theorem fst_of_mem_addFile (h : g ∈ addFile f groups) :
    g.1 = f.name.name ∨ ∃ old ∈ groups, old.1 = g.1 := by
  induction groups with
  | nil =>
    rw [addFile, List.mem_singleton] at h
    exact .inl (congrArg Prod.fst h)
  | cons old groups ih =>
    rw [addFile] at h
    split at h
    · rcases List.mem_cons.1 h with rfl | h
      · exact .inr ⟨old, List.mem_cons_self, rfl⟩
      · exact .inr ⟨g, List.mem_cons_of_mem old h, rfl⟩
    · split at h
      · rcases List.mem_cons.1 h with rfl | h
        · exact .inl rfl
        · exact .inr ⟨g, h, rfl⟩
      · rcases List.mem_cons.1 h with rfl | h
        · exact .inr ⟨_, List.mem_cons_self, rfl⟩
        · rcases ih h with hname | ⟨o, ho, hfst⟩
          · exact .inl hname
          · exact .inr ⟨o, List.mem_cons_of_mem old ho, hfst⟩

/-- **Step.** The names stay in ascending order. -/
theorem ascending_addFile (h : Ascending groups) (f : File) : Ascending (addFile f groups) := by
  induction groups with
  | nil => exact List.pairwise_singleton _ _
  | cons old groups ih =>
    obtain ⟨hold, htail⟩ := List.pairwise_cons.1 h
    rw [addFile]
    split
    · exact List.pairwise_cons.2 ⟨hold, htail⟩
    · rename_i hne
      split
      · rename_i hlt
        refine List.pairwise_cons.2 ⟨?_, h⟩
        intro g hg
        rcases List.mem_cons.1 hg with rfl | hg
        · exact hlt
        · exact String.lt_trans hlt (hold g hg)
      · rename_i hge
        refine List.pairwise_cons.2 ⟨?_, ih htail⟩
        intro g hg
        rcases fst_of_mem_addFile hg with hname | ⟨o, ho, hfst⟩
        · have hle : old.1 ≤ f.name.name := String.not_lt.1 hge
          exact hname ▸ Std.lt_of_le_of_ne hle hne
        · exact hfst ▸ hold o ho

/-- **Step.** The file comes to the end of its group, and the other groups stay. -/
theorem lookup_addFile (h : Ascending groups) (f : File) (k : String) :
    (addFile f groups).lookup k =
      if k = f.name.name then some ((groups.lookup k).getD [] ++ [f]) else groups.lookup k := by
  induction groups with
  | nil =>
    rw [addFile]
    split
    · rename_i hk
      rw [hk, lookup_cons_self]
      rfl
    · rename_i hk
      exact lookup_cons_ne hk _ _
  | cons old groups ih =>
    obtain ⟨name, fs⟩ := old
    rw [addFile]
    by_cases hname : name = f.name.name
    · rw [if_pos hname]
      split
      · rename_i hk
        rw [hk, ← hname, lookup_cons_self, lookup_cons_self]
        rfl
      · rename_i hk
        have hk : k ≠ name := hname ▸ hk
        rw [lookup_cons_ne hk, lookup_cons_ne hk]
    · rw [if_neg hname]
      by_cases hlt : f.name.name < name
      · rw [if_pos hlt]
        split
        · rename_i hk
          rw [hk, lookup_cons_self, lookup_of_lt h hlt]
          rfl
        · rename_i hk
          exact lookup_cons_ne hk _ _
      · rw [if_neg hlt]
        by_cases hk : k = name
        · rw [hk, if_neg hname, lookup_cons_self, lookup_cons_self]
        · rw [lookup_cons_ne hk, lookup_cons_ne hk]
          exact ih (List.pairwise_cons.1 h).2

/-- **Step.** No file is lost or added twice. -/
theorem flatMap_addFile (f : File) (groups : List FileGroup) :
    ((addFile f groups).flatMap (·.2)).Perm (groups.flatMap (·.2) ++ [f]) := by
  induction groups with
  | nil => exact .refl _
  | cons old groups ih =>
    rw [addFile]
    split
    · simp only [List.flatMap_cons, List.append_assoc]
      exact List.perm_append_comm.append_left old.2
    · split
      · exact @List.perm_append_comm _ [f] _
      · simp only [List.flatMap_cons, List.append_assoc]
        exact ih.append_left old.2

/-! ## Groups of files -/

theorem group_concat (files : List File) (f : File) :
    group (files ++ [f]) = addFile f (group files) := by
  rw [group, group, List.foldl_append]
  rfl

theorem named_concat (k : String) (files : List File) (f : File) :
    named k (files ++ [f]) = if k = f.name.name then named k files ++ [f] else named k files := by
  rw [named, named, List.filter_append]
  by_cases hk : k = f.name.name
  · have hlast : [f].filter (fun f => f.name.name == k) = [f] := by simp [hk]
    rw [if_pos hk, hlast]
  · have hlast : [f].filter (fun f => f.name.name == k) = [] := by simp [Ne.symm hk]
    rw [if_neg hk, hlast, List.append_nil]

/-- **Run.** The names of the groups are in ascending order. -/
theorem ascending_group (files : List File) : Ascending (group files) := by
  induction files using List.reverseRecOn with
  | nil => exact .nil
  | append_singleton files f ih =>
    rw [group_concat]
    exact ascending_addFile ih f

/-- **Run.** Under a name are the files of that name, if there are any. -/
theorem lookup_group (files : List File) (k : String) :
    (group files).lookup k = if named k files = [] then none else some (named k files) := by
  induction files using List.reverseRecOn with
  | nil => rfl
  | append_singleton files f ih =>
    rw [group_concat, lookup_addFile (ascending_group files), named_concat, ih]
    by_cases hk : k = f.name.name
    · rw [if_pos hk, if_pos hk, if_neg (List.concat_ne_nil _ _)]
      by_cases hnil : named k files = []
      · rw [if_pos hnil, hnil]
        rfl
      · rw [if_neg hnil]
        rfl
    · rw [if_neg hk, if_neg hk]

/-- **Run.** The groups hold the files, each of them once. -/
theorem flatMap_group (files : List File) : ((group files).flatMap (·.2)).Perm files := by
  induction files using List.reverseRecOn with
  | nil => exact .nil
  | append_singleton files f ih =>
    rw [group_concat]
    exact (flatMap_addFile f (group files)).trans (ih.append_right [f])

/-- The groups are the names of files, each with its files. -/
theorem mem_group : g ∈ group files ↔ g.2 = named g.1 files ∧ g.2 ≠ [] := by
  have hlookup := lookup_group files g.1
  constructor
  · intro hg
    rw [lookup_of_mem (ascending_group files) hg] at hlookup
    split at hlookup
    · cases hlookup
    · rename_i hne
      have heq : g.2 = named g.1 files := Option.some.inj hlookup
      exact ⟨heq, heq ▸ hne⟩
  · rintro ⟨heq, hne⟩
    rw [if_neg (heq ▸ hne), ← heq] at hlookup
    obtain ⟨before, after, hgroups, _⟩ := List.lookup_eq_some_iff.1 hlookup
    rw [hgroups]
    exact List.mem_append_right before List.mem_cons_self

end Package

end UniformTree
