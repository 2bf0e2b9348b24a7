import MotifSearch.Corpus.FileTree
import MotifSearch.Proofs.Text.Bytes

/-!
# Walking through a directory tree

The walk lists every file of a tree once, by the path that leads to it without following a link. Two
files are listed in the order of their names in the directory in which their paths part, so what is
below a directory comes in one piece.

## Main definitions

* `FileTree.IsProper` — trees in which every name leads to one thing
* `FilePath.Precedes` — the order of the walk

## Main results

* `IsProper.insert` — putting something at a path keeps a tree proper
* `mem_files_iff` — which files are listed
* `pairwise_files` — in which order
-/

namespace MotifSearch

namespace FilePath

/-- One path comes before another if its name has smaller bytes in the directory in which they
part. -/
def Precedes (first second : FilePath) : Prop :=
  ∃ (common : FilePath) (name other : List Char) (rest rest' : FilePath),
    first = common ++ name :: rest ∧ second = common ++ other :: rest' ∧
      Text.utf8 name < Text.utf8 other

namespace Precedes

variable {first second : FilePath}

theorem of_lt {name other : List Char} (h : name < other) (rest rest' : FilePath) :
    Precedes (name :: rest) (other :: rest') :=
  ⟨[], name, other, rest, rest', rfl, rfl, Text.utf8_lt_utf8 h⟩

/-- Paths that go on from the same place are compared by what follows it. -/
theorem append (h : Precedes first second) (path : FilePath) :
    Precedes (path ++ first) (path ++ second) := by
  obtain ⟨common, name, other, rest, rest', rfl, rfl, hlt⟩ := h
  exact ⟨path ++ common, name, other, rest, rest', (List.append_assoc ..).symm,
    (List.append_assoc ..).symm, hlt⟩

theorem ne (h : Precedes first second) : first ≠ second := by
  obtain ⟨common, name, other, rest, rest', rfl, rfl, hlt⟩ := h
  intro heq
  obtain ⟨rfl, -⟩ := List.cons.inj (List.append_cancel_left heq)
  exact List.lt_irrefl _ hlt

end Precedes

end FilePath

namespace FileTree

mutual

/-- Whether every name leads to one thing: no directory has two entries of one name, or an entry
with the name that leads up. -/
def IsProper : FileTree → Prop
  | directory entries => (entries.map Prod.fst).Nodup ∧ EntriesProper entries
  | file _ | link _ => True

/-- Whether this is so below each of the entries of a directory. -/
def EntriesProper : List (List Char × FileTree) → Prop
  | [] => True
  | (name, tree) :: entries => name ≠ ['.', '.'] ∧ tree.IsProper ∧ EntriesProper entries

end

variable {tree : FileTree} {name : List Char} {path : FilePath} {bytes : ByteArray}
  {entries : List (List Char × FileTree)}

theorem entriesProper_iff :
    EntriesProper entries ↔ ∀ entry ∈ entries, entry.1 ≠ ['.', '.'] ∧ entry.2.IsProper := by
  induction entries with
  | nil => simp [EntriesProper]
  | cons entry entries ih =>
    obtain ⟨name, tree⟩ := entry
    simp [EntriesProper, ih, and_assoc]

theorem entriesFiles_eq_map :
    entriesFiles entries = entries.map fun entry =>
      (entry.1, entry.2.files.map fun file => (entry.1 :: file.1, file.2)) := by
  induction entries with
  | nil => rfl
  | cons entry entries ih =>
    obtain ⟨name, tree⟩ := entry
    rw [entriesFiles, ih, List.map_cons]

theorem lookup_append (tree : FileTree) (path rest : FilePath) :
    tree.lookup (path ++ rest) = (tree.lookup path).bind (·.lookup rest) := by
  induction path generalizing tree with
  | nil => rfl
  | cons name path ih =>
    rw [List.cons_append, lookup, lookup, Option.bind_assoc]
    exact congrArg _ (funext fun found => ih found)

/-- In a list without repeated names, looking up a name finds its entry. -/
theorem lookup_eq_some_iff (hnames : (entries.map Prod.fst).Nodup) :
    entries.lookup name = some tree ↔ (name, tree) ∈ entries := by
  induction entries with
  | nil => simp
  | cons entry entries ih =>
    obtain ⟨other, found⟩ := entry
    rw [List.map_cons, List.nodup_cons] at hnames
    rw [List.lookup_cons, List.mem_cons, Prod.mk.injEq]
    by_cases h : name = other
    · subst h
      have hnot : (name, tree) ∉ entries := fun hmem =>
        hnames.1 (List.mem_map.mpr ⟨_, hmem, rfl⟩)
      simp [hnot, eq_comm]
    · simp [h, beq_eq_false_iff_ne.mpr h, ih hnames.2]

section Lookup

/-- Only a directory has something below it. -/
theorem exists_of_lookup_cons {found : FileTree} (h : tree.lookup (name :: path) = some found) :
    ∃ entries sub, tree = directory entries ∧ entries.lookup name = some sub ∧
      sub.lookup path = some found := by
  obtain ⟨sub, hsub, hfound⟩ := Option.bind_eq_some_iff.mp h
  cases tree with
  | directory entries => exact ⟨entries, sub, rfl, hsub, hfound⟩
  | file bytes | link target => cases hsub

theorem IsProper.of_entry (h : (directory entries).IsProper) (hentry : (name, tree) ∈ entries) :
    name ≠ ['.', '.'] ∧ tree.IsProper :=
  entriesProper_iff.mp h.2 (name, tree) hentry

/-- What is inside of a proper tree is proper, and no name on the way leads up. -/
theorem IsProper.of_lookup {found : FileTree} (h : tree.IsProper)
    (hfound : tree.lookup path = some found) : ['.', '.'] ∉ path ∧ found.IsProper := by
  induction path generalizing tree with
  | nil =>
    cases hfound
    exact ⟨List.not_mem_nil, h⟩
  | cons name path ih =>
    obtain ⟨entries, sub, rfl, hsub, hrest⟩ := exists_of_lookup_cons hfound
    obtain ⟨hname, hproper⟩ := h.of_entry ((lookup_eq_some_iff h.1).mp hsub)
    obtain ⟨hpath, hproper⟩ := ih hproper hrest
    exact ⟨by simp [hpath, Ne.symm hname], hproper⟩

end Lookup

section Insert

theorem mem_setEntry {entry : List Char × FileTree} (h : entry ∈ setEntry name tree entries) :
    entry = (name, tree) ∨ entry ∈ entries := by
  fun_induction setEntry name tree entries with
  | case1 => exact .inl (List.mem_singleton.mp h)
  | case2 old entries =>
    rcases List.mem_cons.mp h with h | h
    · exact .inl h
    · exact .inr (List.mem_cons_of_mem _ h)
  | case3 other old entries _ ih =>
    rcases List.mem_cons.mp h with h | h
    · exact .inr (h ▸ List.mem_cons_self)
    · exact (ih h).imp_right (List.mem_cons_of_mem _)

theorem nodup_setEntry (h : (entries.map Prod.fst).Nodup) :
    ((setEntry name tree entries).map Prod.fst).Nodup := by
  fun_induction setEntry name tree entries with
  | case1 => exact List.pairwise_singleton _ name
  | case2 => exact h
  | case3 other old entries hne ih =>
    obtain ⟨hother, hrest⟩ := List.nodup_cons.mp h
    refine List.nodup_cons.mpr ⟨fun hmem => ?_, ih hrest⟩
    obtain ⟨entry, hentry, heq⟩ := List.mem_map.mp hmem
    rcases mem_setEntry hentry with rfl | hold
    · exact hne heq.symm
    · exact hother (heq ▸ List.mem_map_of_mem hold)

/-- Trees that are built by putting proper things at paths are proper. -/
theorem IsProper.insert {new : FileTree} (hnew : new.IsProper) (h : tree.IsProper)
    (hpath : ['.', '.'] ∉ path) : (insert new path tree).IsProper := by
  fun_induction FileTree.insert new path tree with
  | case1 => exact h
  | case2 => exact hnew
  | case3 name path entries ih =>
    obtain ⟨hname, hpath⟩ := not_or.mp (mt List.mem_cons.mpr hpath)
    -- What is put below the name comes to what is there already, or to a new directory.
    have hbelow : ((entries.lookup name).getD empty).IsProper := by
      cases hlookup : entries.lookup name with
      | none => exact ⟨List.nodup_nil, trivial⟩
      | some tree => exact (h.of_entry ((lookup_eq_some_iff h.1).mp hlookup)).2
    refine ⟨nodup_setEntry h.1, entriesProper_iff.mpr fun entry hentry => ?_⟩
    rcases mem_setEntry hentry with rfl | hold
    · exact ⟨Ne.symm hname, ih hbelow hpath⟩
    · exact h.of_entry hold
  | case4 => exact h

end Insert

/-- The files in a directory are those in its entries, below their names. -/
theorem mem_files_directory_iff : (path, bytes) ∈ (directory entries).files ↔
    ∃ name tree rest, (name, tree) ∈ entries ∧ path = name :: rest ∧
      (rest, bytes) ∈ tree.files := by
  rw [files, entriesFiles_eq_map]
  simp only [List.mem_flatMap, List.mem_mergeSort, List.mem_map, Prod.exists, Prod.mk.injEq]
  constructor
  · rintro ⟨name, listed, ⟨other, tree, hentry, rfl, rfl⟩, hfile⟩
    simp only [List.mem_map, Prod.exists, Prod.mk.injEq] at hfile
    obtain ⟨rest, _, hrest, rfl, rfl⟩ := hfile
    exact ⟨other, tree, rest, hentry, rfl, hrest⟩
  · rintro ⟨name, tree, rest, hentry, rfl, hrest⟩
    refine ⟨name, _, ⟨name, tree, hentry, rfl, rfl⟩, ?_⟩
    simp only [List.mem_map, Prod.exists, Prod.mk.injEq]
    exact ⟨rest, bytes, hrest, rfl, rfl⟩

/-- The walk finds the files that paths without links lead to. -/
theorem mem_files_iff (h : tree.IsProper) :
    (path, bytes) ∈ tree.files ↔ tree.lookup path = some (file bytes) := by
  induction path generalizing tree with
  | nil =>
    cases tree with
    | file other => simp [files, eq_comm]
    | link target => simp [files]
    | directory entries => simp [mem_files_directory_iff]
  | cons name path ih =>
    cases tree with
    | file other => simp [files, lookup, entries]
    | link target => simp [files, lookup, entries]
    | directory entries =>
      rw [mem_files_directory_iff, lookup, Option.bind_eq_some_iff]
      constructor
      · rintro ⟨name, tree, rest, hentry, heq, hrest⟩
        obtain ⟨rfl, rfl⟩ := List.cons.inj heq
        exact ⟨tree, (lookup_eq_some_iff h.1).mpr hentry, (ih (h.of_entry hentry).2).mp hrest⟩
      · rintro ⟨tree, htree, hrest⟩
        have hentry := (lookup_eq_some_iff h.1).mp htree
        exact ⟨name, tree, path, hentry, rfl, (ih (h.of_entry hentry).2).mpr hrest⟩

/-- What the entries of a directory have below them, in the order of the walk. -/
def sortedEntries (entries : List (List Char × FileTree)) :
    List (List Char × List (FilePath × ByteArray)) :=
  (entriesFiles entries).mergeSort fun first second => ¬ second.1 < first.1

theorem exists_of_mem_sortedEntries {found : List Char × List (FilePath × ByteArray)}
    (h : found ∈ sortedEntries entries) : ∃ entry ∈ entries,
      found = (entry.1, entry.2.files.map fun file => (entry.1 :: file.1, file.2)) := by
  rw [sortedEntries, List.mem_mergeSort, entriesFiles_eq_map] at h
  obtain ⟨entry, hentry, rfl⟩ := List.mem_map.mp h
  exact ⟨entry, hentry, rfl⟩

/-- The names are sorted, and none of them stands twice. -/
theorem pairwise_sortedEntries (hnames : (entries.map Prod.fst).Nodup) :
    (sortedEntries entries).Pairwise (·.1 < ·.1) := by
  -- Sorting only rules out that a smaller name comes later; that no two are the same is known.
  have hle : (sortedEntries entries).Pairwise fun first second =>
      decide (¬ second.1 < first.1) = true := by
    apply List.pairwise_mergeSort
    · intro first second third h h'
      exact decide_eq_true (List.le_trans (of_decide_eq_true h) (of_decide_eq_true h'))
    · intro first second
      rw [Bool.or_eq_true, decide_eq_true_iff, decide_eq_true_iff]
      exact List.le_total first.1 second.1
  have hne : (sortedEntries entries).Pairwise (·.1 ≠ ·.1) := by
    have hsame : (entriesFiles entries).map Prod.fst = entries.map Prod.fst := by
      rw [entriesFiles_eq_map, List.map_map]
      rfl
    have hperm := (List.mergeSort_perm (entriesFiles entries) fun first second =>
      decide (¬ second.1 < first.1)).map Prod.fst
    exact List.pairwise_map.mp (hperm.nodup_iff.mpr (hsame ▸ hnames))
  exact (hle.and hne).imp fun h =>
    (List.le_iff_lt_or_eq.mp (of_decide_eq_true h.1)).resolve_right h.2

/-- Entries without repeated names are sorted in one way only. -/
theorem files_directory_eq (listed : List (List Char × List (FilePath × ByteArray)))
    (hnames : (entries.map Prod.fst).Nodup) (hsorted : listed.Pairwise (·.1 < ·.1))
    (hperm : (entriesFiles entries).Perm listed) :
    (directory entries).files = listed.flatMap Prod.snd := by
  have heq : sortedEntries entries = listed :=
    List.Perm.eq_of_pairwise (fun _ _ _ _ hlt hgt => absurd hgt (List.lt_asymm hlt))
      (pairwise_sortedEntries hnames) hsorted ((List.mergeSort_perm _ _).trans hperm)
  exact congrArg (List.flatMap Prod.snd) heq

/-- The walk lists everything below one entry before what is below the next one. -/
theorem pairwise_files_directory (hnames : (entries.map Prod.fst).Nodup)
    (h : ∀ entry ∈ entries, entry.2.files.Pairwise (·.1.Precedes ·.1)) :
    (directory entries).files.Pairwise (·.1.Precedes ·.1) := by
  change ((sortedEntries entries).flatMap Prod.snd).Pairwise _
  rw [List.pairwise_flatMap]
  constructor
  · intro found hfound
    obtain ⟨entry, hentry, rfl⟩ := exists_of_mem_sortedEntries hfound
    exact List.pairwise_map.mpr ((h entry hentry).imp fun hfiles => hfiles.append [entry.1])
  · -- Files of different entries part at the names of these.
    refine (pairwise_sortedEntries hnames).imp_of_mem fun {first second} hfirst hsecond hlt => ?_
    obtain ⟨entry, -, rfl⟩ := exists_of_mem_sortedEntries hfirst
    obtain ⟨other, -, rfl⟩ := exists_of_mem_sortedEntries hsecond
    intro file hfile later hlater
    obtain ⟨_, -, rfl⟩ := List.mem_map.mp hfile
    obtain ⟨_, -, rfl⟩ := List.mem_map.mp hlater
    exact .of_lt hlt _ _

mutual

/-- The walk lists the files of a tree in the order of their paths. -/
theorem pairwise_files : (tree : FileTree) → tree.IsProper →
    tree.files.Pairwise (·.1.Precedes ·.1)
  | file _, _ => List.pairwise_singleton _ _
  | link _, _ => .nil
  | directory entries, h => pairwise_files_directory h.1 (pairwise_files_of_mem entries h.2)

theorem pairwise_files_of_mem : (entries : List (List Char × FileTree)) → EntriesProper entries →
    ∀ entry ∈ entries, entry.2.files.Pairwise (·.1.Precedes ·.1)
  | [], _, _, hentry => absurd hentry List.not_mem_nil
  | (_, tree) :: entries, h, _, hentry =>
    (List.mem_cons.mp hentry).elim (fun heq => heq ▸ pairwise_files tree h.2.1)
      (pairwise_files_of_mem entries h.2.2 _)

end

end FileTree

end MotifSearch
