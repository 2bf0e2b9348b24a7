import Mathlib.Data.List.TakeWhile
import MotifSearch.Proofs.Corpus.DenseIds
import MotifSearch.Proofs.Corpus.LineEnds
import MotifSearch.Proofs.Corpus.Resolution

/-!
# Importing a directory

The walk below a directory finds the kern files there, each of them once and in the order of their
names, and the import reads them one after the other. A file that has no score takes no id, so the
ids count the scores, and an import is nothing else than additions to the empty corpus.

## Main definitions

* `IsKernWalk` — which files are found, and in which order
* `isScoreFile` — the files that have a score
* `Corpus.IsImportOf` — the corpus that is made of files

## Main results

* `FilePath.extension?_eq_some_iff` — which names have an extension
* `exists_isKernWalk` — what is found below a directory
* `Corpus.IsDense.foldl_importFile` — files are added one by one
* `exists_import_of_directory` — every directory is imported as a whole
-/

namespace MotifSearch

namespace FilePath

variable {name stem ext : List Char} {path : FilePath}

theorem splitLast_eq_some_iff :
    splitLast name = some (stem, ext) ↔ name = stem ++ '.' :: ext ∧ '.' ∉ ext := by
  constructor
  · intro h
    have hwhole := List.takeWhile_append_dropWhile (p := (· ≠ '.')) (l := name.reverse)
    rw [splitLast] at h
    split at h
    · cases h
    · next point before hdrop =>
      -- What is passed over, from the end, stops at a point.
      have hpoint : point = '.' := by
        have hhead := List.head?_dropWhile_not (· ≠ '.') name.reverse
        rw [hdrop] at hhead
        simpa using hhead
      obtain ⟨rfl, rfl⟩ := Prod.mk.inj (Option.some.inj h)
      rw [hdrop, hpoint] at hwhole
      constructor
      · simpa using (congrArg List.reverse hwhole).symm
      · intro hmem
        simpa using List.mem_takeWhile_imp (List.mem_reverse.mp hmem)
  · rintro ⟨rfl, hext⟩
    exact splitLast_append hext

theorem snd_splitName_eq_some_iff : (splitName name).2 = some ext ↔
    ∃ stem, name = stem ++ '.' :: ext ∧ stem ≠ [] ∧ '.' ∉ ext := by
  unfold splitName
  constructor
  · intro h
    split at h
    · cases h
    · cases h
    · next stem rest hstem hsplit =>
      cases h
      obtain ⟨hname, hext⟩ := splitLast_eq_some_iff.mp hsplit
      exact ⟨stem, hname, hstem, hext⟩
  · rintro ⟨stem, hname, hstem, hext⟩
    obtain ⟨c, stem, rfl⟩ := List.exists_cons_of_ne_nil hstem
    rw [splitLast_eq_some_iff.mpr ⟨hname, hext⟩]

/-- The extension of a path stands behind the last point of its last name; a point at the beginning
of the name has no extension behind it. -/
theorem extension?_eq_some_iff (hext : ext ≠ []) : path.extension? = some ext ↔
    ∃ dir stem, path = dir ++ [stem ++ '.' :: ext] ∧ stem ≠ [] ∧ '.' ∉ ext := by
  rw [extension?, Option.bind_eq_some_iff]
  constructor
  · rintro ⟨name, hname, hsplit⟩
    obtain ⟨dir, rfl⟩ := List.getLast?_eq_some_iff.mp (Option.filter_eq_some_iff.mp hname).1
    obtain ⟨stem, rfl, hstem, hpoint⟩ := snd_splitName_eq_some_iff.mp hsplit
    exact ⟨dir, stem, rfl, hstem, hpoint⟩
  · rintro ⟨dir, stem, rfl, hstem, hpoint⟩
    -- The name that leads up has no two parts around a point.
    have hname : stem ++ '.' :: ext ≠ ['.', '.'] := by
      intro heq
      have hlength := congrArg List.length heq
      have hstem := List.length_pos_iff.mpr hstem
      have hext := List.length_pos_iff.mpr hext
      simp only [List.length_append, List.length_cons, List.length_nil] at hlength
      omega
    refine ⟨_, ?_, snd_splitName_eq_some_iff.mpr ⟨stem, rfl, hstem, hpoint⟩⟩
    exact Option.filter_eq_some_iff.mpr ⟨List.getLast?_concat, decide_eq_true hname⟩

end FilePath

section Walk

variable {tree found : FileTree} {root : FilePath} {entries : List (List Char × FileTree)}

/-- Whether files are the kern files that are found below a directory at a certain path: those that
paths without links lead to and that have the extension of kern scores behind a stem, each of them
once and all of them in the order of the walk. -/
structure IsKernWalk (root : FilePath) (found : FileTree) (files : List (FilePath × ByteArray)) :
    Prop where
  mem_iff : ∀ path bytes, (path, bytes) ∈ files ↔ ∃ dir stem,
    path = root ++ dir ++ [stem ++ '.' :: kernExtension] ∧ stem ≠ [] ∧
      found.lookup (dir ++ [stem ++ '.' :: kernExtension]) = some (.file bytes)
  sorted : files.Pairwise (·.1.Precedes ·.1)
  nodup : (files.map Prod.fst).Nodup

/-- The kern files among the files of a tree, each with its whole path. -/
def kernFilesBelow (root : FilePath) (found : FileTree) : List (FilePath × ByteArray) :=
  (found.files.map fun file => (root ++ file.1, file.2)).filter fun file =>
    file.1.extension? = some kernExtension

theorem isKernWalk_kernFilesBelow (root : FilePath) (hproper : found.IsProper)
    (hdirectory : found = .directory entries) :
    IsKernWalk root found (kernFilesBelow root found) := by
  have hsorted : (kernFilesBelow root found).Pairwise (·.1.Precedes ·.1) := by
    apply List.Pairwise.filter
    rw [List.pairwise_map]
    exact (found.pairwise_files hproper).imp fun h => h.append root
  refine ⟨fun path bytes => ?_, hsorted, ?_⟩
  · have hpoint : '.' ∉ kernExtension := by decide
    rw [kernFilesBelow, List.mem_filter, List.mem_map, decide_eq_true_iff,
      FilePath.extension?_eq_some_iff (by decide : kernExtension ≠ [])]
    constructor
    · rintro ⟨⟨⟨below, other⟩, hfile, heq⟩, dir, stem, hpath, hstem, -⟩
      obtain ⟨rfl, rfl⟩ := Prod.mk.inj heq
      rw [FileTree.mem_files_iff hproper] at hfile
      -- The last name is one below the directory, which is no file itself.
      rcases List.eq_nil_or_concat' below with rfl | ⟨rest, name, rfl⟩
      · rw [hdirectory] at hfile
        cases hfile
      · rw [← List.append_assoc] at hpath
        obtain ⟨rfl, hname⟩ := List.append_inj' hpath rfl
        obtain rfl := (List.cons.inj hname).1
        exact ⟨rest, stem, (List.append_assoc ..).symm, hstem, hfile⟩
    · rintro ⟨dir, stem, rfl, hstem, hfile⟩
      refine ⟨⟨(_, bytes), (FileTree.mem_files_iff hproper).mpr hfile, ?_⟩, root ++ dir, stem, rfl,
        hstem, hpoint⟩
      rw [List.append_assoc]
  · exact List.pairwise_map.mpr (hsorted.imp fun h => h.ne)

/-- What is found below a directory. -/
theorem exists_isKernWalk (hproper : tree.IsProper)
    (hroot : tree.resolve true root = some (.directory entries)) :
    ∃ files, findKernFiles tree root = .ok files ∧ IsKernWalk root (.directory entries) files := by
  obtain ⟨place, -, hfound⟩ := Option.bind_eq_some_iff.mp hroot
  have hwalk := isKernWalk_kernFilesBelow root (hproper.of_lookup hfound).2 rfl
  refine ⟨_, ?_, hwalk⟩
  -- A link at the path itself is followed, as it leads to a directory.
  obtain ⟨other, hother⟩ := FileTree.exists_of_resolve hroot
  rw [findKernFiles, hroot, hother]
  cases other <;> rfl

end Walk

section Import

variable {tree : FileTree} {root path : FilePath} {bytes : ByteArray}
  {file : FilePath × ByteArray} {files : List (FilePath × ByteArray)} {id : UInt32}

/-- Whether a file has a score: it holds a text that is not too long. -/
def isScoreFile (file : FilePath × ByteArray) : Bool :=
  file.2.IsValidUTF8 ∧ file.2.size ≤ maxScoreBytes

/-- The title and the kern text of a file that has a score. -/
def titleAndKern (file : FilePath × ByteArray) : List Char × List Char :=
  (file.1.stem, normalizeLineEnds (((String.fromUTF8? file.2).map String.toList).getD []))

theorem Score.ofBytes_of_isScoreFile (h : isScoreFile file = true) (id : UInt32) :
    ofBytes id file.1 file.2 = .ok ⟨id, (titleAndKern file).1, (titleAndKern file).2⟩ := by
  obtain ⟨hvalid, hsize⟩ := of_decide_eq_true h
  have htext : String.fromUTF8? file.2 = some (String.fromUTF8 file.2 hvalid) := dif_pos hvalid
  rw [ofBytes, titleAndKern, htext]
  exact if_neg (Nat.not_lt.mpr hsize)

theorem Score.exists_ofBytes_eq_error (h : ¬ isScoreFile file = true) (id : UInt32) :
    ∃ cause, ofBytes id file.1 file.2 = .error cause := by
  by_cases hvalid : file.2.IsValidUTF8
  · have htext : String.fromUTF8? file.2 = some (String.fromUTF8 file.2 hvalid) := dif_pos hvalid
    have hsize : maxScoreBytes < file.2.size :=
      Nat.lt_of_not_le fun hle => h (decide_eq_true ⟨hvalid, hle⟩)
    rw [ofBytes, htext]
    exact ⟨_, if_pos hsize⟩
  · have htext : String.fromUTF8? file.2 = none := dif_neg hvalid
    rw [ofBytes, htext]
    exact ⟨_, rfl⟩

namespace Corpus

variable {corpus : Corpus}

/-- A file that has a score is added to a corpus without gaps, and any other file changes
nothing. -/
theorem IsDense.importFile_eq (h : corpus.IsDense) (file : FilePath × ByteArray) :
    corpus.importFile file =
      if isScoreFile file then
        (corpus.respond (titleAndKern file).1 (titleAndKern file).2).2
      else corpus := by
  rw [importFile]
  by_cases hsize : corpus.size < UInt32.size
  · rw [if_pos hsize, h.snd_respond hsize]
    by_cases hscore : isScoreFile file = true
    · rw [if_pos hscore, Score.ofBytes_of_isScoreFile hscore]
    · obtain ⟨cause, hcause⟩ := Score.exists_ofBytes_eq_error hscore (.ofNat corpus.size)
      rw [if_neg hscore, hcause]
  · rw [if_neg hsize, h.snd_respond_of_full hsize, ite_self]

/-- Files are added one by one. -/
theorem IsDense.foldl_importFile (h : corpus.IsDense) (files : List (FilePath × ByteArray)) :
    files.foldl importFile corpus = corpus.after ((files.filter isScoreFile).map titleAndKern) := by
  induction files generalizing corpus with
  | nil => rfl
  | cons file files ih =>
    rw [List.foldl_cons, h.importFile_eq]
    by_cases hscore : isScoreFile file = true
    · rw [if_pos hscore, ih (h.respond _ _), List.filter_cons_of_pos hscore]
      rfl
    · rw [if_neg hscore, ih h, List.filter_cons_of_neg hscore]

/-- Whether a corpus is what an import of files makes of the empty one: the scores are what is read
of the files that have one, in order and as far as there are ids; the ids count them; the corpus is
what adding these scores one by one makes; and the next addition gets the number of the scores as
its id. -/
structure IsImportOf (corpus : Corpus) (tree : FileTree) (files : List (FilePath × ByteArray)) :
    Prop where
  reads : corpus.scores.map .ok = ((files.filter isScoreFile).take UInt32.size).mapIdx
    fun i file => Score.read tree (.ofNat i) file.1
  dense : corpus.IsDense
  added : ∃ additions, corpus = empty.after additions ∧
    ∀ id, (files.filter isScoreFile).map (fun file => Score.read tree id file.1) =
      additions.map fun added => .ok ⟨id, added.1, added.2⟩
  next : ∀ title kern, corpus.add title kern =
    if corpus.size < UInt32.size then
      some (.ofNat corpus.size, ⟨corpus.scores ++ [⟨.ofNat corpus.size, title, kern⟩]⟩)
    else none

/-- An import of files that are where their paths lead. -/
theorem isImportOf_foldl (h : ∀ file ∈ files, tree.resolve true file.1 = some (.file file.2)) :
    (files.foldl importFile empty).IsImportOf tree files := by
  have hread : ∀ file ∈ files.filter isScoreFile, ∀ id, Score.read tree id file.1 =
      .ok ⟨id, (titleAndKern file).1, (titleAndKern file).2⟩ := by
    intro file hfile id
    obtain ⟨hmem, hscore⟩ := List.mem_filter.mp hfile
    rw [Score.read_of_resolve (h file hmem), Score.ofBytes_of_isScoreFile hscore]
  rw [isDense_empty.foldl_importFile]
  have hdense := isDense_empty.after ((files.filter isScoreFile).map titleAndKern)
  refine ⟨?_, hdense, ⟨_, rfl, fun id => ?_⟩, hdense.add_eq⟩
  · rw [scores_after_empty, ← List.map_take]
    ext1 i
    simp only [List.getElem?_map, List.getElem?_mapIdx]
    cases hfile : ((files.filter isScoreFile).take UInt32.size)[i]? with
    | none => rfl
    | some file =>
      have hmem := List.mem_of_mem_take (List.mem_of_getElem? hfile)
      exact congrArg some (hread file hmem _).symm
  · rw [List.map_map]
    exact List.map_congr_left fun file hfile => hread file hfile id

end Corpus

end Import

/-- Below every directory of a tree the walk finds the kern files, and an import of the directory
makes the corpus of what is read of them. -/
theorem exists_import_of_directory {tree : FileTree} {root : FilePath}
    {entries : List (List Char × FileTree)} (hproper : tree.IsProper)
    (hroot : tree.resolve true root = some (.directory entries)) :
    ∃ files corpus, findKernFiles tree root = .ok files ∧
      Corpus.importFrom tree root = .ok corpus ∧
      IsKernWalk root (.directory entries) files ∧ corpus.IsImportOf tree files := by
  obtain ⟨files, hfiles, hwalk⟩ := exists_isKernWalk hproper hroot
  refine ⟨files, _, hfiles, by rw [Corpus.importFrom, hfiles]; rfl, hwalk, ?_⟩
  apply Corpus.isImportOf_foldl
  rintro ⟨path, bytes⟩ hfile
  obtain ⟨dir, stem, rfl, -, hbelow⟩ := (hwalk.mem_iff path bytes).mp hfile
  rw [List.append_assoc]
  exact FileTree.resolve_append hproper hroot hbelow

/-- The bytes of a text in a file. -/
def textFile (text : String) : FileTree :=
  .file text.toUTF8

/-- A directory with a link out of it. -/
def innerDirectory : FileTree :=
  .directory [("up".toList, .link ["..".toList, "..".toList]), ("c.txt".toList, textFile "4c"),
    ("c.krn".toList, textFile "4c")]

/-- A directory with this one in it and with a file that holds no text. -/
def linkedDirectory : FileTree :=
  .directory [("b.krn".toList, textFile "4b"), ("a".toList, innerDirectory),
    ("a.krn".toList, .file ⟨#[0xff]⟩)]

/-- A directory with this one in it, and with a link to it. -/
def linkedTree : FileTree :=
  .directory [("scores".toList, linkedDirectory), ("music".toList, .link ["scores".toList])]

theorem isProper_linkedTree : linkedTree.IsProper := by
  simp [linkedTree, linkedDirectory, innerDirectory, textFile, FileTree.IsProper,
    FileTree.EntriesProper]

theorem files_innerDirectory : innerDirectory.files =
    [(["c.krn".toList], "4c".toUTF8), (["c.txt".toList], "4c".toUTF8)] :=
  FileTree.files_directory_eq
    [("c.krn".toList, [(["c.krn".toList], "4c".toUTF8)]),
      ("c.txt".toList, [(["c.txt".toList], "4c".toUTF8)]), ("up".toList, [])]
    (by decide) (by decide) (by decide)

theorem files_linkedDirectory : linkedDirectory.files =
    [(["a".toList, "c.krn".toList], "4c".toUTF8), (["a".toList, "c.txt".toList], "4c".toUTF8),
      (["a.krn".toList], ⟨#[0xff]⟩), (["b.krn".toList], "4b".toUTF8)] := by
  refine FileTree.files_directory_eq
    [("a".toList, [(["a".toList, "c.krn".toList], "4c".toUTF8),
        (["a".toList, "c.txt".toList], "4c".toUTF8)]),
      ("a.krn".toList, [(["a.krn".toList], ⟨#[0xff]⟩)]),
      ("b.krn".toList, [(["b.krn".toList], "4b".toUTF8)])]
    (by decide) (by decide) ?_
  simp only [FileTree.entriesFiles, files_innerDirectory]
  decide

/-- The files that are found through the link to the directory. -/
def linkedFiles : List (FilePath × ByteArray) :=
  [(["music".toList, "a".toList, "c.krn".toList], "4c".toUTF8),
    (["music".toList, "a.krn".toList], ⟨#[0xff]⟩), (["music".toList, "b.krn".toList], "4b".toUTF8)]

theorem resolve_linkedTree : linkedTree.resolve true ["music".toList] = some linkedDirectory := rfl

theorem findKernFiles_linkedTree :
    findKernFiles linkedTree ["music".toList] = .ok linkedFiles := by
  have hlink : linkedTree.resolve false ["music".toList] = some (.link ["scores".toList]) := rfl
  have hbelow : kernFilesBelow ["music".toList] linkedDirectory = linkedFiles := by
    rw [kernFilesBelow, files_linkedDirectory]
    rfl
  rw [findKernFiles, resolve_linkedTree, hlink]
  exact congrArg Except.ok hbelow

theorem importFrom_linkedTree : Corpus.importFrom linkedTree ["music".toList] =
    .ok ⟨[⟨0, ['c'], "4c".toList⟩, ⟨1, ['b'], "4b".toList⟩]⟩ := by
  have hfiles : linkedFiles.foldl Corpus.importFile .empty =
      ⟨[⟨0, ['c'], "4c".toList⟩, ⟨1, ['b'], "4b".toList⟩]⟩ := by
    decide
  rw [Corpus.importFrom, findKernFiles_linkedTree]
  exact congrArg Except.ok hfiles

/-- The directory is imported through the link to it. The link out of it is not followed, and the
file that holds no text takes no id. -/
theorem exists_import_of_directory_linked :
    findKernFiles linkedTree ["music".toList] = .ok linkedFiles ∧
      Corpus.importFrom linkedTree ["music".toList] =
        .ok ⟨[⟨0, ['c'], "4c".toList⟩, ⟨1, ['b'], "4b".toList⟩]⟩ ∧
      IsKernWalk ["music".toList] linkedDirectory linkedFiles ∧
      Corpus.IsImportOf ⟨[⟨0, ['c'], "4c".toList⟩, ⟨1, ['b'], "4b".toList⟩]⟩ linkedTree
        linkedFiles := by
  obtain ⟨files, corpus, hfiles, hcorpus, hwalk, himport⟩ :=
    exists_import_of_directory isProper_linkedTree resolve_linkedTree
  obtain rfl := Except.ok.inj (findKernFiles_linkedTree.symm.trans hfiles)
  obtain rfl := Except.ok.inj (importFrom_linkedTree.symm.trans hcorpus)
  exact ⟨hfiles, hcorpus, hwalk, himport⟩

end MotifSearch
