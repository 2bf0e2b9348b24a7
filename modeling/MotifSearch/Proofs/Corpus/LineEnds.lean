import Mathlib.Data.List.Infix
import MotifSearch.Corpus.Import
import MotifSearch.Proofs.Except
import MotifSearch.Proofs.Text.Bytes

/-!
# Line ends of imported scores

A line end of two characters becomes a newline when a score is read, in one pass over the text. What
the pass leaves may be such a line end again: of two carriage returns before a newline only the
second one is left out. These are the only texts for which this is so, and the only ones for which
it makes a difference to write a score to a file and to read it again.

## Main definitions

* `lineBreak`, `doubleReturn` — a line end of two characters, and one with a further return before
  it
* `FileTree.HoldsText` — what is in a file, if it is a text
* `Score.HasLineEndsOf` — what a score has left of the line ends of a text

## Main results

* `lineBreak_infix_normalizeLineEnds_iff` — which texts have such a line end after the pass
* `normalizeLineEnds_twice_eq_iff` — a second pass makes a difference for the same texts
* `lineEnds_of_read` — what this means for files and directories
-/

namespace MotifSearch

/-- A line end of two characters. -/
def lineBreak : List Char := ['\r', '\n']

/-- A line end of two characters with a further carriage return before it. -/
def doubleReturn : List Char := '\r' :: lineBreak

section Normalize

variable {c : Char} {text rest : List Char}

theorem lineBreak_prefix_cons_iff :
    lineBreak <+: c :: rest ↔ c = '\r' ∧ rest.head? = some '\n' := by
  cases rest <;> simp [lineBreak, List.cons_prefix_cons, eq_comm]

theorem normalizeLineEnds_cons_of_break (h : lineBreak <+: c :: rest) :
    normalizeLineEnds (c :: rest) = normalizeLineEnds rest := by
  rw [normalizeLineEnds_cons, if_pos (lineBreak_prefix_cons_iff.mp h)]

theorem normalizeLineEnds_cons_of_not_break (h : ¬ lineBreak <+: c :: rest) :
    normalizeLineEnds (c :: rest) = c :: normalizeLineEnds rest := by
  rw [normalizeLineEnds_cons, if_neg (mt lineBreak_prefix_cons_iff.mpr h)]

/-- What begins with a newline after the pass. -/
theorem head?_normalizeLineEnds_eq_newline_iff :
    (normalizeLineEnds text).head? = some '\n' ↔
      text.head? = some '\n' ∨ lineBreak <+: text := by
  cases text with
  | nil => simp [lineBreak]
  | cons c rest =>
    by_cases h : lineBreak <+: c :: rest
    · obtain ⟨rfl, hrest⟩ := lineBreak_prefix_cons_iff.mp h
      obtain ⟨rest, rfl⟩ := List.head?_eq_some_iff.mp hrest
      simp [normalizeLineEnds_cons_of_break h, h, normalizeLineEnds_cons]
    · simp [normalizeLineEnds_cons_of_not_break h, h]

/-- A line end of two characters is left where a further carriage return comes before one. -/
theorem lineBreak_infix_normalizeLineEnds_iff :
    lineBreak <:+: normalizeLineEnds text ↔ doubleReturn <:+: text := by
  induction text with
  | nil => simp [lineBreak, doubleReturn]
  | cons c rest ih =>
    rw [List.infix_cons_iff, ← ih, doubleReturn, List.cons_prefix_cons]
    by_cases h : lineBreak <+: c :: rest
    · -- The return is left out, and what follows it is no line end itself.
      have hnot : ¬ lineBreak <+: rest := by
        obtain ⟨-, hrest⟩ := lineBreak_prefix_cons_iff.mp h
        obtain ⟨rest, rfl⟩ := List.head?_eq_some_iff.mp hrest
        simp [lineBreak]
      simp [normalizeLineEnds_cons_of_break h, hnot]
    · have hrest : c = '\r' → rest.head? ≠ some '\n' := fun hc hrest =>
        h (lineBreak_prefix_cons_iff.mpr ⟨hc, hrest⟩)
      rw [normalizeLineEnds_cons_of_not_break h, List.infix_cons_iff, lineBreak_prefix_cons_iff,
        head?_normalizeLineEnds_eq_newline_iff]
      refine or_congr_left ⟨fun ⟨hc, hhead⟩ => ⟨hc.symm, ?_⟩,
        fun ⟨hc, hhead⟩ => ⟨hc.symm, .inr hhead⟩⟩
      exact hhead.resolve_left (hrest hc)

/-- The pass only leaves characters out. -/
theorem normalizeLineEnds_sublist (text : List Char) : (normalizeLineEnds text).Sublist text := by
  induction text with
  | nil => exact .slnil
  | cons c rest ih =>
    rw [normalizeLineEnds_cons]
    split
    · exact ih.cons c
    · exact ih.cons_cons c

/-- The pass changes a text if it has a line end of two characters. -/
theorem normalizeLineEnds_eq_self_iff :
    normalizeLineEnds text = text ↔ ¬ lineBreak <:+: text := by
  induction text with
  | nil => simp [lineBreak]
  | cons c rest ih =>
    rw [List.infix_cons_iff]
    by_cases h : lineBreak <+: c :: rest
    · -- A text that has lost a character is shorter.
      have hlt : (normalizeLineEnds rest).length < (c :: rest).length :=
        Nat.lt_succ_of_le (normalizeLineEnds_sublist rest).length_le
      rw [normalizeLineEnds_cons_of_break h]
      exact ⟨fun heq => absurd (congrArg List.length heq) (Nat.ne_of_lt hlt),
        fun hnot => absurd (.inl h) hnot⟩
    · rw [normalizeLineEnds_cons_of_not_break h, List.cons_inj_right, ih, or_iff_right h]

/-- A second pass changes what the first one leaves of two returns before a newline, and nothing
else. -/
theorem normalizeLineEnds_twice_eq_iff :
    normalizeLineEnds (normalizeLineEnds text) = normalizeLineEnds text ↔
      ¬ doubleReturn <:+: text := by
  rw [normalizeLineEnds_eq_self_iff, lineBreak_infix_normalizeLineEnds_iff]

end Normalize

namespace Text

theorem fromUTF8?_eq_some_iff {bytes : ByteArray} {text : String} :
    String.fromUTF8? bytes = some text ↔ text.toUTF8 = bytes := by
  unfold String.fromUTF8?
  constructor
  · intro h
    split at h
    · cases h
      rfl
    · cases h
  · rintro rfl
    exact dif_pos text.isValidUTF8

/-- The bytes of a text are as many as its length in bytes. -/
theorem size_toUTF8 (text : List Char) : (String.ofList text).toUTF8.size = byteLength text := by
  change text.utf8Encode.size = _
  rw [List.utf8Encode, List.size_toByteArray]
  exact length_utf8 text

theorem byteLength_le_of_sublist {short long : List Char} (h : short.Sublist long) :
    byteLength short ≤ byteLength long := by
  induction h with
  | slnil => exact Nat.le_refl _
  | cons c _ ih => exact Nat.le_trans ih (Nat.le_add_left _ _)
  | cons_cons c _ ih => exact Nat.add_le_add_left ih _

end Text

/-- Whether a path leads to a file that holds just a text. -/
def FileTree.HoldsText (tree : FileTree) (path : FilePath) (text : List Char) : Prop :=
  tree.resolve true path = some (.file (String.ofList text).toUTF8)

namespace Score

variable {tree : FileTree} {id : UInt32} {path : FilePath} {bytes : ByteArray} {score : Score}
  {text : List Char}

/-- A file has a score if it holds a text that is not too long. -/
theorem ofBytes_eq_ok_iff : ofBytes id path bytes = .ok score ↔
    ∃ text, (String.ofList text).toUTF8 = bytes ∧ Text.byteLength text ≤ maxScoreBytes ∧
      score = ⟨id, path.stem, normalizeLineEnds text⟩ := by
  unfold ofBytes
  constructor
  · intro h
    split at h
    · cases h
    · next text htext =>
      obtain rfl := Text.fromUTF8?_eq_some_iff.mp htext
      have hsize := Text.size_toUTF8 text.toList
      rw [String.ofList_toList] at hsize
      split at h
      · cases h
      · next hle =>
        cases h
        exact ⟨text.toList, by rw [String.ofList_toList], by omega, rfl⟩
  · rintro ⟨text, rfl, hle, rfl⟩
    have htext : String.fromUTF8? (String.ofList text).toUTF8 = some (String.ofList text) :=
      Text.fromUTF8?_eq_some_iff.mpr rfl
    simp only [htext, Text.size_toUTF8, String.toList_ofList]
    exact if_neg (Nat.not_lt.mpr hle)

theorem read_of_resolve (h : tree.resolve true path = some (.file bytes)) :
    read tree id path = ofBytes id path bytes := by
  rw [read, h]

/-- Only files are read. -/
theorem exists_of_read_eq_ok (h : read tree id path = .ok score) :
    ∃ bytes, tree.resolve true path = some (.file bytes) ∧ ofBytes id path bytes = .ok score := by
  unfold read at h
  split at h
  · next bytes hbytes => exact ⟨bytes, hbytes, h⟩
  · cases h

/-- What is left of the line ends of a text in the score that is read from it: there still is one of
two characters, and it makes a difference to read once more what has been read, exactly if two
carriage returns come before a newline in the text. -/
structure HasLineEndsOf (score : Score) (text : List Char) : Prop where
  lineBreak_iff : lineBreak <:+: score.kern ↔ doubleReturn <:+: text
  read_again : ∀ (tree : FileTree) path id, tree.HoldsText path score.kern →
    ∃ again, read tree id path = .ok again ∧ (again.kern = score.kern ↔ ¬ doubleReturn <:+: text)

/-- What is read of a text that is not too long has its line ends. -/
theorem hasLineEndsOf_of_ofBytes (h : ofBytes id path bytes = .ok score) :
    ∃ text, bytes = (String.ofList text).toUTF8 ∧ score.HasLineEndsOf text := by
  obtain ⟨text, hbytes, hle, rfl⟩ := ofBytes_eq_ok_iff.mp h
  refine ⟨text, hbytes.symm, lineBreak_infix_normalizeLineEnds_iff, fun tree other id hfile => ?_⟩
  -- The pass makes no text longer, so what has been read is not too long to be read again.
  have hshort := Text.byteLength_le_of_sublist (normalizeLineEnds_sublist text)
  have hagain : ofBytes id other (String.ofList (normalizeLineEnds text)).toUTF8 =
      .ok ⟨id, other.stem, normalizeLineEnds (normalizeLineEnds text)⟩ :=
    ofBytes_eq_ok_iff.mpr ⟨normalizeLineEnds text, rfl, Nat.le_trans hshort hle, rfl⟩
  exact ⟨_, (read_of_resolve hfile).trans hagain, normalizeLineEnds_twice_eq_iff⟩

end Score

namespace Corpus

variable {corpus : Corpus} {files : List (FilePath × ByteArray)} {score : Score}

/-- What one more file adds to a corpus is its score. -/
theorem mem_importFile {file : FilePath × ByteArray} (h : score ∈ (corpus.importFile file).scores) :
    score ∈ corpus.scores ∨ ∃ id, Score.ofBytes id file.1 file.2 = .ok score := by
  unfold importFile at h
  split at h
  · split at h
    · next read hread =>
      rcases List.mem_append.mp h with h | h
      · exact .inl h
      · obtain rfl := List.mem_singleton.mp h
        exact .inr ⟨_, hread⟩
    · exact .inl h
  · exact .inl h

/-- Every score that files add to a corpus is the score of one of them. -/
theorem mem_foldl_importFile (h : score ∈ (files.foldl importFile corpus).scores) :
    score ∈ corpus.scores ∨ ∃ file ∈ files, ∃ id, Score.ofBytes id file.1 file.2 = .ok score := by
  induction files generalizing corpus with
  | nil => exact .inl h
  | cons file files ih =>
    rcases ih h with h | ⟨other, hother, hread⟩
    · rcases mem_importFile h with h | hread
      · exact .inl h
      · exact .inr ⟨file, List.mem_cons_self, hread⟩
    · exact .inr ⟨other, List.mem_cons_of_mem file hother, hread⟩

end Corpus

/-- A score that is read from a file keeps a line end of two characters where the text of the file
has two carriage returns before a newline, and has none otherwise; and exactly in the first case it
is not the same once it is written to a file and read again. This holds of every score of an
imported directory, too. -/
theorem lineEnds_of_read (tree : FileTree) :
    (∀ id path score, Score.read tree id path = .ok score →
      ∃ text, tree.HoldsText path text ∧ score.HasLineEndsOf text) ∧
    (∀ root corpus, Corpus.importFrom tree root = .ok corpus →
      ∀ score ∈ corpus.scores, ∃ files path text, findKernFiles tree root = .ok files ∧
        (path, (String.ofList text).toUTF8) ∈ files ∧ score.HasLineEndsOf text) := by
  constructor
  · intro id path score h
    obtain ⟨bytes, hfile, hread⟩ := Score.exists_of_read_eq_ok h
    obtain ⟨text, rfl, hends⟩ := Score.hasLineEndsOf_of_ofBytes hread
    exact ⟨text, hfile, hends⟩
  · intro root corpus h score hscore
    obtain ⟨files, hfiles, rfl⟩ := Except.exists_of_map_eq_ok h
    rcases Corpus.mem_foldl_importFile hscore with hnone | ⟨⟨path, bytes⟩, hfile, id, hread⟩
    · cases hnone
    · obtain ⟨text, rfl, hends⟩ := Score.hasLineEndsOf_of_ofBytes hread
      exact ⟨files, path, text, hfiles, hfile, hends⟩

/-- A file with a carriage return too many before its newline. -/
def convertedTwice : FilePath × ByteArray :=
  (["a.krn".toList], (String.ofList doubleReturn).toUTF8)

/-- A directory with this file alone. -/
def convertedTwiceTree : FileTree :=
  .directory [("a.krn".toList, .file convertedTwice.2)]

theorem ofBytes_convertedTwice :
    Score.ofBytes 0 convertedTwice.1 convertedTwice.2 = .ok ⟨0, ['a'], lineBreak⟩ :=
  Score.ofBytes_eq_ok_iff.mpr ⟨doubleReturn, rfl, by decide, by decide⟩

theorem findKernFiles_convertedTwice :
    findKernFiles convertedTwiceTree [] = .ok [convertedTwice] := by
  have hfiles : convertedTwiceTree.files = [convertedTwice] := by
    simp [convertedTwiceTree, convertedTwice, FileTree.files, FileTree.entriesFiles]
  have htop : ∀ last, convertedTwiceTree.resolve last [] = some convertedTwiceTree := fun _ => rfl
  simp only [findKernFiles, htop]
  change Except.ok (List.filter _ (List.map _ convertedTwiceTree.files)) = _
  rw [hfiles]
  rfl

theorem importFrom_convertedTwice :
    Corpus.importFrom convertedTwiceTree [] = .ok ⟨[⟨0, ['a'], lineBreak⟩]⟩ := by
  have hone : Corpus.empty.importFile convertedTwice = ⟨[⟨0, ['a'], lineBreak⟩]⟩ := by
    have hroom : Corpus.empty.size < UInt32.size := by decide
    have hid : UInt32.ofNat Corpus.empty.size = 0 := rfl
    rw [Corpus.importFile, if_pos hroom, hid, ofBytes_convertedTwice]
    rfl
  rw [Corpus.importFrom, findKernFiles_convertedTwice]
  exact congrArg Except.ok hone

/-- The one score keeps a line end of two characters, whether it is read by itself or with its
directory. -/
theorem lineEnds_of_read_convertedTwice :
    Score.read convertedTwiceTree 0 convertedTwice.1 = .ok ⟨0, ['a'], lineBreak⟩ ∧
    (∃ text, convertedTwiceTree.HoldsText convertedTwice.1 text ∧ doubleReturn <:+: text ∧
      Score.HasLineEndsOf ⟨0, ['a'], lineBreak⟩ text) ∧
    Corpus.importFrom convertedTwiceTree [] = .ok ⟨[⟨0, ['a'], lineBreak⟩]⟩ ∧
    ∃ files path text, findKernFiles convertedTwiceTree [] = .ok files ∧
      (path, (String.ofList text).toUTF8) ∈ files ∧ doubleReturn <:+: text ∧
      Score.HasLineEndsOf ⟨0, ['a'], lineBreak⟩ text := by
  obtain ⟨hread, himport⟩ := lineEnds_of_read convertedTwiceTree
  have hfile : convertedTwiceTree.resolve true convertedTwice.1 = some (.file convertedTwice.2) :=
    rfl
  have hscore := (Score.read_of_resolve hfile).trans ofBytes_convertedTwice
  obtain ⟨text, htext, hends⟩ := hread 0 _ _ hscore
  obtain ⟨files, path, found, hfiles, hmem, hfound⟩ :=
    himport [] _ importFrom_convertedTwice _ List.mem_cons_self
  exact ⟨hscore, ⟨text, htext, hends.lineBreak_iff.mp List.infix_rfl, hends⟩,
    importFrom_convertedTwice, files, path, found, hfiles, hmem,
    hfound.lineBreak_iff.mp List.infix_rfl, hfound⟩

end MotifSearch
