import MotifSearch.Corpus.Basic
import MotifSearch.Corpus.FileTree

/-!
# Importing scores

The files with the extension of kern scores below a directory become a corpus, in the order in which
the walk finds them. The title of a score is the stem of its file name; line ends of two characters
become newlines. Files that are too large or hold no UTF-8 text are skipped and take no id.

## Main definitions

* `ImportError` — why a file has no score
* `normalizeLineEnds` — a text with newlines for line ends of two characters
* `Score.ofBytes`, `Score.read` — the score of a file
* `findKernFiles` — the kern files below a directory
* `Corpus.importFrom` — the corpus of a directory

## Main results

* `normalizeLineEnds_of_no_return` — a text without carriage returns stays as it is
-/

namespace MotifSearch

/-- Why a file has no score. -/
inductive ImportError where
  /-- There is no such file, or it does not hold a text. -/
  | unreadable (path : FilePath)
  | tooLarge (path : FilePath) (length limit : Nat)
  deriving DecidableEq

/-- A cause in words. -/
def ImportError.message : ImportError → String
  | unreadable path => "Failed to read " ++ String.ofList path.text
  | tooLarge path length limit =>
    String.ofList path.text ++ " is too long: " ++ String.ofList (Text.decimal length) ++
      " bytes (limit " ++ String.ofList (Text.decimal limit) ++ ")"

/-- Scores in longer files are not imported. -/
def maxScoreBytes : Nat := 2000000

/-- The extension of files with kern scores. -/
def kernExtension : List Char := "krn".toList

/-- A text with newlines for line ends of two characters: a carriage return right before a newline is
left out. -/
def normalizeLineEnds (text : List Char) : List Char :=
  let step (c : Char) : Option Char × List Char → Option Char × List Char
    | (next, rest) => (some c, if c = '\r' ∧ next = some '\n' then rest else c :: rest)
  (text.foldr step (none, [])).2

@[simp] theorem normalizeLineEnds_nil : normalizeLineEnds [] = [] := rfl

theorem normalizeLineEnds_cons (c : Char) (rest : List Char) :
    normalizeLineEnds (c :: rest) =
      if c = '\r' ∧ rest.head? = some '\n' then normalizeLineEnds rest
      else c :: normalizeLineEnds rest := by
  cases rest <;> rfl

/-- A text without carriage returns stays as it is. -/
theorem normalizeLineEnds_of_no_return {text : List Char} (h : '\r' ∉ text) :
    normalizeLineEnds text = text := by
  induction text with
  | nil => rfl
  | cons c rest ih =>
    have hc : c ≠ '\r' := fun heq => h (by simp [heq])
    rw [normalizeLineEnds_cons, if_neg (by simp [hc]), ih fun hmem => h (by simp [hmem])]

/-- The score of the bytes of a file. -/
def Score.ofBytes (id : UInt32) (path : FilePath) (bytes : ByteArray) :
    Except ImportError Score :=
  match String.fromUTF8? bytes with
  | none => .error (.unreadable path)
  | some text =>
    if maxScoreBytes < bytes.size then .error (.tooLarge path bytes.size maxScoreBytes)
    else .ok { id, title := path.stem, kern := normalizeLineEnds text.toList }

/-- The score of the file that a path leads to. -/
def Score.read (tree : FileTree) (id : UInt32) (path : FilePath) : Except ImportError Score :=
  match tree.resolve true path with
  | some (.file bytes) => ofBytes id path bytes
  | _ => .error (.unreadable path)

/-- The kern files at a path and below it. A link at the path itself is followed if it leads to a
directory, and counts as no file otherwise. -/
def findKernFiles (tree : FileTree) (root : FilePath) :
    Except ImportError (List (FilePath × ByteArray)) :=
  let under (found : FileTree) : List (FilePath × ByteArray) :=
    (found.files.map fun (path, bytes) => (root ++ path, bytes)).filter fun (path, _) =>
      path.extension? = some kernExtension
  match tree.resolve false root, tree.resolve true root with
  | some (.link _), some (.file _) => .ok []
  | some _, some found => .ok (under found)
  | _, _ => .error (.unreadable root)

/-- A corpus with the score of one more file, unless the file has none, or there is no id left. -/
def Corpus.importFile (corpus : Corpus) (file : FilePath × ByteArray) : Corpus :=
  if corpus.size < UInt32.size then
    match Score.ofBytes (.ofNat corpus.size) file.1 file.2 with
    | .ok score => ⟨corpus.scores ++ [score]⟩
    | .error _ => corpus
  else corpus

/-- The corpus of the kern files at a path and below it. -/
def Corpus.importFrom (tree : FileTree) (root : FilePath) : Except ImportError Corpus :=
  (findKernFiles tree root).map fun files => files.foldl importFile empty

end MotifSearch
