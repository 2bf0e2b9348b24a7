import MotifSearch.Corpus.FilePath

/-!
# Directory trees

Files hold bytes, directories hold named entries, and links lead to a path from the directory they
are in. Reading a file follows links; listing the files below a directory does not. The names of
entries are texts.

## Main definitions

* `FileTree` — a tree of directories, files and links
* `FileTree.insert` — put something at a path
* `FileTree.lookup`, `FileTree.resolve` — what is at a path, without and with following links
* `FileTree.files` — the files below a directory, sorted by name

## Main results

* `lookup_nil` — the empty path leads to the tree itself
-/

namespace MotifSearch

/-- A tree of directories, files and links. -/
inductive FileTree where
  | file (bytes : ByteArray)
  | link (target : FilePath)
  | directory (entries : List (List Char × FileTree))

namespace FileTree

/-- The directory without entries. -/
def empty : FileTree := directory []

/-- The entries of a directory. -/
def entries : FileTree → List (List Char × FileTree)
  | directory entries => entries
  | _ => []

/-- A list of entries with the entry of one name replaced, or added at the end. -/
def setEntry (name : List Char) (tree : FileTree) :
    List (List Char × FileTree) → List (List Char × FileTree)
  | [] => [(name, tree)]
  | (other, old) :: entries =>
    if other = name then (name, tree) :: entries else (other, old) :: setEntry name tree entries

/-- Put something at a path. Directories on the way are created. A directory that is there already
stays as it is, and so does everything if there is a file or a link on the way. -/
def insert (new : FileTree) : FilePath → FileTree → FileTree
  | [], old =>
    match new, old with
    | directory _, directory _ => old
    | _, _ => new
  | name :: path, directory entries =>
    directory (setEntry name (insert new path ((entries.lookup name).getD empty)) entries)
  | _ :: _, old => old

/-- What is at a path, if no link is on the way. -/
def lookup (tree : FileTree) : FilePath → Option FileTree
  | [] => some tree
  | name :: path => (tree.entries.lookup name).bind (·.lookup path)

@[simp] theorem lookup_nil (tree : FileTree) : tree.lookup [] = some tree := rfl

/-- The place that a path leads to from a directory. A link on the way is followed by `follow`, and
a link at the end only if `last` is set. -/
def resolveWith (tree : FileTree) (last : Bool) (follow : FilePath → FilePath → Option FilePath) :
    (dir path : FilePath) → Option FilePath
  | dir, [] => some dir
  | dir, name :: path =>
    if name = ['.', '.'] then
      -- The parent of the top is outside the tree.
      if dir = [] then none else resolveWith tree last follow dir.dropLast path
    else
      match tree.lookup (dir ++ [name]) with
      | none => none
      | some (link target) =>
        if path = [] ∧ !last then some (dir ++ [name]) else follow dir (target ++ path)
      | some (file _) => if path = [] then some (dir ++ [name]) else none
      | some (directory _) => resolveWith tree last follow (dir ++ [name]) path

/-- The place that a path leads to, following at most `links` links. -/
def resolveFrom (tree : FileTree) (last : Bool) :
    (links : Nat) → (dir path : FilePath) → Option FilePath
  | 0 => resolveWith tree last fun _ _ => none
  | links + 1 => resolveWith tree last (resolveFrom tree last links)

/-- How many links are followed on the way to a file. -/
def linkLimit : Nat := 40

/-- What a path leads to from the top of a tree; `last` tells whether to follow a link at the end,
too. -/
def resolve (tree : FileTree) (last : Bool) (path : FilePath) : Option FileTree :=
  (resolveFrom tree last linkLimit [] path).bind tree.lookup

mutual

/-- The files in a tree with their paths, depth first, and sorted by name in each directory. Links
are not followed. -/
def files : FileTree → List (FilePath × ByteArray)
  | file bytes => [([], bytes)]
  | link _ => []
  | directory entries =>
    ((entriesFiles entries).mergeSort fun first second => ¬ second.1 < first.1).flatMap Prod.snd

/-- The files below each of the entries of a directory. -/
def entriesFiles : List (List Char × FileTree) → List (List Char × List (FilePath × ByteArray))
  | [] => []
  | (name, tree) :: entries =>
    (name, tree.files.map fun (path, bytes) => (name :: path, bytes)) :: entriesFiles entries

end

end FileTree

end MotifSearch
