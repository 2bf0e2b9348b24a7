/-!
# Paths of files

A path is a list of names, from the top down. The stem of a name is what comes before its last
point, and its extension what comes after; a name with no point but at its beginning has no
extension. Names are texts: a file whose name is not UTF-8, which could still be found by its
extension and would have an empty title, is left out.

## Main definitions

* `FilePath` — a path, with `FilePath.ofText` and `FilePath.text`
* `FilePath.stem`, `FilePath.extension?` — the two parts of the last name

## Main results

* `splitLast_append` — a point that is the last one divides a name
-/

namespace MotifSearch

/-- A path from some directory down. -/
abbrev FilePath := List (List Char)

namespace FilePath

/-- The path that a text spells. Repeated slashes and single points mean nothing. A path from the
top of the file system keeps the empty name at its front, which no file has. -/
def ofText (text : List Char) : FilePath :=
  match text.splitOn '/' with
  | [] => []
  | first :: names =>
    let rest := names.filter fun name => name ≠ [] ∧ name ≠ ['.']
    if first = [] ∧ names ≠ [] then [] :: rest
    else if first = [] ∨ first = ['.'] then rest
    else first :: rest

/-- The text of a path. -/
def text (path : FilePath) : List Char :=
  ['/'].intercalate path

/-- What comes before and after the last point of a name, if there is one. -/
def splitLast (name : List Char) : Option (List Char × List Char) :=
  match name.reverse.dropWhile (· ≠ '.') with
  | [] => none
  | _ :: before => some (before.reverse, (name.reverse.takeWhile (· ≠ '.')).reverse)

/-- The stem and the extension of a name. -/
def splitName (name : List Char) : List Char × Option (List Char) :=
  match splitLast name with
  | none | some ([], _) => (name, none)
  | some (stem, ext) => (stem, some ext)

/-- The last name of a path, unless it leads up. -/
def fileName? (path : FilePath) : Option (List Char) :=
  path.getLast?.filter (· ≠ ['.', '.'])

/-- The last name of a path without its extension. -/
def stem (path : FilePath) : List Char :=
  (path.fileName?.map fun name => (splitName name).1).getD []

/-- The extension of the last name of a path. -/
def extension? (path : FilePath) : Option (List Char) :=
  path.fileName?.bind fun name => (splitName name).2

/-- A point that is the last one divides a name. -/
theorem splitLast_append {stem ext : List Char} (h : '.' ∉ ext) :
    splitLast (stem ++ '.' :: ext) = some (stem, ext) := by
  have hreverse : (stem ++ '.' :: ext).reverse = ext.reverse ++ '.' :: stem.reverse := by simp
  have hall : ∀ c ∈ ext.reverse, decide (c ≠ '.') = true := by
    intro c hc
    have : c ≠ '.' := by
      rintro rfl
      exact h (by simpa using hc)
    simp [this]
  simp only [splitLast, hreverse, List.dropWhile_append_of_pos hall,
    List.takeWhile_append_of_pos hall]
  simp

end FilePath

end MotifSearch
