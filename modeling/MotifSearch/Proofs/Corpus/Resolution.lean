import MotifSearch.Proofs.Corpus.Walk

/-!
# Following paths

A path may lead through links, in at most so many steps. From the place that it leads to, a path
through directories alone leads on without a link, so what is listed below a directory is found
again by the path of the directory with the listed path after it. Where a path leads to something if
a link at its end is followed, it leads to something if not.

## Main results

* `resolve_append` — a file below a directory is found by the path of the directory
* `exists_of_resolve` — there is something at the end of a path, whether the last link is followed
  or not
-/

namespace MotifSearch.FileTree

variable {tree found : FileTree} {last : Bool} {dir path place below : FilePath} {bytes : ByteArray}
  {follow : FilePath → FilePath → Option FilePath}

/-- Whether a path without links leads from a place to a file with certain bytes. -/
def HasBelow (tree : FileTree) (place below : FilePath) (bytes : ByteArray) : Prop :=
  ∃ found, tree.lookup place = some found ∧ found.IsProper ∧ found.lookup below = some (file bytes)

/-- A path without links leads where it says. -/
theorem resolveWith_of_hasBelow (h : tree.HasBelow place below bytes) :
    tree.resolveWith last follow place below = some (place ++ below) := by
  induction below generalizing place with
  | nil => rw [resolveWith, List.append_nil]
  | cons name below ih =>
    obtain ⟨found, hplace, hproper, hbelow⟩ := h
    obtain ⟨entries, sub, rfl, hsub, hrest⟩ := exists_of_lookup_cons hbelow
    obtain ⟨hname, hproper⟩ := hproper.of_entry ((lookup_eq_some_iff hproper.1).mp hsub)
    have hnext : tree.lookup (place ++ [name]) = some sub := by
      rw [lookup_append, hplace, Option.bind_some, lookup]
      exact Option.bind_eq_some_iff.mpr ⟨sub, hsub, rfl⟩
    rw [resolveWith, if_neg hname, hnext]
    cases sub with
    | directory entries =>
      have hnext := ih ⟨_, hnext, hproper, hrest⟩
      rwa [List.append_assoc] at hnext
    | file other =>
      -- Nothing is below a file, so it is the one that is looked for.
      cases below with
      | nil => rfl
      | cons next below => cases hrest
    | link target =>
      cases below with
      | nil => cases hrest
      | cons next below => cases hrest

/-- Where a path leads to a place and another path on to a file, the two lead there together. -/
theorem resolveWith_append
    (hfollow : ∀ dir path place, follow dir path = some place → tree.HasBelow place below bytes →
      follow dir (path ++ below) = some (place ++ below))
    (h : tree.resolveWith true follow dir path = some place)
    (hbelow : tree.HasBelow place below bytes) :
    tree.resolveWith true follow dir (path ++ below) = some (place ++ below) := by
  induction path generalizing dir with
  | nil =>
    rw [resolveWith] at h
    cases h
    exact resolveWith_of_hasBelow hbelow
  | cons name path ih =>
    rw [resolveWith] at h
    rw [List.cons_append, resolveWith]
    split at h
    · next hup =>
      rw [if_pos hup]
      split at h
      · cases h
      · next hdir =>
        rw [if_neg hdir]
        exact ih h
    · next hup =>
      rw [if_neg hup]
      cases hnext : tree.lookup (dir ++ [name]) with
      | none =>
        rw [hnext] at h
        cases h
      | some next =>
        rw [hnext] at h
        cases next with
        | directory entries => exact ih h
        | link target =>
          -- The link is followed with the rest of this path, and the other path comes after it.
          simp only [Bool.not_true, Bool.false_eq_true, and_false, if_false] at h ⊢
          rw [← List.append_assoc]
          exact hfollow _ _ _ h hbelow
        | file other =>
          dsimp only at h
          split at h
          · next hpath =>
            -- The place is this file, so the other path is empty.
            subst hpath
            cases h
            obtain ⟨found, hplace, -, hfile⟩ := hbelow
            cases hnext.symm.trans hplace
            cases below with
            | nil => simp
            | cons name below => cases hfile
          · cases h

theorem resolveFrom_append {links : Nat}
    (h : tree.resolveFrom true links dir path = some place)
    (hbelow : tree.HasBelow place below bytes) :
    tree.resolveFrom true links dir (path ++ below) = some (place ++ below) := by
  induction links generalizing dir path place with
  | zero => exact resolveWith_append (fun _ _ _ hnone => by cases hnone) h hbelow
  | succ links ih => exact resolveWith_append (fun _ _ _ => ih) h hbelow

/-- A file below a directory is found by the path of the directory with its own path after it. -/
theorem resolve_append (hproper : tree.IsProper) (h : tree.resolve true path = some found)
    (hbelow : found.lookup below = some (file bytes)) :
    tree.resolve true (path ++ below) = some (file bytes) := by
  obtain ⟨place, hplace, hfound⟩ := Option.bind_eq_some_iff.mp h
  have hhas : tree.HasBelow place below bytes :=
    ⟨found, hfound, (hproper.of_lookup hfound).2, hbelow⟩
  rw [resolve, resolveFrom_append hplace hhas, Option.bind_some, lookup_append, hfound]
  exact hbelow

/-- A link at the end of a path is something itself. -/
theorem exists_of_resolveWith {other : FilePath → FilePath → Option FilePath}
    (hfollow : ∀ dir path place, follow dir path = some place → (tree.lookup place).isSome = true →
      ∃ place, other dir path = some place ∧ (tree.lookup place).isSome = true)
    (h : tree.resolveWith true follow dir path = some place)
    (hplace : (tree.lookup place).isSome = true) :
    ∃ place, tree.resolveWith false other dir path = some place ∧
      (tree.lookup place).isSome = true := by
  induction path generalizing dir with
  | nil =>
    rw [resolveWith] at h
    obtain rfl := Option.some.inj h
    exact ⟨dir, rfl, hplace⟩
  | cons name path ih =>
    rw [resolveWith] at h ⊢
    split at h
    · next hup =>
      rw [if_pos hup]
      split at h
      · cases h
      · next hdir =>
        rw [if_neg hdir]
        exact ih h
    · next hup =>
      rw [if_neg hup]
      cases hnext : tree.lookup (dir ++ [name]) with
      | none =>
        rw [hnext] at h
        cases h
      | some next =>
        rw [hnext] at h
        cases next with
        | directory entries => exact ih h
        | file bytes =>
          dsimp only at h ⊢
          split at h
          · next hpath =>
            cases h
            exact ⟨_, if_pos hpath, hplace⟩
          · cases h
        | link target =>
          -- At the end of the path the link itself is what is found; before that it is followed.
          simp only [Bool.not_true, Bool.false_eq_true, and_false, if_false] at h
          by_cases hpath : path = []
          · exact ⟨_, if_pos ⟨hpath, rfl⟩, by rw [hnext]; rfl⟩
          · obtain ⟨place, hother, hsome⟩ := hfollow _ _ _ h hplace
            exact ⟨place, (if_neg fun hand => hpath hand.1).trans hother, hsome⟩

theorem exists_of_resolveFrom {links : Nat}
    (h : tree.resolveFrom true links dir path = some place)
    (hplace : (tree.lookup place).isSome = true) :
    ∃ place, tree.resolveFrom false links dir path = some place ∧
      (tree.lookup place).isSome = true := by
  induction links generalizing dir path place with
  | zero => exact exists_of_resolveWith (fun _ _ _ hnone => by cases hnone) h hplace
  | succ links ih => exact exists_of_resolveWith (fun _ _ _ => ih) h hplace

/-- Where a path leads to something with its last link followed, there is something without. -/
theorem exists_of_resolve (h : tree.resolve true path = some found) :
    ∃ other, tree.resolve false path = some other := by
  obtain ⟨place, hplace, hfound⟩ := Option.bind_eq_some_iff.mp h
  obtain ⟨place, hother, hsome⟩ := exists_of_resolveFrom hplace (by rw [hfound]; rfl)
  obtain ⟨other, hlookup⟩ := Option.isSome_iff_exists.mp hsome
  exact ⟨other, by rw [resolve, hother]; exact hlookup⟩

end MotifSearch.FileTree
