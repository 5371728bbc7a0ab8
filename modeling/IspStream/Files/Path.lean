/-!
# Paths

A path is text with slashes between its components.  Empty components do not
count, and neither does a component `.` unless the path begins with it, so that
`a//b/./` and `a/b` are in the same directory.
-/

namespace IspStream.Path

/-- Whether a path starts at the root. -/
def isAbsolute (path : String) : Bool := path.toList.head? == some '/'

/-- Whether a path ends in a slash, and so can only be a directory. -/
def endsInSlash (path : String) : Bool := path.toList.getLast? == some '/'

/-- The non-empty components of a path. -/
def components (path : String) : List String :=
  ((path.toList.splitOn '/').filter fun component => !component.isEmpty).map String.ofList

/-- A path inside a directory: an absolute path stays as it is, any other is
appended behind a slash. -/
def join (directory path : String) : String :=
  if isAbsolute path || directory.isEmpty then path
  else if endsInSlash directory then directory ++ path
  else directory ++ "/" ++ path

/-! ## The parent directory -/

/-- A reversed path without the slashes and the components `.` that stand behind
its last component. -/
def dropSeparators : List Char → List Char
  | '/' :: rest => dropSeparators rest
  | '.' :: '/' :: rest => dropSeparators rest
  | reversed => reversed

/-- What remains of a reversed path in front of its last component.  Of a run of
separators that starts at the root, the root remains. -/
def dropComponent (reversed : List Char) : List Char :=
  let rest := reversed.dropWhile (· != '/')
  match dropSeparators rest with
  | [] => rest.take 1
  | remaining => remaining

/-- The directory that a path is in.  The root and the empty path are in none. -/
def parent? (path : String) : Option String :=
  match dropSeparators path.toList.reverse with
  | [] => none
  | reversed => some (String.ofList (dropComponent reversed).reverse)

theorem length_dropSeparators_le (reversed : List Char) :
    (dropSeparators reversed).length ≤ reversed.length := by
  fun_induction dropSeparators reversed with
  | case1 rest ih => exact Nat.le_succ_of_le ih
  | case2 rest ih => exact Nat.le_succ_of_le (Nat.le_succ_of_le ih)
  | case3 reversed => exact Nat.le_refl _

theorem head?_dropSeparators_ne (reversed : List Char) :
    (dropSeparators reversed).head? ≠ some '/' := by
  fun_induction dropSeparators reversed with
  | case1 rest ih => exact ih
  | case2 rest ih => exact ih
  | case3 reversed hslash hdot =>
      intro hhead
      cases reversed with
      | nil => simp at hhead
      | cons first rest => exact hslash rest (by simp_all)

theorem length_dropComponent_lt {first : Char} (rest : List Char) (h : first ≠ '/') :
    (dropComponent (first :: rest)).length < (first :: rest).length := by
  have hdrop : (rest.dropWhile (· != '/')).length ≤ rest.length :=
    (List.dropWhile_sublist _).length_le
  have hseparators := length_dropSeparators_le (rest.dropWhile (· != '/'))
  simp only [dropComponent, List.dropWhile_cons, bne_iff_ne, ne_eq, h, not_false_eq_true,
    if_true, List.length_cons]
  split
  · simp only [List.length_take]
    omega
  · omega

/-- A path is longer than the directory that it is in. -/
theorem length_parent?_lt {path parent : String} (h : parent? path = some parent) :
    parent.length < path.length := by
  unfold parent? at h
  split at h
  · contradiction
  · rename_i reversed hne
    cases hreversed : dropSeparators path.toList.reverse with
    | nil => exact absurd hreversed hne
    | cons first rest =>
        have hslash : first ≠ '/' := by
          intro heq
          apply head?_dropSeparators_ne path.toList.reverse
          rw [hreversed, heq]
          rfl
        have hle := length_dropSeparators_le path.toList.reverse
        have hlt := length_dropComponent_lt rest hslash
        cases h
        rw [hreversed] at hle ⊢
        simp only [String.length_ofList, List.length_reverse, String.length_toList] at hle hlt ⊢
        omega

end IspStream.Path
