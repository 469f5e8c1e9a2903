/-!
Paths as texts with a slash between their parts. Nothing is resolved: a path is joined and cut as it is written. Main
statement: every parent is shorter, so the ancestors of a path end.
-/

namespace NixTyping.Path

/-- The end of a path read backwards, without the slashes and single dots that say nothing. The slash in front of an
absolute path stays. -/
def trim : List Char → List Char
  | '/' :: cs => if cs.isEmpty then ['/'] else trim cs
  | '.' :: '/' :: cs => trim ('/' :: cs)
  | cs => cs

theorem length_trim_le (cs : List Char) : (trim cs).length ≤ cs.length := by
  fun_induction trim cs <;> simp_all <;> omega

/-- Only the slash of an absolute path is left at the end. -/
theorem trim_eq_slash {cs rest : List Char} (h : trim cs = '/' :: rest) : rest = [] := by
  fun_induction trim cs <;> simp_all

/-- The parent of a path, both read backwards. -/
def parentRev? (cs : List Char) : Option (List Char) :=
  match trim cs with
  | [] => none
  | ['/'] => none
  | rest => some (trim (rest.dropWhile (· ≠ '/')))

theorem length_parentRev? {cs p : List Char} (h : parentRev? cs = some p) : p.length < cs.length := by
  have hle := length_trim_le cs
  unfold parentRev? at h
  split at h
  · cases h
  · cases h
  next hnil hslash =>
    cases h
    refine Nat.lt_of_le_of_lt (length_trim_le _) (Nat.lt_of_lt_of_le ?_ hle)
    cases ht : trim cs with
    | nil => exact absurd ht hnil
    | cons c rest =>
      have hc : c ≠ '/' := by
        rintro rfl
        exact hslash (by rw [ht, trim_eq_slash ht])
      rw [List.dropWhile_cons_of_pos (by simpa using hc)]
      exact Nat.lt_succ_of_le (List.dropWhile_sublist _).length_le

/-- The directory that a path stands in: nothing for one part, none for no part and for the root. -/
def parent? (path : String) : Option String :=
  (parentRev? path.toList.reverse).map fun cs => String.ofList cs.reverse

/-- A path and its parents, all read backwards. -/
def ancestorsRev (cs : List Char) : List (List Char) :=
  match _h : parentRev? cs with
  | none => [cs]
  | some p => cs :: ancestorsRev p
termination_by cs.length
decreasing_by exact length_parentRev? _h

/-- A path and its parents, the nearest first. -/
def ancestors (path : String) : List String :=
  (ancestorsRev path.toList.reverse).map fun cs => String.ofList cs.reverse

/-- A path seen from a directory. An absolute path stands alone, and the empty directory adds nothing. -/
def join (dir path : String) : String :=
  if path.startsWith "/" || dir.isEmpty then path
  else if dir.endsWith "/" then dir ++ path
  else dir ++ "/" ++ path

/-- The last part of a path, if it names something in a directory. -/
def name? (path : String) : Option (List Char) :=
  let name := ((trim path.toList.reverse).takeWhile (· ≠ '/')).reverse
  if name = [] || name = ['.'] || name = ['.', '.'] then none else some name

/-- The name of a file without what follows its last dot. A dot in front belongs to the name. -/
def stem? (path : String) : Option String :=
  (name? path).map fun name =>
    match name.reverse.dropWhile (· ≠ '.') with
    | [] | ['.'] => String.ofList name
    | _ :: before => String.ofList before.reverse

end NixTyping.Path
