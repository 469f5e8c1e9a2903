/-!
Association lists in ascending order of their keys. Such a list is the canonical form of a finite map: two maps
with the same entries are the same list, so equality of maps is equality of lists.
-/

namespace NixTyping

section Keyed

variable {κ α : Type} [LT κ] [DecidableLT κ] [DecidableEq κ]

/-- The entries stand in strictly ascending order of their keys. -/
def SortedKeys (m : List (κ × α)) : Prop := m.Pairwise fun a b => a.1 < b.1

/-- Put `v` under `k`, in place of what stood there. -/
def insertKey (k : κ) (v : α) : List (κ × α) → List (κ × α)
  | [] => [(k, v)]
  | (k', v') :: rest =>
    if k < k' then (k, v) :: (k', v') :: rest
    else if k = k' then (k, v) :: rest
    else (k', v') :: insertKey k v rest

/-- The value under `k`. -/
def findKey (k : κ) : List (κ × α) → Option α
  | [] => none
  | (k', v) :: rest => if k = k' then some v else findKey k rest

/-- The map of the entries of a list; of two entries with one key the later stays. -/
def sortKeys (entries : List (κ × α)) : List (κ × α) :=
  entries.foldl (fun m (k, v) => insertKey k v m) []

omit [LT κ] [DecidableLT κ] in
@[simp] theorem findKey_nil (k : κ) : findKey k ([] : List (κ × α)) = none := rfl

end Keyed

/-- The distinct elements of a list, each where it first stands. -/
def distinct {α : Type} [DecidableEq α] (xs : List α) : List α :=
  xs.foldl (fun seen x => if x ∈ seen then seen else seen ++ [x]) []

/-- Put a name into an ascending list of distinct names. -/
def insertName (x : String) : List String → List String
  | [] => [x]
  | y :: rest => if x < y then x :: y :: rest else if x = y then y :: rest else y :: insertName x rest

/-- The distinct names of a list in ascending order. -/
def sortNames (xs : List String) : List String :=
  xs.foldl (fun s x => insertName x s) []

theorem mem_insertName {x y : String} {s : List String} : y ∈ insertName x s ↔ y = x ∨ y ∈ s := by
  induction s with
  | nil => simp [insertName]
  | cons z rest ih =>
    unfold insertName
    split
    · simp
    · split
      · next h => simp [h]
      · rw [List.mem_cons, ih, List.mem_cons]
        exact or_left_comm

theorem mem_sortNames {y : String} {xs : List String} : y ∈ sortNames xs ↔ y ∈ xs := by
  have hfold : ∀ s : List String, y ∈ xs.foldl (fun s x => insertName x s) s ↔ y ∈ xs ∨ y ∈ s := by
    induction xs with
    | nil => simp
    | cons x xs ih =>
      intro s
      rw [List.foldl_cons, ih, mem_insertName, List.mem_cons, or_left_comm, or_assoc]
  simpa [sortNames] using hfold []

end NixTyping
