import NixTyping.Ty.Printer
/-!
Assumptions: the types at which free names are used, one entry for each occurrence. Whatever binds the name
decides what they must be.
-/

namespace NixTyping

/-- Occurrences in the order in which they were met. -/
structure Assumptions where
  entries : List (String × Ty) := []
  deriving DecidableEq

namespace Assumptions

instance : EmptyCollection Assumptions := ⟨{}⟩

def single (name : String) (t : Ty) : Assumptions := ⟨[(name, t)]⟩

/-- The occurrences of `other` after those of `a`. -/
def merge (a other : Assumptions) : Assumptions := ⟨a.entries ++ other.entries⟩

def remove (a : Assumptions) (name : String) : Assumptions := ⟨a.entries.filter fun e => e.1 ≠ name⟩

def removeAll (a : Assumptions) (names : List String) : Assumptions := names.foldl remove a

/-- The types of the occurrences of a name. -/
def lookup (a : Assumptions) (name : String) : List Ty :=
  (a.entries.filter fun e => e.1 = name).map (·.2)

/-- The names that occur, in ascending order. -/
def keys (a : Assumptions) : List String := sortNames (a.entries.map (·.1))

def debug (a : Assumptions) : String :=
  bracketed "[" (a.entries.map fun (name, t) => "(" ++ quoted name ++ ", " ++ t.debug ++ ")") "]"

end Assumptions

end NixTyping
