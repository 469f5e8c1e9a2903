import NixTyping.Scheme
/-!
The typing environment: the names in scope at the top level, each with its candidate schemes. A name with several
schemes came out of an overloaded inference and is used at all of them.
-/

namespace NixTyping

/-- Names in ascending order with their schemes. -/
structure Env where
  entries : List (String × List Scheme) := []

namespace Env

instance : EmptyCollection Env := ⟨{}⟩

/-- Bind a name, in place of what it was bound to. -/
def extend (env : Env) (name : String) (schemes : List Scheme) : Env := ⟨insertKey name schemes env.entries⟩

def ofList (entries : List (String × List Scheme)) : Env := ⟨sortKeys entries⟩

def lookup (env : Env) (name : String) : Option (List Scheme) := findKey name env.entries

def contains (env : Env) (name : String) : Bool := (env.lookup name).isSome

def remove (env : Env) (name : String) : Env := ⟨env.entries.filter fun e => e.1 ≠ name⟩

def keys (env : Env) : List String := env.entries.map (·.1)

def size (env : Env) : Nat := env.entries.length

/-- Both environments; where they differ the second wins. -/
def merge (env other : Env) : Env := other.entries.foldl (fun e (name, schemes) => e.extend name schemes) env

end Env

end NixTyping
