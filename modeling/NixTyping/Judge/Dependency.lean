import NixTyping.Expr.Basic
import NixTyping.Sorted
/-!
The dependencies of a group of bindings. A binding depends on each sibling whose name stands anywhere in its
definition, and on the source it is inherited from. Bindings that depend on each other, directly or through others,
form a component.
-/

namespace NixTyping

/-- For each node the nodes it depends on. -/
structure Dependencies where
  successors : List (List Nat)

namespace Dependencies

/-- The nodes that a node depends on directly. -/
def next (g : Dependencies) (i : Nat) : List Nat := (g.successors[i]?).getD []

/-- What is reached from `seen` in at most `steps` steps. -/
def spread (g : Dependencies) : (steps : Nat) → (seen : List Nat) → List Nat
  | 0, seen => seen
  | n + 1, seen =>
    let more := distinct (seen ++ seen.flatMap g.next)
    if more.length = seen.length then seen else spread g n more

/-- The nodes that can be reached from a node, itself included. -/
def reachable (g : Dependencies) (i : Nat) : List Nat := g.spread g.successors.length [i]

/-- For each node the first node of its component. -/
def components (g : Dependencies) : List Nat :=
  let reach := (List.range g.successors.length).map g.reachable
  reach.zipIdx.map fun (from_, i) =>
    ((from_.filter fun j => ((reach[j]?).getD []).contains i).min?).getD i

/-- The dependencies of a group: its names first, its sources behind them. -/
def ofBindings (b : Bindings Expr) : Dependencies :=
  let names := b.names
  let uses (e : Expr) : List Nat := distinct (e.mentioned.filterMap fun x => names.idxOf? x)
  ⟨b.statics.map (fun
      | (_, .expr e) => uses e
      | (_, .inherit _) => []
      | (_, .inheritFrom i) => if i < b.sources.length then [names.length + i] else []) ++ b.sources.map uses⟩

end Dependencies

end NixTyping
