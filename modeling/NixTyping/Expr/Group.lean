import NixTyping.Expr.Lowering
import NixTyping.Sorted
/-!
Groups of bindings while they are being read. Bindings `a.b = 1; a.c = 2;` are folded into nested sets. The first
binding of a name wins: a later one is odd, and its value is not even built.
-/

namespace NixTyping

mutual

/-- A group of bindings so far. -/
inductive Draft where
  | mk (span : Option Span) (isRec : Bool) (statics : List (String × DraftEntry)) (sources : List Expr)
    (dynamics : List (Expr × Expr))

inductive DraftEntry where
  /-- A set to which bindings can be added. -/
  | set (d : Draft)
  /-- A value that nothing can be added to. -/
  | value (b : Binding Expr)

end

/-- A step of the path to a binding: a known name, or one that is still to be built. -/
inductive Key where
  | fixed (name : String) (span : Span)
  | computed (span : Span) (build : Lowering Expr)

def Key.span : Key → Span
  | .fixed _ s | .computed s _ => s

/-- A value that is a set literal can be added to a set that is there. -/
structure SetLiteral where
  span : Span
  isRec : Bool
  /-- Add the entries of the literal to a group. -/
  addTo : Draft → Lowering Draft

/-- A bound value: how it is built, and what it is if it is a set literal. -/
structure BoundValue where
  build : Lowering Expr
  literal? : Option SetLiteral

namespace Draft

def empty (span : Option Span) (isRec : Bool) : Draft := .mk span isRec [] [] []

def find? : Draft → String → Option DraftEntry
  | .mk _ _ statics _ _, key => findKey key statics

/-- Add an entry under a new name. -/
def push : Draft → String → DraftEntry → Draft
  | .mk s r statics sources dynamics, key, e => .mk s r (statics ++ [(key, e)]) sources dynamics

/-- Replace the set under a name. -/
def replace : Draft → String → DraftEntry → Draft
  | .mk s r statics sources dynamics, key, e =>
    .mk s r (statics.map fun x => if x.1 = key then (key, e) else x) sources dynamics

def pushDynamic : Draft → Expr → Expr → Draft
  | .mk s r statics sources dynamics, key, value => .mk s r statics sources (dynamics ++ [(key, value)])

/-- Add a source, and tell its number. -/
def pushSource : Draft → Expr → Nat × Draft
  | .mk s r statics sources dynamics, e => (sources.length, .mk s r statics (sources ++ [e]) dynamics)

/-- A set to which a literal is added is where the first literal was written, and recursive if one of them is. -/
def absorb : Draft → SetLiteral → Draft
  | .mk s r statics sources dynamics, l => .mk (s <|> some l.span) (r || l.isRec) statics sources dynamics

/-! ## Finishing -/

mutual

/-- Build the set expression of a group. -/
def finish : Draft → Lowering Expr
  | .mk span isRec statics sources dynamics => do
    let statics ← finishStatics statics
    Lowering.build span (.set isRec ⟨statics, sources, dynamics⟩)

def finishEntry : DraftEntry → Lowering (Binding Expr)
  | .set d => do return .expr (← finish d)
  | .value b => return b

def finishStatics : List (String × DraftEntry) → Lowering (List (String × Binding Expr))
  | [] => return []
  | (key, e) :: rest => do
    let b ← finishEntry e
    return (key, b) :: (← finishStatics rest)

end

/-- The bindings of a group. -/
def bindings : Draft → Lowering (Bindings Expr)
  | .mk _ _ statics sources dynamics => do return ⟨← finishStatics statics, sources, dynamics⟩

/-! ## Adding -/

/-- Bind a name. A set literal is added to the set that the name stands for. -/
def bindName (d : Draft) (name : String) (span : Span) (v : BoundValue) : Lowering Draft := do
  match d.find? name, v.literal? with
  | none, none => return d.push name (.value (.expr (← v.build)))
  | none, some l => return d.push name (.set (← l.addTo (.empty (some l.span) l.isRec)))
  | some (.set sub), some l => return d.replace name (.set (← l.addTo (sub.absorb l)))
  | some _, _ => do
    Lowering.warn (.duplicate name span)
    return d

/-- Bind the end of a path. -/
def bindPath (v : BoundValue) : List Key → Draft → Lowering Draft
  | [], d => return d
  | [.fixed name span], d => d.bindName name span v
  | [.computed _ build], d => do
    let key ← build
    return d.pushDynamic key (← v.build)
  | .fixed name span :: path, d => do
    match d.find? name with
    | none => return d.push name (.set (← bindPath v path (.empty none false)))
    | some (.set sub) => return d.replace name (.set (← bindPath v path sub))
    | some (.value _) =>
      Lowering.warn (.duplicate name span)
      return d
  | .computed _ build :: path, d => do
    let key ← build
    let sub ← bindPath v path (.empty none false)
    return d.pushDynamic key (← sub.finish)

/-- Take names from outside, or from a source of the group. A computed name cannot be taken over. -/
def inheritNames (source : Option Nat) : List Key → Draft → Lowering Draft
  | [], d => return d
  | .fixed name span :: keys, d => do
    if (d.find? name).isSome then
      Lowering.warn (.duplicate name span)
      inheritNames source keys d
    else
      let b ← match source with
        | some i => pure (.inheritFrom i)
        | none => Binding.inherit <$> Lowering.build (some span) (.ref name)
      inheritNames source keys (d.push name (.value b))
  | .computed span build :: keys, d => do
    Lowering.warn (.dynamicInherit span)
    let key ← build
    inheritNames source keys (d.pushDynamic key (← Lowering.missing))

end Draft

end NixTyping
