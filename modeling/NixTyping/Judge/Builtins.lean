import NixTyping.Env
/-!
The environment that every file starts from. Each builtin has a closed scheme. The set `builtins` is one open
record, since it has more fields than are known here; the common builtins are also bound by themselves.
-/

namespace NixTyping

namespace Builtins

/-- Two variables of the types below. -/
def a : Ty := .var 0

def b : Ty := .var 1

def anyList : Ty := .list []

def anySet : Ty := .record [] true

def listOf (t : Ty) : Ty := .list [t]

/-- The builtins that are known, with the variables of their types. -/
def types : List (String × Ty) :=
  ["isAttrs", "isBool", "isFloat", "isFunction", "isInt", "isList", "isNull", "isPath", "isString",
    "pathExists"].map (·, Ty.fn a .bool) ++
  ["typeOf", "toString", "toJSON", "readFile", "baseNameOf"].map (·, Ty.fn a .string) ++
  ["fromJSON", "fromTOML", "throw", "abort"].map (·, Ty.fn .string a) ++
  ["ceil", "floor"].map (·, Ty.overloads [.fn .float .int, .fn .int .int]) ++
  ["seq", "deepSeq", "trace"].map (·, Ty.fns [a, b] b) ++
  ["all", "any"].map (·, Ty.fns [.fn a .bool, listOf a] .bool) ++
  ["langVersion", "currentTime"].map (·, Ty.int) ++
  ["nixVersion", "currentSystem", "storeDir"].map (·, Ty.string) ++
  ([("head", .fn (listOf a) a),
   ("tail", .fn (listOf a) (listOf a)),
   ("length", .fn anyList .int),
   ("elemAt", .fns [listOf a, .int] a),
   ("elem", .fns [a, listOf a] .bool),
   ("stringLength", .fn .string .int),
   ("substring", .fns [.int, .int, .string] .string),
   ("getEnv", .fn .string .string),
   ("concatStringsSep", .fns [.string, listOf .string] .string),
   ("dirOf", .overloads [.fn .path .path, .fn .string .string]),
   ("import", .fn a b),
   ("attrNames", .fn anySet (listOf .string)),
   ("attrValues", .fn anySet anyList),
   ("hasAttr", .fns [.string, anySet] .bool),
   ("getAttr", .fns [.string, anySet] a),
   ("derivation", .fn anySet anySet),
   ("map", .fns [.fn a b, listOf a] (listOf b)),
   ("filter", .fns [.fn a .bool, listOf a] (listOf a)),
   ("foldl'", .fns [.fns [a, b] a, a, listOf b] a),
   ("genList", .fns [.fn .int a, .int] (listOf a)),
   ("concatLists", .fn (listOf (listOf a)) (listOf a)),
   ("concatMap", .fns [.fn a (listOf b), listOf a] (listOf b)),
   ("sort", .fns [.fns [a, a] .bool, listOf a] (listOf a)),
   ("partition", .fns [.fn a .bool, listOf a] (.ofFields [("right", listOf a), ("wrong", listOf a)] false)),
   ("mapAttrs", .fns [.fns [.string, a] b, anySet] anySet),
   ("tryEval", .fn a (.ofFields [("success", .bool), ("value", a)] false)),
   ("functionArgs", .fn (.fn a b) anySet),
   ("listToAttrs", .fn anyList anySet),
   ("removeAttrs", .fns [anySet, listOf .string] anySet)] : List (String × Ty))

/-- The builtins in scope under their own names. -/
def globals : List String :=
  ["abort", "baseNameOf", "derivation", "dirOf", "import", "isNull", "map", "removeAttrs", "throw", "toString"]

end Builtins

/-- The environment of the builtins. -/
def Env.builtins : Env :=
  let fields := sortKeys Builtins.types
  let globals := Builtins.globals.filterMap fun name =>
    (findKey name fields).map fun t => (name, [Scheme.closeOver t])
  .ofList (("builtins", [Scheme.closeOver (.record fields true)]) :: globals)

end NixTyping
