import NixTyping.Env
import NixTyping.Error
import NixTyping.Judge.Dependency
import NixTyping.Judge.Judgment
import NixTyping.Judge.Scope
import NixTyping.Log
/-!
The judgment of an expression. The bindings of a group are deferred: each is judged where it is first needed, and
once. What a name stands for is found in this order:

* the scopes around it, innermost first. A parameter or a name of a `let` body is an assumption. A name of the group
  that is being defined is the type of its binding, within one component, or an instance of it;
* `true`, `false`, `null`;
* the environment;
* the records opened by `with`, innermost first. Inside of a `with` any other name is unknown;
* else it is an assumption that nothing will resolve.

A name bound to a record remembers the record for the variable it is used at, so that its fields can be selected.
-/

namespace NixTyping

namespace Judging

/-- What the walk tells on its way. -/
inductive Note where
  | leftUnknown (name : String)
  | refersToItself (slot : Nat)
  deriving DecidableEq

def Note.line : Note → LogLine
  | .leftUnknown name => ⟨.trace, "`" ++ name ++ "` left unknown inside `with`"⟩
  | .refersToItself slot => ⟨.debug, slotName slot ++ " refers to itself, typing it as unknown"⟩

/-- Why a walk cannot go on. -/
inductive Stuck where
  | slot (e : SlotError)
  | noSource (name : String) (source : Nat)
  | tooDeep
  deriving DecidableEq

def Stuck.message : Stuck → String
  | .slot e => e.message
  | .noSource name source => s!"`inherit` of `{name}` names a missing source {source}"
  | .tooDeep => "expressions are nested too deeply"

/-- What a slot is computed from. -/
inductive Deferred where
  | expr (e : Expr)
  /-- The field of a name in the value of another slot. -/
  | field (source : Nat) (name : String)

/-- A binding that waits, with the context it was defined in. -/
structure Pending where
  scopes : List Scope
  mono : VarSet
  value : Deferred

/-- A group whose bindings and sources were put off, in a context, into the slots from `first` on. -/
structure Deferral where
  ctx : Context
  group : Bindings Expr
  first : Nat

/-- What a walk has done. -/
inductive Event where
  | judged (ctx : Context) (e : Expr) (j : Judgment)
  | deferred (d : Deferral)
  /-- A slot was needed for its own judgment. -/
  | looped (ctx : Context) (slot : Nat)

/-- Variables are numbered as they are issued; records are known for the variables at which they are used. The
history has the last event first, and no step depends on it. -/
structure State where
  next : Nat := 0
  slots : Slots Pending Judgment := ∅
  known : List (Nat × KnownRecord) := []
  notes : Array Note := #[]
  history : List Event := []

end Judging

open Judging in
/-- A computation on the state of a walk. -/
abbrev Judging (α : Type) := StateT State (Except Stuck) α

namespace Judging

/-- What is to be judged: an expression, or what a slot stands for. -/
inductive Task where
  | expr (e : Expr)
  | force (slot : Nat)

/-- How tasks are carried out in a context. -/
abbrev Runner := Context → Task → Judging Judgment

/-! ## Fresh variables and slots -/

def fresh : Judging Nat := modifyGet fun s => (s.next, { s with next := s.next + 1 })

def freshTy : Judging Ty := do return .var (← fresh)

/-- A type about which nothing is known. -/
def unknown : Judging Judgment := do return .ofTy (← freshTy)

def note (n : Note) : Judging Unit := modify fun s => { s with notes := s.notes.push n }

def record (e : State → Event) : Judging Unit := modify fun s => { s with history := e s :: s.history }

/-- Change the slots, unless they are used in a wrong way. -/
def changeSlots (f : Slots Pending Judgment → Except SlotError (Slots Pending Judgment)) : Judging Unit := do
  match f (← get).slots with
  | .ok slots => modify fun s => { s with slots }
  | .error e => throw (.slot e)

def reserve : Judging Nat := modifyGet fun s =>
  let (id, slots) := s.slots.reserve
  (id, { s with slots })

/-! ## Records -/

def remember (var : Nat) (r : KnownRecord) : Judging Unit := modify fun s => { s with known := (var, r) :: s.known }

/-- The record behind a type, looking through the variables of names that are bound to records. -/
def recordOf : Ty → Judging (Option KnownRecord)
  | .record fields _ => return some ⟨fields, .here⟩
  | .var v => do return (← get).known.lookup v
  | _ => return none

/-- A use of a type that was taken out of a record. -/
def instanceOf (t : Ty) : Origin → Judging Judgment
  | .here => return .ofTy t
  | .letBound mono => do
    let tv ← freshTy
    return .constrained (.implicit tv mono t) tv
  | .ambient vars => do
    let tv ← freshTy
    return .constrained (.explicit tv ⟨vars, t⟩) tv

/-- A field of a record, unknown when the type is not a record that has it. -/
def fieldOf (t : Ty) (name : String) : Judging Judgment := do
  match ← recordOf t with
  | some r =>
    match findKey name r.fields with
    | some t => instanceOf t r.origin
    | none => unknown
  | none => unknown

/-! ## Names -/

/-- A fresh variable for one use of a binding, and the type of the binding. -/
def letBound (run : Runner) (ctx : Context) (slot : Nat) (mono : VarSet) : Judging (Nat × Ty) := do
  let v ← fresh
  let t := (← run ctx (.force slot)).ty
  match t with
  | .record fields _ => remember v ⟨fields, .letBound mono⟩
  | _ => pure ()
  return (v, t)

/-- A name that the environment binds. A name with one scheme, a record, remembers it. -/
def ambientName (name : String) (schemes : List Scheme) : Judging Judgment := do
  let v ← fresh
  match schemes with
  | [⟨vars, .record fields _⟩] => remember v ⟨fields, .ambient vars⟩
  | _ => pure ()
  return .reference name (.var v)

/-- A name that is bound by no scope, is no constant and is not in the environment. -/
def openedName (ctx : Context) (name : String) : Judging Judgment := do
  let field? (r : Option KnownRecord) : Option (Ty × Origin) := do
    let r ← r
    return (← findKey name r.fields, r.origin)
  match ctx.opened.findSome? field? with
  | some (t, origin) => instanceOf t origin
  | none =>
    if ctx.opened.isEmpty then return .reference name (← freshTy)
    else
      note (.leftUnknown name)
      unknown

/-- The type of a name that is a constant unless a scope binds it. -/
def constant? : String → Option Ty
  | "true" | "false" => some .bool
  | "null" => some .null
  | _ => none

def reference (env : Env) (run : Runner) (ctx : Context) (name : String) : Judging Judgment := do
  match ctx.lexical? name with
  | some .param => return .reference name (← freshTy)
  | some (.letBody slot mono) =>
    let (v, _) ← letBound run ctx slot mono
    return .reference name (.var v)
  | some (.group slot mono components) =>
    if ctx.inOwnComponent components slot then return .ofTy (← run ctx (.force slot)).ty
    else
      let (v, t) ← letBound run ctx slot mono
      return .constrained (.implicit (.var v) mono t) (.var v)
  | none =>
    match constant? name, env.lookup name with
    | some t, _ => return .ofTy t
    | none, some schemes => ambientName name schemes
    | none, none => openedName ctx name

/-! ## Groups -/

/-- The slots of a group and the scope its bindings are judged in. -/
structure Group where
  scope : Scope
  names : NamedSlots
  sources : List Nat

/-- What the slot of a binding is computed from. A name taken from outside does not see the group. -/
def deferredBinding (ctx : Context) (scope : Scope) (sources : List Nat) (name : String) :
    Binding Expr → Except Stuck Pending
  | .expr e => return ⟨scope :: ctx.scopes, ctx.mono, .expr e⟩
  | .inherit e => return ⟨ctx.scopes, ctx.mono, .expr e⟩
  | .inheritFrom i =>
    match sources[i]? with
    | some source => return ⟨scope :: ctx.scopes, ctx.mono, .field source name⟩
    | none => throw (.noSource name i)

/-- Reserve and fill a slot for each binding and each source of a group. -/
def deferGroup (ctx : Context) (b : Bindings Expr) : Judging Group := do
  record fun s => .deferred ⟨ctx, b, s.slots.size⟩
  let names ← b.names.mapM fun name => return (name, ← reserve)
  let sources ← b.sources.mapM fun _ => reserve
  let components := (names.map (·.2) ++ sources).zip (Dependencies.ofBindings b).components
  let scope := Scope.group names ctx.mono components
  (b.sources.zip sources).forM fun (e, slot) =>
    changeSlots (·.fill slot ⟨scope :: ctx.scopes, ctx.mono, .expr e⟩)
  (b.statics.zip names).forM fun ((name, binding), (_, slot)) => do
    let pending ← deferredBinding ctx scope sources name binding
    changeSlots (·.fill slot pending)
  return ⟨scope, names, sources⟩

/-- Judge every binding and source of a group. Returns the type of each name, and every judgment once. -/
def forceGroup (run : Runner) (ctx : Context) (g : Group) : Judging (List (String × Ty) × List Judgment) := do
  let bound ← g.names.mapM fun (name, slot) => return (name, ← run ctx (.force slot))
  let sources ← g.sources.mapM fun slot => run ctx (.force slot)
  return (bound.map fun (name, j) => (name, j.ty), bound.map (·.2) ++ sources)

/-- Judge the computed names of a group with their values. -/
def dynamics (run : Runner) (ctx : Context) (b : Bindings Expr) : Judging (List Judgment) :=
  (b.dynamics.flatMap fun (key, value) => [key, value]).mapM fun e => run ctx (.expr e)

def letIn (run : Runner) (ctx : Context) (b : Bindings Expr) (body : Expr) : Judging Judgment := do
  let g ← deferGroup ctx b
  let extra ← dynamics run (ctx.enter g.scope) b
  let body ← run (ctx.enter (.letBody g.names ctx.mono)) (.expr body)
  let (bound, judgments) ← forceGroup run ctx g
  return .letIn bound (judgments ++ extra) body ctx.mono

def recSet (run : Runner) (ctx : Context) (b : Bindings Expr) : Judging Judgment := do
  let g ← deferGroup ctx b
  let extra ← dynamics run (ctx.enter g.scope) b
  let (bound, judgments) ← forceGroup run ctx g
  return .merged (judgments ++ extra) (.ofFields bound (!b.dynamics.isEmpty))

/-- A set whose bindings do not see each other. -/
def plainSet (run : Runner) (ctx : Context) (b : Bindings Expr) : Judging Judgment := do
  let sources ← b.sources.mapM fun e => run ctx (.expr e)
  let fields ← b.statics.mapM fun (name, binding) => do
    let j ← match binding with
      | .expr e | .inherit e => run ctx (.expr e)
      | .inheritFrom i =>
        match sources[i]? with
        | some source => fieldOf source.ty name
        | none => unknown
    return (name, j)
  let extra ← dynamics run ctx b
  return .set fields (sources ++ extra) (!b.dynamics.isEmpty)

/-! ## Functions and attributes -/

def lambda (run : Runner) (ctx : Context) (body : Expr) : Param Expr → Judging Judgment
  | .name x => do
    let v ← fresh
    let body ← run ((ctx.fix [v]).enter (.params [x])) (.expr body)
    return .lambda x (.var v) body
  | .fields fields ellipsis whole => do
    let vars ← fields.mapM fun _ => fresh
    let inner := (ctx.fix vars).enter (.params (fields.map (·.1) ++ whole.toList))
    let defaults ← fields.mapM fun (_, dflt) => dflt.mapM fun e => run inner (.expr e)
    let body ← run inner (.expr body)
    let patternFields := (fields.zip (vars.zip defaults)).map fun ((name, _), v, d) => ⟨name, v, d⟩
    return .patternLambda patternFields whole ellipsis body

/-- The name that a step of a path is, if it is known. -/
def stepName? (e : Expr) : Option String :=
  match e.form with
  | .literal (.string name) => some name
  | _ => none

/-- Go one step into a type. A step that is not a known name is judged for its own sake. -/
def selectStep (run : Runner) (ctx : Context) (current : Option Ty) (e : Expr) :
    Judging (Option Ty × List Judgment) := do
  match stepName? e, current with
  | some name, some (.record fields _) => return (findKey name fields, [])
  | some _, _ => return (none, [])
  | none, _ => return (none, [← run ctx (.expr e)])

/-- Go along a path, and collect the judgments of its steps. -/
def selectPath (run : Runner) (ctx : Context) : Option Ty → List Expr → Judging (Option Ty × List Judgment)
  | current, [] => return (current, [])
  | current, e :: es => do
    let (current, js) ← selectStep run ctx current e
    let (current, more) ← selectPath run ctx current es
    return (current, js ++ more)

def select (run : Runner) (ctx : Context) (subject : Expr) (path : List Expr) (dflt : Option Expr) :
    Judging Judgment := do
  let subject ← run ctx (.expr subject)
  let record ← recordOf subject.ty
  let (found, steps) ← selectPath run ctx (record.map fun r => .record r.fields false) path
  let dflt ← dflt.mapM fun e => run ctx (.expr e)
  let result ← match found, dflt with
    | some t, _ => instanceOf t ((record.map (·.origin)).getD .here)
    | none, some d => pure (.ofTy d.ty)
    | none, none => unknown
  return .merged (subject :: steps ++ dflt.toList ++ [result]) result.ty

def hasAttr (run : Runner) (ctx : Context) (subject : Expr) (path : List Expr) : Judging Judgment := do
  let subject ← run ctx (.expr subject)
  let steps ← (path.filter fun e => (stepName? e).isNone).mapM fun e => run ctx (.expr e)
  return .merged (subject :: steps) .bool

/-- A string or path with interpolated expressions, which may have any type. -/
def interpolation (run : Runner) (ctx : Context) (pieces : List (Piece Expr)) (t : Ty) : Judging Judgment := do
  let parts ← (pieces.filterMap (·.interp?)).mapM fun e => run ctx (.expr e)
  return .merged parts t

/-! ## The walk -/

/-- Judge an expression, given how its parts and the slots around it are judged. -/
def expression (env : Env) (run : Runner) (ctx : Context) : Form Expr → Judging Judgment
  | .missing => unknown
  | .literal l => return .ofTy l.ty
  | .ref name => reference env run ctx name
  | .apply fn arg => do
    let fn ← run ctx (.expr fn)
    let arg ← run ctx (.expr arg)
    return .apply fn arg (← freshTy)
  | .lambda param body => lambda run ctx body param
  | .letIn b body => letIn run ctx b body
  | .set true b => recSet run ctx b
  | .set false b => plainSet run ctx b
  | .list items => do return .list (← items.mapM fun e => run ctx (.expr e))
  | .unary op operand => do
    let operand ← run ctx (.expr operand)
    return .unary op operand (← freshTy)
  | .binary op l r => do
    let l ← run ctx (.expr l)
    let r ← run ctx (.expr r)
    return .binary op l r (← freshTy)
  | .select subject path dflt => select run ctx subject path dflt
  | .hasAttr subject path => hasAttr run ctx subject path
  | .ifElse cond yes no => do
    let cond ← run ctx (.expr cond)
    let yes ← run ctx (.expr yes)
    let no ← run ctx (.expr no)
    return .ifElse cond yes no
  | .withIn scope body => do
    let scope ← run ctx (.expr scope)
    let record ← recordOf scope.ty
    let body ← run (ctx.enter (.withIn record)) (.expr body)
    return .merged [scope, body] body.ty
  | .assertIn cond body => do
    let cond ← run ctx (.expr cond)
    let body ← run ctx (.expr body)
    return .assertIn cond body
  | .stringParts pieces => interpolation run ctx pieces .string
  | .pathParts pieces => interpolation run ctx pieces .path

/-- Judge what a slot stands for, unless that is done. A slot that is needed for its own judgment is unknown. -/
def force (run : Runner) (ctx : Context) (slot : Nat) : Judging Judgment := do
  match (← get).slots.start slot with
  | .ok (.ready j, _) => return j
  | .ok (.pending p, slots) =>
    modify fun s => { s with slots }
    let inner : Context := ⟨p.scopes, p.mono, slot :: ctx.forcing⟩
    let j ← match p.value with
      | .expr e => run inner (.expr e)
      | .field source name => do fieldOf (← run inner (.force source)).ty name
    changeSlots (·.finish slot j)
    return j
  | .error (.loop _) =>
    note (.refersToItself slot)
    record fun _ => .looped ctx slot
    unknown
  | .error e => throw (.slot e)

/-- Carry out tasks that are nested at most so deeply. -/
def runTo (env : Env) : (depth : Nat) → Runner
  | 0 => fun _ _ => throw .tooDeep
  | n + 1 => fun ctx task =>
    match task with
    | .expr e => do
      let j ← expression env (runTo env n) ctx e.form
      record fun _ => .judged ctx e j
      return j
    | .force slot => force (runTo env n) ctx slot

/-- How deeply tasks can be nested: every expression and every slot is entered once, and a slot that stands for a
field enters another. -/
def depthOf (e : Expr) : Nat := 3 * e.all.length + 3

end Judging

/-- The judgment of an expression in an environment, with the state at the end. -/
def Expr.judge (e : Expr) (env : Env) : Except Judging.Stuck (Judgment × Judging.State) :=
  (Judging.runTo env (Judging.depthOf e) {} (.expr e)).run {}

end NixTyping
