import NixTyping.Source.Tree
/-!
Expressions: what a syntax tree means, without parentheses and with the attribute paths of a group of bindings
merged into nested sets. Every expression has a number, in the order in which they were built, so an expression has
a greater number than its parts; and the span it was written at, unless it was written nowhere.
-/

namespace NixTyping

inductive Literal where
  | int (value : Nat)
  | float (value : Float)
  | string (value : String)
  | path (value : String)
  | uri

/-- What a name of a group is bound to. -/
inductive Binding (α : Type) where
  | expr (e : α)
  /-- A name taken from outside the group. -/
  | inherit (e : α)
  /-- A field of one of the group's sources. -/
  | inheritFrom (source : Nat)

/-- The bindings of a set or `let`. -/
structure Bindings (α : Type) where
  /-- The names in the order in which they first appear. -/
  statics : List (String × Binding α)
  /-- The expressions that fields are inherited from. -/
  sources : List α
  /-- Computed names and their values. -/
  dynamics : List (α × α)

/-- A kind of expression over its parts. -/
inductive Form (α : Type) where
  /-- What could not be given a meaning. -/
  | missing
  | literal (l : Literal)
  | ref (name : String)
  | apply (fn arg : α)
  | lambda (param : Param α) (body : α)
  | letIn (group : Bindings α) (body : α)
  | set (isRec : Bool) (group : Bindings α)
  | list (items : List α)
  | unary (op : UnaryOp) (operand : α)
  | binary (op : BinOp) (l r : α)
  | select (subject : α) (path : List α) (dflt : Option α)
  | hasAttr (subject : α) (path : List α)
  | ifElse (cond yes no : α)
  | withIn (scope body : α)
  | assertIn (cond body : α)
  | stringParts (pieces : List (Piece α))
  | pathParts (pieces : List (Piece α))

/-- An expression with its number. -/
inductive Expr where
  | mk (id : Nat) (span : Option Span) (form : Form Expr)

namespace Binding

/-- The expression behind a binding, if it has one of its own. -/
def expr? {α : Type} : Binding α → Option α
  | .expr e | .inherit e => some e
  | .inheritFrom _ => none

end Binding

namespace Bindings

variable {α : Type}

def names (b : Bindings α) : List String := b.statics.map (·.1)

/-- The expressions of a group: bound ones, sources, computed names with their values. -/
def parts (b : Bindings α) : List α :=
  b.statics.filterMap (fun s => s.2.expr?) ++ b.sources ++ b.dynamics.flatMap fun (k, v) => [k, v]

end Bindings

namespace Piece

def interp? {α : Type} : Piece α → Option α
  | .text _ => none
  | .interp e => some e

end Piece

namespace Param

/-- The names that a parameter brings into scope. -/
def names {α : Type} : Param α → List String
  | .name x => [x]
  | .fields fs _ whole => fs.map (·.1) ++ whole.toList

def defaults {α : Type} : Param α → List α
  | .name _ => []
  | .fields fs _ _ => fs.filterMap (·.2)

end Param

/-- The parts of an expression, in the order in which they are walked. -/
def Form.parts {α : Type} : Form α → List α
  | .missing | .literal _ | .ref _ => []
  | .apply f a => [f, a]
  | .lambda p b => p.defaults ++ [b]
  | .letIn g b => g.parts ++ [b]
  | .set _ g => g.parts
  | .list es => es
  | .unary _ e => [e]
  | .binary _ l r => [l, r]
  | .select s path d => s :: path ++ d.toList
  | .hasAttr s path => s :: path
  | .ifElse c y n => [c, y, n]
  | .withIn s b | .assertIn s b => [s, b]
  | .stringParts ps | .pathParts ps => ps.filterMap Piece.interp?

namespace Expr

def id : Expr → Nat
  | .mk id _ _ => id

def span : Expr → Option Span
  | .mk _ span _ => span

def form : Expr → Form Expr
  | .mk _ _ form => form

def parts (e : Expr) : List Expr := e.form.parts

/-! ## Parts are smaller -/

theorem sizeOf_fst_lt {α β : Type} [SizeOf α] [SizeOf β] {p : α × β} {ps : List (α × β)} (h : p ∈ ps) :
    sizeOf p.2 < sizeOf ps ∧ sizeOf p.1 < sizeOf ps := by
  have := List.sizeOf_lt_of_mem h
  obtain ⟨a, b⟩ := p
  simp only [Prod.mk.sizeOf_spec] at this ⊢
  omega

theorem sizeOf_binding {e : Expr} {b : Binding Expr} (h : b.expr? = some e) : sizeOf e < sizeOf b := by
  cases b <;> simp only [Binding.expr?, Option.some.injEq, reduceCtorEq] at h <;> subst h
  · simp only [Binding.expr.sizeOf_spec]; omega
  · simp only [Binding.inherit.sizeOf_spec]; omega

theorem sizeOf_bindings {e : Expr} {g : Bindings Expr} (h : e ∈ g.parts) : sizeOf e < sizeOf g := by
  obtain ⟨statics, sources, dynamics⟩ := g
  simp only [Bindings.parts, List.mem_append, List.mem_filterMap, List.mem_flatMap] at h
  simp only [Bindings.mk.sizeOf_spec]
  rcases h with (⟨s, hs, he⟩ | h) | ⟨⟨k, v⟩, hd, he⟩
  · have := (sizeOf_fst_lt hs).1
    have := sizeOf_binding he
    omega
  · have := List.sizeOf_lt_of_mem h
    omega
  · have := sizeOf_fst_lt hd
    simp only [List.mem_cons, List.not_mem_nil, or_false] at he
    rcases he with rfl | rfl <;> simp only at this <;> omega

theorem sizeOf_piece {e : Expr} {ps : List (Piece Expr)} (h : e ∈ ps.filterMap Piece.interp?) :
    sizeOf e < sizeOf ps := by
  obtain ⟨p, hp, he⟩ := List.mem_filterMap.1 h
  have := List.sizeOf_lt_of_mem hp
  cases p <;> simp only [Piece.interp?, Option.some.injEq, reduceCtorEq] at he
  subst he
  simp only [Piece.interp.sizeOf_spec] at this
  omega

theorem sizeOf_default {e : Expr} {p : Param Expr} (h : e ∈ p.defaults) : sizeOf e < sizeOf p := by
  cases p with
  | name x => simp [Param.defaults] at h
  | fields fs o a =>
    obtain ⟨f, hf, he⟩ := List.mem_filterMap.1 h
    have := (sizeOf_fst_lt hf).1
    rw [he] at this
    simp only [Option.some.sizeOf_spec] at this
    simp only [Param.fields.sizeOf_spec]
    omega

theorem sizeOf_part {e : Expr} {f : Form Expr} (h : e ∈ f.parts) : sizeOf e < sizeOf f := by
  cases f with
  | missing | literal _ | ref _ => simp [Form.parts] at h
  | apply f a =>
    simp only [Form.parts, List.mem_cons, List.not_mem_nil, or_false] at h
    rcases h with rfl | rfl <;> simp only [Form.apply.sizeOf_spec] <;> omega
  | lambda p b =>
    simp only [Form.parts, List.mem_append, List.mem_singleton] at h
    rcases h with h | rfl
    · have := sizeOf_default h
      simp only [Form.lambda.sizeOf_spec]; omega
    · simp only [Form.lambda.sizeOf_spec]; omega
  | letIn g b =>
    simp only [Form.parts, List.mem_append, List.mem_singleton] at h
    rcases h with h | rfl
    · have := sizeOf_bindings h
      simp only [Form.letIn.sizeOf_spec]; omega
    · simp only [Form.letIn.sizeOf_spec]; omega
  | set r g => have := sizeOf_bindings h; simp only [Form.set.sizeOf_spec]; omega
  | list es => have := List.sizeOf_lt_of_mem (show e ∈ es from h); simp only [Form.list.sizeOf_spec]; omega
  | unary op e => simp only [Form.parts, List.mem_singleton] at h; subst h; simp only [Form.unary.sizeOf_spec]; omega
  | binary op l r =>
    simp only [Form.parts, List.mem_cons, List.not_mem_nil, or_false] at h
    rcases h with rfl | rfl <;> simp only [Form.binary.sizeOf_spec] <;> omega
  | select s path d =>
    simp only [Form.parts, List.mem_cons, List.mem_append, Option.mem_toList] at h
    rcases h with (rfl | h) | rfl
    · simp only [Form.select.sizeOf_spec]; omega
    · have := List.sizeOf_lt_of_mem h
      simp only [Form.select.sizeOf_spec]; omega
    · simp only [Form.select.sizeOf_spec, Option.some.sizeOf_spec]; omega
  | hasAttr s path =>
    simp only [Form.parts, List.mem_cons] at h
    rcases h with rfl | h
    · simp only [Form.hasAttr.sizeOf_spec]; omega
    · have := List.sizeOf_lt_of_mem h
      simp only [Form.hasAttr.sizeOf_spec]; omega
  | ifElse c y n =>
    simp only [Form.parts, List.mem_cons, List.not_mem_nil, or_false] at h
    rcases h with rfl | rfl | rfl <;> simp only [Form.ifElse.sizeOf_spec] <;> omega
  | withIn s b | assertIn s b =>
    simp only [Form.parts, List.mem_cons, List.not_mem_nil, or_false] at h
    rcases h with rfl | rfl <;>
      simp only [Form.withIn.sizeOf_spec, Form.assertIn.sizeOf_spec] <;> omega
  | stringParts ps | pathParts ps =>
    have := sizeOf_piece h
    simp only [Form.stringParts.sizeOf_spec, Form.pathParts.sizeOf_spec]; omega

theorem sizeOf_mem_parts {e p : Expr} (h : p ∈ e.parts) : sizeOf p < sizeOf e := by
  obtain ⟨id, span, form⟩ := e
  have := sizeOf_part (f := form) h
  simp only [Expr.mk.sizeOf_spec]; omega

/-! ## What is reachable -/

/-- An expression and everything under it. -/
def all (e : Expr) : List Expr :=
  e :: e.parts.attach.flatMap fun ⟨p, _⟩ => all p
termination_by sizeOf e
decreasing_by exact sizeOf_mem_parts ‹_›

/-- The names referred to anywhere under an expression, whatever binds them. -/
def mentioned (e : Expr) : List String :=
  (match e.form with
    | .ref name => [name]
    | _ => []) ++ e.parts.attach.flatMap fun ⟨p, _⟩ => mentioned p
termination_by sizeOf e
decreasing_by exact sizeOf_mem_parts ‹_›

end Expr

/-- A lowered text: its expression, and how many expressions were built. -/
structure Module where
  entry : Expr
  count : Nat

namespace Module

/-- The expressions by number. -/
def exprs (m : Module) : List Expr := m.entry.all.mergeSort fun a b => a.id ≤ b.id

/-- The declarations of a set whose names are all known and stand for expressions of their own. -/
def declarations? (m : Module) : Option (List (String × Expr)) :=
  match m.entry.form with
  | .set false g =>
    if g.dynamics.isEmpty then g.statics.mapM fun (name, b) => b.expr?.map (name, ·)
    else none
  | _ => none

end Module

end NixTyping
