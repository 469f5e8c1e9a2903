import NixTyping.Expr.Group
import NixTyping.Proofs.WalkBasics
/-!
# Expressions by number

An expression as the list of what stands under it: numbers, kinds and the numbers of parts,
without spans (`Expr.nodes`). Computations that build expressions are compared by what they
build when they start with the same next number (`Agree`); which oddities they report and
where things were written does not count. Adding the same to drafts that look the same, and
finishing them, agrees in this sense.
-/

namespace NixTyping

/-! ## Forms over other parts -/

section Map
variable {α β γ : Type}

def Piece.map (f : α → β) : Piece α → Piece β
  | .text s => .text s
  | .interp e => .interp (f e)

def Param.map (f : α → β) : Param α → Param β
  | .name x => .name x
  | .fields fs ellipsis whole => .fields (fs.map fun d => (d.1, d.2.map f)) ellipsis whole

def Binding.map (f : α → β) : Binding α → Binding β
  | .expr e => .expr (f e)
  | .inherit e => .inherit (f e)
  | .inheritFrom i => .inheritFrom i

def Bindings.map (f : α → β) (g : Bindings α) : Bindings β where
  statics := g.statics.map fun s => (s.1, s.2.map f)
  sources := g.sources.map f
  dynamics := g.dynamics.map fun d => (f d.1, f d.2)

/-- The same kind of expression over other parts. -/
def Form.map (f : α → β) : Form α → Form β
  | .missing => .missing
  | .literal l => .literal l
  | .ref name => .ref name
  | .apply fn arg => .apply (f fn) (f arg)
  | .lambda param body => .lambda (param.map f) (f body)
  | .letIn group body => .letIn (group.map f) (f body)
  | .set isRec group => .set isRec (group.map f)
  | .list items => .list (items.map f)
  | .unary op operand => .unary op (f operand)
  | .binary op l r => .binary op (f l) (f r)
  | .select subject path dflt => .select (f subject) (path.map f) (dflt.map f)
  | .hasAttr subject path => .hasAttr (f subject) (path.map f)
  | .ifElse cond yes no => .ifElse (f cond) (f yes) (f no)
  | .withIn scope body => .withIn (f scope) (f body)
  | .assertIn cond body => .assertIn (f cond) (f body)
  | .stringParts pieces => .stringParts (pieces.map (Piece.map f))
  | .pathParts pieces => .pathParts (pieces.map (Piece.map f))

theorem Piece.interp?_map (f : α → β) (p : Piece α) : (p.map f).interp? = p.interp?.map f := by
  cases p <;> rfl

theorem Binding.expr?_map (f : α → β) (b : Binding α) : (b.map f).expr? = b.expr?.map f := by
  cases b <;> rfl

theorem Bindings.parts_map (f : α → β) (g : Bindings α) : (g.map f).parts = g.parts.map f := by
  simp only [parts, map, List.map_append, List.map_filterMap, List.filterMap_map, List.map_flatMap, List.flatMap_map]
  congr 1
  congr 1
  exact List.filterMap_congr fun s _ => Binding.expr?_map f s.2

theorem interps_map (f : α → β) (ps : List (Piece α)) :
    (ps.map (Piece.map f)).filterMap Piece.interp? = (ps.filterMap Piece.interp?).map f := by
  rw [List.filterMap_map, List.map_filterMap]
  exact List.filterMap_congr fun p _ => Piece.interp?_map f p

theorem Param.defaults_map (f : α → β) (p : Param α) : (p.map f).defaults = p.defaults.map f := by
  cases p with
  | name x => rfl
  | fields fs ellipsis whole =>
    rw [map, defaults, defaults, List.filterMap_map, List.map_filterMap]
    rfl

theorem Form.parts_map (f : α → β) (form : Form α) : (form.map f).parts = form.parts.map f := by
  cases form with
  | lambda param body => simp [map, parts, Param.defaults_map]
  | letIn group body => simp [map, parts, Bindings.parts_map]
  | set isRec group => simp [map, parts, Bindings.parts_map]
  | select subject path dflt => cases dflt <;> simp [map, parts]
  | stringParts pieces => exact interps_map f pieces
  | pathParts pieces => exact interps_map f pieces
  | _ => simp [map, parts]

theorem Piece.map_map (f : α → β) (g : β → γ) (p : Piece α) : (p.map f).map g = p.map (g ∘ f) := by
  cases p <;> rfl

theorem Binding.map_map (f : α → β) (g : β → γ) (b : Binding α) : (b.map f).map g = b.map (g ∘ f) := by
  cases b <;> rfl

theorem Bindings.map_map (f : α → β) (g : β → γ) (b : Bindings α) : (b.map f).map g = b.map (g ∘ f) := by
  simp [map, Binding.map_map, Function.comp_def]

theorem Param.map_map (f : α → β) (g : β → γ) (p : Param α) : (p.map f).map g = p.map (g ∘ f) := by
  cases p <;> simp [map, Function.comp_def]

theorem Form.map_map (f : α → β) (g : β → γ) (form : Form α) : (form.map f).map g = form.map (g ∘ f) := by
  cases form <;> simp [map, Param.map_map, Bindings.map_map, Piece.map_map, Function.comp_def]

end Map

/-! ## Nodes -/

namespace Expr

/-- The expressions under an expression: their numbers, and their forms over the numbers of their parts. -/
def nodes (e : Expr) : List (Nat × Form Nat) := e.all.map fun p => (p.id, p.form.map id)

theorem nodes_eq (e : Expr) : e.nodes = (e.id, e.form.map id) :: e.parts.flatMap nodes := by
  rw [nodes, all_eq, List.map_cons, List.map_flatMap]
  rfl

/-- The number of the first node. -/
def firstId (l : List (Nat × Form Nat)) : Nat := (l.head?.map (·.1)).getD 0

theorem firstId_nodes (e : Expr) : firstId e.nodes = e.id := by
  rw [nodes_eq]
  rfl

/-- The nodes of an expression follow from its number, its kind and the nodes of its parts. -/
theorem nodes_congr {form form' : Form Expr} (h : form.map nodes = form'.map nodes) (id : Nat)
    (span span' : Option Span) : (Expr.mk id span form).nodes = (Expr.mk id span' form').nodes := by
  have hids : ∀ f : Form Expr, f.map Expr.id = (f.map nodes).map firstId := fun f => by
    rw [Form.map_map]
    exact congrArg (Form.map · f) (funext fun e => (firstId_nodes e).symm)
  have hparts : ∀ f : Form Expr, f.parts.flatMap nodes = (f.map nodes).parts.flatten := fun f => by
    rw [Form.parts_map, List.flatMap_def]
  rw [nodes_eq, nodes_eq]
  show (id, form.map Expr.id) :: form.parts.flatMap nodes = (id, form'.map Expr.id) :: form'.parts.flatMap nodes
  rw [hids, hids, hparts, hparts, h]

end Expr

namespace Module

/-- The expressions of a module in the order of their numbers, each over the numbers of its parts. -/
def arena (m : Module) : List (Nat × Form Nat) := m.exprs.map fun e => (e.id, e.form.map Expr.id)

theorem arena_congr {m m' : Module} (h : m.entry.nodes = m'.entry.nodes) : m.arena = m'.arena := by
  have hsort : ∀ m : Module, m.arena = m.entry.nodes.mergeSort fun a b => a.1 ≤ b.1 := fun m =>
    List.map_mergeSort fun _ _ _ _ => rfl
  rw [hsort, hsort, h]

end Module

/-! ## Computations that build the same -/

namespace Lowering

/-- Started with the same next number, the computations give related results and end with the same next number. -/
def Agree {α β : Type} (R : α → β → Prop) (m : Lowering α) (m' : Lowering β) : Prop :=
  ∀ s s', s.next = s'.next → R (m.run s).1 (m'.run s').1 ∧ (m.run s).2.next = (m'.run s').2.next

/-- The results look the same. -/
abbrev Matches {α β : Type} (view : α → β) (m m' : Lowering α) : Prop := Agree (fun a a' => view a = view a') m m'

section Agree
variable {α β γ δ : Type} {R : α → β → Prop} {S : γ → δ → Prop} {m : Lowering α} {m' : Lowering β}

theorem agree_pure {a : α} {b : β} (h : R a b) : Agree R (pure a) (pure b) := fun _ _ hs => ⟨h, hs⟩

theorem Agree.bind {f : α → Lowering γ} {f' : β → Lowering δ} (h : Agree R m m')
    (hf : ∀ a b, R a b → Agree S (f a) (f' b)) : Agree S (m >>= f) (m' >>= f') :=
  fun s s' hs => hf _ _ (h s s' hs).1 _ _ (h s s' hs).2

theorem Agree.map {f : α → γ} {f' : β → δ} (h : Agree R m m') (hf : ∀ a b, R a b → S (f a) (f' b)) :
    Agree S (f <$> m) (f' <$> m') := fun s s' hs => ⟨hf _ _ (h s s' hs).1, (h s s' hs).2⟩

theorem Agree.warn_left {f : Unit → Lowering α} (o : Oddity) (h : Agree R (f ()) m') : Agree R (warn o >>= f) m' :=
  fun s s' hs => h { s with oddities := s.oddities.push o } s' hs

theorem Agree.warn_right {f : Unit → Lowering β} (o : Oddity) (h : Agree R m (f ())) : Agree R m (warn o >>= f) :=
  fun s s' hs => h s { s' with oddities := s'.oddities.push o } hs

theorem Agree.warn {f : Unit → Lowering α} {f' : Unit → Lowering β} (o o' : Oddity) (h : Agree R (f ()) (f' ())) :
    Agree R (Lowering.warn o >>= f) (Lowering.warn o' >>= f') := (h.warn_right o').warn_left o

theorem Matches.trans {view : α → β} {m₁ m₂ m₃ : Lowering α} (h : Matches view m₁ m₂) (h' : Matches view m₂ m₃) :
    Matches view m₁ m₃ := fun s s' hs =>
  ⟨(h s s rfl).1.trans (h' s s' hs).1, (h s s rfl).2.trans (h' s s' hs).2⟩

theorem Matches.symm {view : α → β} {m₁ m₂ : Lowering α} (h : Matches view m₁ m₂) : Matches view m₂ m₁ := fun s s' hs =>
  ⟨(h s' s hs.symm).1.symm, (h s' s hs.symm).2.symm⟩

theorem Matches.right {view : α → β} {m₁ m₂ : Lowering α} (h : Matches view m₁ m₂) : Matches view m₂ m₂ :=
  h.symm.trans h

theorem matches_build {form form' : Form Expr} (h : form.map Expr.nodes = form'.map Expr.nodes)
    (span span' : Option Span) : Matches Expr.nodes (build span form) (build span' form') := by
  intro s s' hs
  refine ⟨?_, congrArg (· + 1) hs⟩
  show (Expr.mk s.next span form).nodes = (Expr.mk s'.next span' form').nodes
  rw [hs]
  exact Expr.nodes_congr h _ _ _

theorem matches_missing : Matches Expr.nodes missing missing := matches_build rfl _ _

end Agree

end Lowering

open Lowering

/-! ## Drafts -/

/-- A draft without its spans, with the nodes of its expressions. -/
inductive View where
  | group (isRec : Bool) (statics : List (String × View)) (sources : List (List (Nat × Form Nat)))
    (dynamics : List (List (Nat × Form Nat) × List (Nat × Form Nat)))
  | value (b : Binding (List (Nat × Form Nat)))

mutual

def Draft.view : Draft → View
  | .mk _ isRec statics sources dynamics =>
    .group isRec (Draft.viewStatics statics) (sources.map Expr.nodes) (dynamics.map fun d => (d.1.nodes, d.2.nodes))

def DraftEntry.view : DraftEntry → View
  | .set d => d.view
  | .value b => .value (b.map Expr.nodes)

def Draft.viewStatics : List (String × DraftEntry) → List (String × View)
  | [] => []
  | (key, e) :: rest => (key, e.view) :: Draft.viewStatics rest

end

namespace Draft

theorem viewStatics_eq (statics : List (String × DraftEntry)) :
    viewStatics statics = statics.map fun s => (s.1, s.2.view) := by
  induction statics with
  | nil => rw [viewStatics]; rfl
  | cons s statics ih => rw [viewStatics, ih, List.map_cons]

theorem view_mk (span : Option Span) (isRec : Bool) (statics : List (String × DraftEntry)) (sources : List Expr)
    (dynamics : List (Expr × Expr)) : (Draft.mk span isRec statics sources dynamics).view =
      .group isRec (statics.map fun s => (s.1, s.2.view)) (sources.map Expr.nodes)
        (dynamics.map fun d => (d.1.nodes, d.2.nodes)) := by
  rw [view, viewStatics_eq]

section View
variable {d d' : Draft}

theorem view_find? (h : d.view = d'.view) (name : String) :
    (d.find? name).map DraftEntry.view = (d'.find? name).map DraftEntry.view := by
  obtain ⟨span, isRec, statics, sources, dynamics⟩ := d
  obtain ⟨span', isRec', statics', sources', dynamics'⟩ := d'
  rw [view_mk, view_mk, View.group.injEq] at h
  have hfind := congrArg (findKey name) h.2.1
  rwa [findKey_map, findKey_map] at hfind

/-- What is found under a name: nothing, sets that look the same, or values. -/
theorem find?_cases (h : d.view = d'.view) (name : String) :
    d.find? name = none ∧ d'.find? name = none ∨
    (∃ sub sub', d.find? name = some (.set sub) ∧ d'.find? name = some (.set sub') ∧ sub.view = sub'.view) ∨
    ∃ b b', d.find? name = some (.value b) ∧ d'.find? name = some (.value b') := by
  have hfind := view_find? h name
  cases hd : d.find? name with
  | none =>
    rw [hd, Option.map_none, eq_comm, Option.map_eq_none_iff] at hfind
    exact .inl ⟨rfl, hfind⟩
  | some e =>
    rw [hd, Option.map_some, eq_comm, Option.map_eq_some_iff] at hfind
    obtain ⟨e', he', hview⟩ := hfind
    cases e with
    | set sub =>
      cases e' with
      | set sub' => exact .inr (.inl ⟨sub, sub', rfl, he', by simpa only [DraftEntry.view] using hview.symm⟩)
      | value b' =>
        obtain ⟨span, isRec, statics, sources, dynamics⟩ := sub
        rw [DraftEntry.view, DraftEntry.view, view_mk] at hview
        cases hview
    | value b =>
      cases e' with
      | set sub' =>
        obtain ⟨span, isRec, statics, sources, dynamics⟩ := sub'
        rw [DraftEntry.view, DraftEntry.view, view_mk] at hview
        cases hview
      | value b' => exact .inr (.inr ⟨b, b', rfl, he'⟩)

theorem view_push (h : d.view = d'.view) (name : String) {e e' : DraftEntry} (he : e.view = e'.view) :
    (d.push name e).view = (d'.push name e').view := by
  obtain ⟨span, isRec, statics, sources, dynamics⟩ := d
  obtain ⟨span', isRec', statics', sources', dynamics'⟩ := d'
  rw [view_mk, view_mk, View.group.injEq] at h
  rw [push, push, view_mk, view_mk, List.map_append, List.map_append, h.1, h.2.1, h.2.2.1, h.2.2.2, List.map_singleton,
    List.map_singleton, he]

theorem view_replace (h : d.view = d'.view) (name : String) {e e' : DraftEntry} (he : e.view = e'.view) :
    (d.replace name e).view = (d'.replace name e').view := by
  obtain ⟨span, isRec, statics, sources, dynamics⟩ := d
  obtain ⟨span', isRec', statics', sources', dynamics'⟩ := d'
  rw [view_mk, view_mk, View.group.injEq] at h
  have hmap : ∀ (l : List (String × DraftEntry)) (e : DraftEntry),
      (l.map fun x => if x.1 = name then (name, e) else x).map (fun s => (s.1, s.2.view)) =
        (l.map fun s => (s.1, s.2.view)).map fun x => if x.1 = name then (name, e.view) else x := by
    intro l e
    rw [List.map_map, List.map_map]
    refine List.map_congr_left fun x _ => ?_
    by_cases hx : x.1 = name <;> simp [hx]
  rw [replace, replace, view_mk, view_mk, hmap, hmap, h.1, h.2.1, h.2.2.1, h.2.2.2, he]

theorem view_pushDynamic (h : d.view = d'.view) {key key' value value' : Expr} (hkey : key.nodes = key'.nodes)
    (hvalue : value.nodes = value'.nodes) : (d.pushDynamic key value).view = (d'.pushDynamic key' value').view := by
  obtain ⟨span, isRec, statics, sources, dynamics⟩ := d
  obtain ⟨span', isRec', statics', sources', dynamics'⟩ := d'
  rw [view_mk, view_mk, View.group.injEq] at h
  rw [pushDynamic, pushDynamic, view_mk, view_mk, List.map_append, List.map_append, h.1, h.2.1, h.2.2.1, h.2.2.2,
    List.map_singleton, List.map_singleton, hkey, hvalue]

theorem view_pushSource (h : d.view = d'.view) {e e' : Expr} (he : e.nodes = e'.nodes) :
    (d.pushSource e).1 = (d'.pushSource e').1 ∧ (d.pushSource e).2.view = (d'.pushSource e').2.view := by
  obtain ⟨span, isRec, statics, sources, dynamics⟩ := d
  obtain ⟨span', isRec', statics', sources', dynamics'⟩ := d'
  rw [view_mk, view_mk, View.group.injEq] at h
  constructor
  · simpa [pushSource] using congrArg List.length h.2.2.1
  · rw [pushSource, pushSource, view_mk, view_mk, List.map_append, List.map_append, h.1, h.2.1, h.2.2.1, h.2.2.2,
      List.map_singleton, List.map_singleton, he]

theorem view_absorb (h : d.view = d'.view) {l l' : SetLiteral} (hl : l.isRec = l'.isRec) :
    (d.absorb l).view = (d'.absorb l').view := by
  obtain ⟨span, isRec, statics, sources, dynamics⟩ := d
  obtain ⟨span', isRec', statics', sources', dynamics'⟩ := d'
  rw [view_mk, view_mk, View.group.injEq] at h
  rw [absorb, absorb, view_mk, view_mk, h.1, h.2.1, h.2.2.1, h.2.2.2, hl]

theorem view_empty (span span' : Option Span) (isRec : Bool) :
    (Draft.empty span isRec).view = (Draft.empty span' isRec).view := by
  rw [empty, empty, view_mk, view_mk]

end View

mutual

theorem matches_finish : ∀ d d' : Draft, d.view = d'.view → Matches Expr.nodes d.finish d'.finish
  | .mk span isRec statics sources dynamics, .mk span' isRec' statics' sources' dynamics', h => by
    rw [view, view, View.group.injEq] at h
    obtain ⟨rfl, hstatics, hsources, hdynamics⟩ := h
    unfold finish
    refine (matches_finishStatics statics statics' hstatics).bind fun bs bs' hbs => matches_build ?_ _ _
    rw [Form.map, Form.map, Bindings.map, Bindings.map, hbs, hsources, hdynamics]

theorem matches_finishEntry : ∀ e e' : DraftEntry, e.view = e'.view →
    Matches (Binding.map Expr.nodes) (finishEntry e) (finishEntry e')
  | .set d, .set d', h => by
    rw [DraftEntry.view, DraftEntry.view] at h
    unfold finishEntry
    refine (matches_finish d d' h).bind fun e e' he => agree_pure ?_
    rw [Binding.map, Binding.map, he]
  | .value b, .value b', h => by
    rw [DraftEntry.view, DraftEntry.view, View.value.injEq] at h
    unfold finishEntry
    exact agree_pure h
  | .set (.mk span isRec statics sources dynamics), .value b', h => by
    rw [DraftEntry.view, DraftEntry.view, view] at h
    cases h
  | .value b, .set (.mk span isRec statics sources dynamics), h => by
    rw [DraftEntry.view, DraftEntry.view, view] at h
    cases h

theorem matches_finishStatics : ∀ l l' : List (String × DraftEntry), viewStatics l = viewStatics l' →
    Matches (List.map fun b : String × Binding Expr => (b.1, b.2.map Expr.nodes)) (finishStatics l) (finishStatics l')
  | [], [], _ => by
    unfold finishStatics
    exact agree_pure rfl
  | (key, e) :: rest, (key', e') :: rest', h => by
    rw [viewStatics, viewStatics, List.cons.injEq, Prod.mk.injEq] at h
    obtain ⟨⟨rfl, he⟩, hrest⟩ := h
    unfold finishStatics
    refine (matches_finishEntry e e' he).bind fun b b' hb => ?_
    refine (matches_finishStatics rest rest' hrest).bind fun bs bs' hbs => agree_pure ?_
    rw [List.map_cons, List.map_cons, hb, hbs]
  | [], (key, e) :: rest, h => by
    rw [viewStatics, viewStatics] at h
    cases h
  | (key, e) :: rest, [], h => by
    rw [viewStatics, viewStatics] at h
    cases h

end

theorem matches_bindings {d d' : Draft} (h : d.view = d'.view) :
    Matches (Bindings.map Expr.nodes) d.bindings d'.bindings := by
  obtain ⟨span, isRec, statics, sources, dynamics⟩ := d
  obtain ⟨span', isRec', statics', sources', dynamics'⟩ := d'
  rw [view, view, View.group.injEq] at h
  obtain ⟨rfl, hstatics, hsources, hdynamics⟩ := h
  unfold bindings
  refine (matches_finishStatics statics statics' hstatics).bind fun bs bs' hbs => agree_pure ?_
  rw [Bindings.map, Bindings.map, hbs, hsources, hdynamics]

end Draft

/-! ## Adding to a draft -/

/-- The steps are the same name, or build the same. -/
inductive Key.Alike : Key → Key → Prop where
  | fixed {name : String} {span span' : Span} : Key.Alike (.fixed name span) (.fixed name span')
  | computed {span span' : Span} {build build' : Lowering Expr} (matching : Matches Expr.nodes build build') :
    Key.Alike (.computed span build) (.computed span' build')

/-- The literals add the same to a group. -/
structure SetLiteral.Alike (l l' : SetLiteral) : Prop where
  isRec : l.isRec = l'.isRec
  addTo : ∀ {d d' : Draft}, d.view = d'.view → Matches Draft.view (l.addTo d) (l'.addTo d')

structure BoundValue.Alike (v v' : BoundValue) : Prop where
  build : Matches Expr.nodes v.build v'.build
  literal : Option.Rel SetLiteral.Alike v.literal? v'.literal?

theorem Key.alike_right {keys keys' : List Key} (h : List.Forall₂ Key.Alike keys keys') :
    List.Forall₂ Key.Alike keys' keys' := by
  induction h with
  | nil => exact .nil
  | cons hk _ ih =>
    refine .cons ?_ ih
    cases hk with
    | fixed => exact .fixed
    | computed matching => exact .computed matching.right

theorem SetLiteral.Alike.right {l l' : SetLiteral} (h : l.Alike l') : l'.Alike l' :=
  ⟨rfl, fun hd => (h.addTo rfl).symm.trans (h.addTo hd)⟩

theorem BoundValue.Alike.right {v v' : BoundValue} (h : v.Alike v') : v'.Alike v' := by
  have hliteral := h.literal
  refine ⟨h.build.right, ?_⟩
  generalize v.literal? = l at hliteral
  generalize v'.literal? = l' at hliteral ⊢
  cases hliteral with
  | none => exact .none
  | some hl => exact .some hl.right

namespace Draft

section Adding
variable {d d' : Draft} {v v' : BoundValue}

theorem matches_push (h : d.view = d'.view) (name : String) {m m' : Lowering Draft} (hm : Matches Draft.view m m') :
    Matches Draft.view (do return d.push name (.set (← m))) (do return d'.push name (.set (← m'))) :=
  hm.bind fun sub sub' hsub => agree_pure (view_push h name (by rwa [DraftEntry.view, DraftEntry.view]))

theorem matches_replace (h : d.view = d'.view) (name : String) {m m' : Lowering Draft} (hm : Matches Draft.view m m') :
    Matches Draft.view (do return d.replace name (.set (← m))) (do return d'.replace name (.set (← m'))) :=
  hm.bind fun sub sub' hsub => agree_pure (view_replace h name (by rwa [DraftEntry.view, DraftEntry.view]))

theorem matches_bindName (h : d.view = d'.view) (hv : v.Alike v') (name : String) (span span' : Span) :
    Matches Draft.view (d.bindName name span v) (d'.bindName name span' v') := by
  have hliteral := hv.literal
  unfold bindName
  generalize v.literal? = l at hliteral ⊢
  generalize v'.literal? = l' at hliteral ⊢
  rcases find?_cases h name with ⟨hfind, hfind'⟩ | ⟨sub, sub', hfind, hfind', hsub⟩ | ⟨b, b', hfind, hfind'⟩
  · rw [hfind, hfind']
    cases hliteral with
    | none =>
      refine hv.build.bind fun e e' he => agree_pure (view_push h name ?_)
      rw [DraftEntry.view, DraftEntry.view, Binding.map, Binding.map, he]
    | @some l l' hl =>
      refine matches_push h name (hl.addTo ?_)
      rw [hl.isRec]
      exact view_empty _ _ _
  · rw [hfind, hfind']
    cases hliteral with
    | none => exact (agree_pure h).warn _ _
    | some hl => exact matches_replace h name (hl.addTo (view_absorb hsub hl.isRec))
  · -- the name is taken by a value, and nothing is built
    rw [hfind, hfind']
    cases hliteral with
    | none => exact (agree_pure h).warn _ _
    | some hl => exact (agree_pure h).warn _ _

theorem matches_bindPath (hv : v.Alike v') {keys keys' : List Key} (hkeys : List.Forall₂ Key.Alike keys keys')
    (h : d.view = d'.view) : Matches Draft.view (bindPath v keys d) (bindPath v' keys' d') := by
  induction hkeys generalizing d d' with
  | nil => exact agree_pure h
  | @cons k k' keys keys' hk hkeys ih =>
    cases hk with
    | fixed =>
      cases hkeys with
      | nil => exact matches_bindName h hv _ _ _
      | cons hk₂ hkeys₂ =>
        rw [bindPath, bindPath]
        · rcases find?_cases h _ with ⟨hfind, hfind'⟩ | ⟨sub, sub', hfind, hfind', hsub⟩ | ⟨b, b', hfind, hfind'⟩
          · rw [hfind, hfind']
            exact matches_push h _ (ih rfl)
          · rw [hfind, hfind']
            exact matches_replace h _ (ih hsub)
          · rw [hfind, hfind']
            exact (agree_pure h).warn _ _
        all_goals simp
    | computed matching =>
      cases hkeys with
      | nil =>
        refine matching.bind fun key key' hkey => hv.build.bind fun e e' he => agree_pure ?_
        exact view_pushDynamic h hkey he
      | cons hk₂ hkeys₂ =>
        rw [bindPath, bindPath]
        · refine matching.bind fun key key' hkey => (ih rfl).bind fun sub sub' hsub => ?_
          refine (matches_finish sub sub' hsub).bind fun e e' he => agree_pure ?_
          exact view_pushDynamic h hkey he
        all_goals simp

theorem matches_inheritNames (source : Option Nat) {keys keys' : List Key} (hkeys : List.Forall₂ Key.Alike keys keys')
    (h : d.view = d'.view) : Matches Draft.view (inheritNames source keys d) (inheritNames source keys' d') := by
  induction hkeys generalizing d d' with
  | nil => exact agree_pure h
  | @cons k k' keys keys' hk hkeys ih =>
    cases hk with
    | @fixed name span span' =>
      have hfind : (d.find? name).isSome = (d'.find? name).isSome := by
        rw [← Option.isSome_map, view_find? h name, Option.isSome_map]
      rw [inheritNames, inheritNames, hfind]
      split
      · exact (ih h).warn _ _
      · cases source with
        | some i => exact ih (view_push h name rfl)
        | none =>
          have hbinding : Matches (Binding.map Expr.nodes) (Binding.inherit <$> build (some span) (.ref name))
              (Binding.inherit <$> build (some span') (.ref name)) := by
            have href : Matches Expr.nodes (build (some span) (.ref name)) (build (some span') (.ref name)) :=
              matches_build rfl _ _
            refine href.map fun e e' he => ?_
            rw [Binding.map, Binding.map, he]
          refine hbinding.bind fun b b' hb => ih (view_push h name ?_)
          rw [DraftEntry.view, DraftEntry.view, hb]
    | computed matching =>
      rw [inheritNames, inheritNames]
      refine Agree.warn _ _ (matching.bind fun key key' hkey => matches_missing.bind fun e e' he => ih ?_)
      exact view_pushDynamic h hkey he

end Adding

end Draft

end NixTyping
