import Mathlib
import NixTyping.Judge.Dependency
import NixTyping.Proofs.WalkBasics
/-!
# Renaming a parameter

`Renaming.expr` gives the parameter of one function a new name, and with it exactly
the references that the function binds. The walk down the expression goes through
stages: outside of the function, inside of it where the name is its parameter, and
where another binder has taken the name.

A renaming keeps the number of expressions. Where the new name is bound nowhere it
also keeps the components of every group that does not bind the old name
(`Renaming.components_group`). A renaming of a parameter that no function has changes
nothing (`Renaming.exists_idle`).
-/

namespace NixTyping

/-- The parameter `old` of the function numbered `function` becomes `new`. -/
structure Renaming where
  function : Nat
  old : String
  new : String
  ne : old ≠ new

namespace Renaming

inductive Stage where
  | outside
  /-- In the function, where `old` is its parameter. -/
  | inside
  /-- Where another binder takes the name `old`. -/
  | shadowed
  deriving DecidableEq

/-- The stage under a binder of some names. -/
def under (R : Renaming) (names : List String) : Stage → Stage
  | .inside => if R.old ∈ names then .shadowed else .inside
  | st => st

@[simp] theorem under_outside (R : Renaming) (names : List String) : R.under names .outside = .outside := rfl

@[simp] theorem under_shadowed (R : Renaming) (names : List String) : R.under names .shadowed = .shadowed := rfl

theorem under_inside_of_mem {R : Renaming} {names : List String} (h : R.old ∈ names) :
    R.under names .inside = .shadowed := if_pos h

theorem under_inside_of_not_mem {R : Renaming} {names : List String} (h : R.old ∉ names) :
    R.under names .inside = .inside := if_neg h

/-- A reference to the parameter changes its name. -/
def name (R : Renaming) (st : Stage) (x : String) : String := if st = .inside ∧ x = R.old then R.new else x

/-- Whether an expression is the function, given its number and its parameter. -/
def hits (R : Renaming) (st : Stage) (id : Nat) (x : String) : Prop := st = .outside ∧ id = R.function ∧ x = R.old

instance (R : Renaming) (st : Stage) (id : Nat) (x : String) : Decidable (R.hits st id x) :=
  inferInstanceAs (Decidable (_ ∧ _ ∧ _))

@[simp] theorem name_outside (R : Renaming) (x : String) : R.name .outside x = x := if_neg fun h => by cases h.1

@[simp] theorem name_old (R : Renaming) : R.name .inside R.old = R.new := if_pos ⟨rfl, rfl⟩

theorem name_of_ne {R : Renaming} {x : String} (hx : x ≠ R.old) (st : Stage) : R.name st x = x := if_neg fun h => hx h.2

/-- Below a binder the same names are changed, but for those it binds. -/
theorem name_under {R : Renaming} {names : List String} {x : String} (hx : x ∉ names) (st : Stage) :
    R.name (R.under names st) x = R.name st x := by
  cases st with
  | inside =>
    by_cases hold : R.old ∈ names
    · have hne : x ≠ R.old := fun h => hx (h ▸ hold)
      rw [under_inside_of_mem hold]
      simp [name, hne]
    · rw [under_inside_of_not_mem hold]
  | _ => rfl

/-- A binder of names other than the new one binds the same names on both sides. -/
theorem name_eq_iff {R : Renaming} {names : List String} (hnew : R.new ∉ names) {x y : String} (hy : y ∈ names)
    (st : Stage) : R.name (R.under names st) x = y ↔ x = y := by
  unfold name
  split
  · next h =>
    obtain ⟨hst, rfl⟩ := h
    have hold : R.old ∉ names := by
      intro hmem
      cases st with
      | inside => rw [under_inside_of_mem hmem] at hst; cases hst
      | _ => cases hst
    exact iff_of_false (fun h => hnew (h ▸ hy)) (fun h => hold (h ▸ hy))
  · rfl

theorem name_mem_iff {R : Renaming} {names : List String} (hnew : R.new ∉ names) {x : String} (st : Stage) :
    R.name (R.under names st) x ∈ names ↔ x ∈ names := by
  constructor
  · intro h
    rwa [(name_eq_iff hnew h st).1 rfl]
  · intro h
    rwa [(name_eq_iff hnew h st).2 rfl]

mutual

def expr (R : Renaming) (st : Stage) : Expr → Expr
  | .mk id span form => .mk id span (formOf R st id form)

/-- The form of the expression with a number. -/
def formOf (R : Renaming) (st : Stage) (id : Nat) : Form Expr → Form Expr
  | .missing => .missing
  | .literal l => .literal l
  | .ref x => .ref (R.name st x)
  | .apply f a => .apply (expr R st f) (expr R st a)
  | .lambda (.name x) b =>
    if R.hits st id x then .lambda (.name R.new) (expr R .inside b)
    else .lambda (.name x) (expr R (R.under [x] st) b)
  | .lambda (.fields fs o whole) b =>
    .lambda (.fields (fields R (R.under (fs.map (·.1) ++ whole.toList) st) fs) o whole)
      (expr R (R.under (fs.map (·.1) ++ whole.toList) st) b)
  | .letIn g b => .letIn (group R st (R.under g.names st) g) (expr R (R.under g.names st) b)
  | .set true g => .set true (group R st (R.under g.names st) g)
  | .set false g => .set false (group R st st g)
  | .list es => .list (exprs R st es)
  | .unary op e => .unary op (expr R st e)
  | .binary op l r => .binary op (expr R st l) (expr R st r)
  | .select e path d => .select (expr R st e) (exprs R st path) (expr? R st d)
  | .hasAttr e path => .hasAttr (expr R st e) (exprs R st path)
  | .ifElse c y n => .ifElse (expr R st c) (expr R st y) (expr R st n)
  | .withIn s b => .withIn (expr R st s) (expr R st b)
  | .assertIn c b => .assertIn (expr R st c) (expr R st b)
  | .stringParts ps => .stringParts (pieces R st ps)
  | .pathParts ps => .pathParts (pieces R st ps)

def exprs (R : Renaming) (st : Stage) : List Expr → List Expr
  | [] => []
  | e :: es => expr R st e :: exprs R st es

def expr? (R : Renaming) (st : Stage) : Option Expr → Option Expr
  | none => none
  | some e => some (expr R st e)

def pieces (R : Renaming) (st : Stage) : List (Piece Expr) → List (Piece Expr)
  | [] => []
  | .text t :: ps => .text t :: pieces R st ps
  | .interp e :: ps => .interp (expr R st e) :: pieces R st ps

def fields (R : Renaming) (st : Stage) : List (String × Option Expr) → List (String × Option Expr)
  | [] => []
  | (x, d) :: fs => (x, expr? R st d) :: fields R st fs

/-- A name taken from outside a group is at the stage outside of the group. -/
def group (R : Renaming) (st inner : Stage) : Bindings Expr → Bindings Expr
  | ⟨ss, sources, ds⟩ => ⟨statics R st inner ss, exprs R inner sources, pairs R inner ds⟩

def statics (R : Renaming) (st inner : Stage) : List (String × Binding Expr) → List (String × Binding Expr)
  | [] => []
  | (x, .expr e) :: ss => (x, .expr (expr R inner e)) :: statics R st inner ss
  | (x, .inherit e) :: ss => (x, .inherit (expr R st e)) :: statics R st inner ss
  | (x, .inheritFrom i) :: ss => (x, .inheritFrom i) :: statics R st inner ss

def pairs (R : Renaming) (st : Stage) : List (Expr × Expr) → List (Expr × Expr)
  | [] => []
  | (k, v) :: ds => (expr R st k, expr R st v) :: pairs R st ds

end

section Lists
variable (R : Renaming) (st inner : Stage)

@[simp] theorem exprs_eq (es : List Expr) : exprs R st es = es.map (expr R st) := by
  induction es with
  | nil => rfl
  | cons e es ih => rw [exprs, ih, List.map_cons]

@[simp] theorem expr?_eq (e : Option Expr) : expr? R st e = e.map (expr R st) := by
  cases e <;> rfl

@[simp] theorem fields_eq (fs : List (String × Option Expr)) :
    fields R st fs = fs.map fun f => (f.1, f.2.map (expr R st)) := by
  induction fs with
  | nil => rfl
  | cons f fs ih => rw [fields, ih, expr?_eq, List.map_cons]

@[simp] theorem pairs_eq (ds : List (Expr × Expr)) :
    pairs R st ds = ds.map fun d => (expr R st d.1, expr R st d.2) := by
  induction ds with
  | nil => rfl
  | cons d ds ih => rw [pairs, ih, List.map_cons]

theorem interps_pieces (ps : List (Piece Expr)) :
    (pieces R st ps).filterMap Piece.interp? = (ps.filterMap Piece.interp?).map (expr R st) := by
  induction ps with
  | nil => rfl
  | cons p ps ih =>
    cases p with
    | text t => exact ih
    | interp e => exact congrArg (expr R st e :: ·) ih

/-- What becomes of one binding of a group. -/
def binding : Binding Expr → Binding Expr
  | .expr e => .expr (expr R inner e)
  | .inherit e => .inherit (expr R st e)
  | .inheritFrom i => .inheritFrom i

@[simp] theorem statics_eq (ss : List (String × Binding Expr)) :
    statics R st inner ss = ss.map fun s => (s.1, R.binding st inner s.2) := by
  induction ss with
  | nil => rfl
  | cons s ss ih =>
    obtain ⟨x, b⟩ := s
    cases b <;> rw [statics, ih, List.map_cons] <;> rfl

theorem group_eq (g : Bindings Expr) : group R st inner g =
    ⟨g.statics.map fun s => (s.1, R.binding st inner s.2), g.sources.map (expr R inner),
      g.dynamics.map fun d => (expr R inner d.1, expr R inner d.2)⟩ := by
  rw [group, statics_eq, exprs_eq, pairs_eq]

@[simp] theorem names_group (g : Bindings Expr) : (group R st inner g).names = g.names := by
  rw [group_eq]
  simp [Bindings.names]

end Lists

end Renaming

/-! ## Names that stand in an expression -/

namespace Expr

theorem mentioned_eq (e : Expr) : e.mentioned =
    (match e.form with
      | .ref name => [name]
      | _ => []) ++ e.parts.flatMap mentioned := by
  have hattach : e.parts.attach.flatMap (fun p => p.1.mentioned) = e.parts.flatMap mentioned := by
    rw [← List.flatMap_map Subtype.val mentioned, List.attach_map_subtype_val]
  rw [mentioned]
  exact congrArg (List.append _) hattach

end Expr

namespace Renaming

section Parts
variable (R : Renaming)

/-- The part is renamed; once the name is shadowed, it stays so. -/
def Renamed (st : Stage) (p p' : Expr) : Prop := ∃ st', (st = .shadowed → st' = .shadowed) ∧ p' = R.expr st' p

theorem renamed_map {st st' : Stage} (h : st = .shadowed → st' = .shadowed) (es : List Expr) :
    List.Forall₂ (R.Renamed st) es (es.map (R.expr st')) := by
  rw [List.forall₂_map_right_iff, List.forall₂_same]
  exact fun p _ => ⟨st', h, rfl⟩

theorem under_eq_shadowed (names : List String) {st : Stage} (h : st = .shadowed) : R.under names st = .shadowed := by
  rw [h, under_shadowed]

theorem computed_group (st inner : Stage) (g : Bindings Expr) :
    (R.group st inner g).computed = g.computed.map (R.expr inner) := by
  rw [group_eq]
  unfold Bindings.computed
  rw [List.flatMap_map, List.map_flatMap]
  rfl

theorem parts_group {st inner : Stage} (h : st = .shadowed → inner = .shadowed) (g : Bindings Expr) :
    List.Forall₂ (R.Renamed st) g.parts (R.group st inner g).parts := by
  have hstatics : ∀ ss : List (String × Binding Expr), List.Forall₂ (R.Renamed st) (ss.filterMap fun s => s.2.expr?)
      ((ss.map fun s => (s.1, R.binding st inner s.2)).filterMap fun s => s.2.expr?) := by
    intro ss
    induction ss with
    | nil => exact .nil
    | cons s ss ih =>
      obtain ⟨x, b⟩ := s
      cases b with
      | expr e => exact .cons ⟨inner, h, rfl⟩ ih
      | «inherit» e => exact .cons ⟨st, id, rfl⟩ ih
      | inheritFrom i => exact ih
  have hcomputed : List.Forall₂ (R.Renamed st) g.computed (R.group st inner g).computed := by
    rw [computed_group]
    exact R.renamed_map h _
  refine List.rel_append ?_ hcomputed
  rw [group_eq]
  exact List.rel_append (hstatics _) (R.renamed_map h _)

/-- A renaming changes the parts one by one. -/
theorem parts_formOf (st : Stage) (id : Nat) (f : Form Expr) :
    List.Forall₂ (R.Renamed st) f.parts (R.formOf st id f).parts := by
  have hsame : ∀ es : List Expr, List.Forall₂ (R.Renamed st) es (es.map (R.expr st)) := R.renamed_map fun h => h
  have hbody : ∀ (st' : Stage) (e : Expr), (st = .shadowed → st' = .shadowed) →
      List.Forall₂ (R.Renamed st) [e] [R.expr st' e] := fun st' e h => R.renamed_map h [e]
  cases f with
  | missing | literal _ | ref _ => exact .nil
  | apply f a => exact hsame [f, a]
  | lambda p b =>
    cases p with
    | name x =>
      rw [formOf]
      split
      · next hhits => exact hbody .inside b fun h => by rw [hhits.1] at h; cases h
      · exact hbody _ b (R.under_eq_shadowed _)
    | fields fs o whole =>
      have hdefaults : ∀ st', (fs.map fun f => (f.1, f.2.map (R.expr st'))).filterMap (·.2) =
          (fs.filterMap (·.2)).map (R.expr st') := by
        intro st'
        rw [List.filterMap_map, List.map_filterMap]
        rfl
      rw [formOf, fields_eq]
      simp only [Form.parts, Param.defaults]
      rw [hdefaults]
      exact List.rel_append (R.renamed_map (R.under_eq_shadowed _) _) (hbody _ b (R.under_eq_shadowed _))
  | letIn g b => exact List.rel_append (R.parts_group (R.under_eq_shadowed _) g) (hbody _ b (R.under_eq_shadowed _))
  | set isRec g =>
    cases isRec with
    | true => exact R.parts_group (R.under_eq_shadowed _) g
    | false => exact R.parts_group (fun h => h) g
  | list es =>
    rw [formOf, exprs_eq]
    exact hsame es
  | unary op e => exact hsame [e]
  | binary op l r => exact hsame [l, r]
  | select e path d =>
    rw [formOf, exprs_eq, expr?_eq]
    simp only [Form.parts]
    rw [Option.toList_map]
    exact List.rel_append (hsame (e :: path)) (hsame d.toList)
  | hasAttr e path =>
    rw [formOf, exprs_eq]
    exact hsame (e :: path)
  | ifElse c y n => exact hsame [c, y, n]
  | withIn s b => exact hsame [s, b]
  | assertIn c b => exact hsame [c, b]
  | stringParts ps | pathParts ps =>
    rw [formOf]
    simp only [Form.parts]
    rw [interps_pieces]
    exact hsame _

theorem length_all_expr (st : Stage) (e : Expr) : (R.expr st e).all.length = e.all.length := by
  induction e using Expr.parts_induction generalizing st with
  | h e ih =>
    obtain ⟨id, span, f⟩ := e
    have hparts := (List.forall₂_and_left _ _).2 ⟨ih, R.parts_formOf st id f⟩
    have hmap : List.Forall₂ Eq (f.parts.map fun p => p.all.length)
        ((R.formOf st id f).parts.map fun p => p.all.length) := by
      rw [List.forall₂_map_left_iff, List.forall₂_map_right_iff]
      refine hparts.imp ?_
      rintro p p' ⟨hp, st', -, rfl⟩
      exact (hp st').symm
    rw [List.forall₂_eq_eq_eq] at hmap
    rw [expr, Expr.length_all, Expr.length_all]
    exact congrArg (1 + List.sum ·) hmap.symm

theorem mentioned_expr (st : Stage) (e : Expr) :
    List.Forall₂ (fun x x' => x' = x ∨ (st ≠ .shadowed ∧ x = R.old ∧ x' = R.new)) e.mentioned
      (R.expr st e).mentioned := by
  induction e using Expr.parts_induction generalizing st with
  | h e ih =>
    obtain ⟨id, span, f⟩ := e
    have hparts := (List.forall₂_and_left _ _).2 ⟨ih, R.parts_formOf st id f⟩
    rw [expr, Expr.mentioned_eq, Expr.mentioned_eq]
    refine List.rel_append ?_ (List.rel_flatMap hparts ?_)
    · cases f with
      | ref x =>
        refine .cons ?_ .nil
        show R.name st x = x ∨ _
        unfold name
        split
        · next h => exact .inr ⟨by rw [h.1]; simp, h.2, rfl⟩
        · exact .inl rfl
      | lambda p b =>
        cases p with
        | name x =>
          rw [formOf]
          by_cases h : R.hits st id x
          · rw [if_pos h]
            exact .nil
          · rw [if_neg h]
            exact .nil
        | fields fs o whole => exact .nil
      | set isRec g => cases isRec <;> exact .nil
      | _ => exact .nil
    · rintro p p' ⟨hp, st', hst, rfl⟩
      refine (hp st').imp ?_
      rintro x x' (h | ⟨hne, h⟩)
      · exact .inl h
      · exact .inr ⟨fun hs => hne (hst hs), h⟩

end Parts

/-! ## Dependencies -/

section Dependencies
variable {R : Renaming} {st inner : Stage} {g : Bindings Expr}

/-- A group uses the same names after a renaming that does not touch its own. -/
theorem filterMap_mentioned (hnew : R.new ∉ g.names) (hold : inner = .shadowed ∨ R.old ∉ g.names) (e : Expr) :
    (R.expr inner e).mentioned.filterMap (fun x => g.names.idxOf? x) =
      e.mentioned.filterMap fun x => g.names.idxOf? x := by
  have hmentioned := R.mentioned_expr inner e
  generalize (R.expr inner e).mentioned = ys, e.mentioned = xs at hmentioned ⊢
  induction hmentioned with
  | nil => rfl
  | @cons x x' xs xs' hx _ ih =>
    have hidx : g.names.idxOf? x' = g.names.idxOf? x := by
      rcases hx with rfl | ⟨hne, rfl, rfl⟩
      · rfl
      · rw [List.idxOf?_eq_none_iff.2 hnew, List.idxOf?_eq_none_iff.2 (hold.resolve_left hne)]
    rw [List.filterMap_cons, List.filterMap_cons, hidx, ih]

theorem dependencies_group (hnew : R.new ∉ g.names) (hold : inner = .shadowed ∨ R.old ∉ g.names) :
    Dependencies.ofBindings (R.group st inner g) = Dependencies.ofBindings g := by
  have huses : ∀ e : Expr, distinct ((R.expr inner e).mentioned.filterMap fun x => g.names.idxOf? x) =
      distinct (e.mentioned.filterMap fun x => g.names.idxOf? x) := fun e => by rw [filterMap_mentioned hnew hold]
  unfold Dependencies.ofBindings
  simp only [names_group]
  rw [group_eq]
  simp only [List.map_map, List.length_map]
  congr 2
  · refine List.map_congr_left fun s _ => ?_
    obtain ⟨x, b⟩ := s
    cases b with
    | expr e => exact huses e
    | «inherit» e => rfl
    | inheritFrom i => rfl
  · exact List.map_congr_left fun e _ => huses e

/-- A renaming keeps the components of a group at every stage, if it keeps them outside of the function. -/
theorem components_group {R : Renaming} {g : Bindings Expr} (hnew : R.new ∉ g.names)
    (h : R.old ∈ g.names →
      (Dependencies.ofBindings (R.group .outside .outside g)).components = (Dependencies.ofBindings g).components)
    (st : Stage) :
    (Dependencies.ofBindings (R.group st (R.under g.names st) g)).components =
      (Dependencies.ofBindings g).components := by
  by_cases hold : R.old ∈ g.names
  · cases st with
    | outside => exact h hold
    | inside => rw [dependencies_group hnew (.inl (under_inside_of_mem hold))]
    | shadowed => rw [dependencies_group hnew (.inl (R.under_shadowed _))]
  · rw [dependencies_group hnew (.inr hold)]

end Dependencies

end Renaming

/-! ## Renamings that change nothing -/

/-- The names that an expression refers to or binds. -/
def Form.names {α : Type} : Form α → List String
  | .ref x => [x]
  | .lambda p _ => p.names
  | .letIn g _ | .set _ g => g.names
  | _ => []

/-- A form with a group has the names of the group. -/
theorem Form.names_of_group {f : Form Expr} {g : Bindings Expr} (h : f.group? = some g) : f.names = g.names := by
  cases f with
  | letIn g' b =>
    cases h
    rfl
  | set isRec g' =>
    cases isRec with
    | true =>
      cases h
      rfl
    | false => cases h
  | _ => cases h

theorem map_eq_self {α : Type} {f : α → α} {l : List α} (h : ∀ a ∈ l, f a = a) : l.map f = l :=
  (List.map_congr_left h).trans (List.map_id l)

namespace Renaming

section Unused
variable {R : Renaming}

theorem pieces_of_unused {ps : List (Piece Expr)} (h : ∀ e ∈ ps.filterMap Piece.interp?, R.expr .outside e = e) :
    R.pieces .outside ps = ps := by
  induction ps with
  | nil => rfl
  | cons p ps ih =>
    cases p with
    | text t => rw [pieces, ih h]
    | interp e =>
      obtain ⟨he, hps⟩ := List.forall_mem_cons.1 h
      rw [pieces, he, ih hps]

theorem group_of_unused {g : Bindings Expr} (h : ∀ e ∈ g.parts, R.expr .outside e = e) :
    R.group .outside .outside g = g := by
  have hstatics : g.statics.map (fun s => (s.1, R.binding .outside .outside s.2)) = g.statics := by
    refine map_eq_self fun s hs => ?_
    obtain ⟨x, b⟩ := s
    have hb : ∀ e, b.expr? = some e → R.expr .outside e = e :=
      fun e he => h e (Bindings.mem_parts_of_static hs he)
    cases b with
    | expr e => rw [binding, hb e rfl]
    | «inherit» e => rw [binding, hb e rfl]
    | inheritFrom i => rfl
  have hdynamics : g.dynamics.map (fun d => (R.expr .outside d.1, R.expr .outside d.2)) = g.dynamics := by
    refine map_eq_self fun d hd => ?_
    have hpair : ∀ e ∈ [d.1, d.2], R.expr .outside e = e := fun e he => h e (by
      simp only [Bindings.parts, List.mem_append, List.mem_flatMap]
      exact .inr ⟨d, hd, he⟩)
    rw [hpair d.1 (by simp), hpair d.2 (by simp)]
  have hsources : g.sources.map (R.expr .outside) = g.sources :=
    map_eq_self fun e he => h e (by
      simp only [Bindings.parts, List.mem_append]
      exact .inl (.inr he))
  rw [group_eq, hstatics, hsources, hdynamics]

/-- A renaming of a parameter that no function has. -/
theorem expr_of_unused {e : Expr} (h : ∀ p ∈ e.all, R.old ∉ p.form.names) : R.expr .outside e = e := by
  induction e using Expr.parts_induction with
  | h e ih =>
    have hparts : ∀ p ∈ e.parts, R.expr .outside p = p :=
      fun p hp => ih p hp fun q hq => h q (Expr.mem_all.2 (.inr ⟨p, hp, hq⟩))
    have hself := h e (Expr.mem_all.2 (.inl rfl))
    obtain ⟨id, span, f⟩ := e
    rw [expr]
    congr 1
    change ∀ p ∈ f.parts, _ at hparts
    change R.old ∉ f.names at hself
    cases f with
    | missing | literal _ | ref _ => rfl
    | lambda p b =>
      have hb := hparts b (by simp [Form.parts])
      cases p with
      | name x =>
        have hx : ¬ R.hits .outside id x := fun hhits => hself (by simp [Form.names, Param.names, hhits.2.2])
        rw [formOf, if_neg hx, under_outside, hb]
      | fields fs o whole =>
        have hfields : fs.map (fun f => (f.1, f.2.map (R.expr .outside))) = fs := by
          refine map_eq_self fun f hf => ?_
          obtain ⟨x, _ | d⟩ := f
          · rfl
          · have hd := hparts d (by
              simp only [Form.parts, Param.defaults, List.mem_append, List.mem_filterMap]
              exact .inl ⟨_, hf, rfl⟩)
            rw [Option.map_some, hd]
        rw [formOf, fields_eq, under_outside, hfields, hb]
    | letIn g b =>
      rw [formOf, under_outside, group_of_unused fun p hp => hparts p (List.mem_append_left _ hp),
        hparts b (by simp [Form.parts])]
    | set isRec g => cases isRec <;> exact congrArg (Form.set _) (group_of_unused hparts)
    | list es =>
      rw [formOf, exprs_eq]
      exact congrArg Form.list (map_eq_self hparts)
    | select e path d =>
      obtain ⟨he, hrest⟩ := List.forall_mem_cons.1 hparts
      obtain ⟨hpath, hd⟩ := List.forall_mem_append.1 hrest
      have hdflt : d.map (R.expr .outside) = d := by
        cases d with
        | none => rfl
        | some d => rw [Option.map_some, hd d (by simp)]
      rw [formOf, exprs_eq, expr?_eq, he, map_eq_self hpath, hdflt]
    | hasAttr e path =>
      obtain ⟨he, hpath⟩ := List.forall_mem_cons.1 hparts
      rw [formOf, exprs_eq, he, map_eq_self hpath]
    | stringParts ps => exact congrArg Form.stringParts (pieces_of_unused hparts)
    | pathParts ps => exact congrArg Form.pathParts (pieces_of_unused hparts)
    | apply f a => rw [formOf, hparts f (by simp [Form.parts]), hparts a (by simp [Form.parts])]
    | unary op e => rw [formOf, hparts e (by simp [Form.parts])]
    | binary op l r => rw [formOf, hparts l (by simp [Form.parts]), hparts r (by simp [Form.parts])]
    | ifElse c y n =>
      rw [formOf, hparts c (by simp [Form.parts]), hparts y (by simp [Form.parts]), hparts n (by simp [Form.parts])]
    | withIn s b => rw [formOf, hparts s (by simp [Form.parts]), hparts b (by simp [Form.parts])]
    | assertIn c b => rw [formOf, hparts c (by simp [Form.parts]), hparts b (by simp [Form.parts])]

end Unused

/-- For every list of names there is a renaming between names outside of it. -/
theorem exists_avoiding (names : List String) : ∃ R : Renaming, R.old ∉ names ∧ R.new ∉ names := by
  obtain ⟨old, hold⟩ := Infinite.exists_notMem_finset names.toFinset
  obtain ⟨new, hnew⟩ := Infinite.exists_notMem_finset (insert old names.toFinset)
  rw [Finset.mem_insert, not_or] at hnew
  exact ⟨⟨0, old, new, fun h => hnew.1 h.symm⟩, by simpa using hold, by simpa using hnew.2⟩

/-- A renaming of a name that stands nowhere in the expression. -/
theorem exists_idle (e : Expr) :
    ∃ R : Renaming, R.expr .outside e = e ∧ ∀ p ∈ e.all, R.old ∉ p.form.names ∧ R.new ∉ p.form.names := by
  obtain ⟨R, hold, hnew⟩ := exists_avoiding (e.all.flatMap fun p => p.form.names)
  have hmem : ∀ p ∈ e.all, ∀ x ∈ p.form.names, x ∈ e.all.flatMap fun p => p.form.names :=
    fun p hp x hx => List.mem_flatMap.2 ⟨p, hp, hx⟩
  exact ⟨R, expr_of_unused fun p hp hx => hold (hmem p hp _ hx),
    fun p hp => ⟨fun hx => hold (hmem p hp _ hx), fun hx => hnew (hmem p hp _ hx)⟩⟩

end Renaming

end NixTyping
