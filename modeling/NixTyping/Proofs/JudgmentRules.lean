import Mathlib
import NixTyping.Proofs.Deferral
import NixTyping.Proofs.Viable
/-!
# The rules of judgment

`Follows env T scopes f J` says that `J` is a judgment of the form `f` under `scopes`
by the rule for that form, from judgments of the parts of which `T` tells. A group
has a judgment for each of its slots, whether or not it is used. What a use of a
binding or of a field is depends on the state of the walk; a rule says of it no more
than `Use`.

What holds of a judgment by the rules holds by induction on the expression, without
regard to the order in which a walk goes about it.
-/

namespace NixTyping

open Judging

/-- A constraint that asks for an instance. -/
def Constraint.IsInstance : Constraint → Prop
  | .eq _ _ => False
  | .explicit _ _ | .implicit _ _ _ => True

namespace Form

/-- The steps of an attribute path. -/
def path {α : Type} : Form α → List α
  | .select _ path _ | .hasAttr _ path => path
  | _ => []

/-- The steps of an attribute path that are known names. They are not judged. -/
def knownSteps (f : Form Expr) : List Expr := f.path.filter fun e => (stepName? e).isSome

/-- The parts that are judged. -/
def judged : Form Expr → List Expr
  | .select subject path dflt => subject :: path.filter (fun e => (stepName? e).isNone) ++ dflt.toList
  | .hasAttr subject path => subject :: path.filter fun e => (stepName? e).isNone
  | f => f.parts

theorem judged_sublist (f : Form Expr) : f.judged.Sublist f.parts := by
  cases f with
  | select subject path dflt => exact (List.filter_sublist.cons_cons subject).append (.refl _)
  | hasAttr subject path => exact List.filter_sublist.cons_cons subject
  | _ => exact .refl _

theorem judged_subset {f : Form Expr} {p : Expr} (h : p ∈ f.judged) : p ∈ f.parts := f.judged_sublist.subset h

/-- What is not judged are the known steps. -/
theorem parts_perm (f : Form Expr) : f.parts.Perm (f.judged ++ f.knownSteps) := by
  have hpath : ∀ path : List Expr, path.Perm (path.filter (fun e => (stepName? e).isNone) ++
      path.filter fun e => (stepName? e).isSome) := by
    intro path
    have hsplit := List.filter_append_perm (fun e => (stepName? e).isNone) path
    simpa using hsplit.symm
  cases f with
  | select subject path dflt =>
    refine (((hpath path).cons subject).append_right dflt.toList).trans ?_
    simp only [judged, knownSteps, Form.path, List.cons_append, List.append_assoc]
    exact (List.perm_append_comm.append_left _).cons subject
  | hasAttr subject path => exact (hpath path).cons subject
  | _ => simp [judged, knownSteps, path]

theorem exists_literal_of_known {f : Form Expr} {p : Expr} (h : p ∈ f.knownSteps) : ∃ l, p.form = .literal l := by
  obtain ⟨id, span, g⟩ := p
  have hname := (List.mem_filter.1 h).2
  cases g with
  | literal l => exact ⟨l, rfl⟩
  | _ => simp [stepName?, Expr.form] at hname

end Form

section Rules
variable (env : Env) (T : List Scope → Expr → Judgment → Prop)

/-- What the use of a name or field brings in: no assumption, and instances at most. -/
structure Use (J : Judgment) : Prop where
  assumptions : J.assumptions = ∅
  constraints : ∀ c ∈ J.constraints, c.IsInstance
  viable : env.Viable → J.Viable

/-- A judgment of what waits in a slot. -/
def Fulfils (p : Pending) (J : Judgment) : Prop :=
  match p.value with
  | .expr e => T p.scopes e J
  | .field _ _ => Use env J

/-- A judgment of a field of a set whose fields do not see each other. -/
def FieldJudged (scopes : List Scope) (b : String × Binding Expr) (f : String × Judgment) : Prop :=
  f.1 = b.1 ∧
    match b.2 with
    | .expr e | .inherit e => T scopes e f.2
    | .inheritFrom _ => Use env f.2

/-- A judgment of the default of a pattern's field, if it has one. -/
def DefaultJudged (scopes : List Scope) (f : String × Option Expr) (d : Option Judgment) : Prop :=
  Option.Rel (T scopes) f.2 d

/-- A name is an assumption: something around it will resolve it, the environment does, or nothing. -/
def Assumed (scopes : List Scope) (x : String) : Prop :=
  match lexicalIn scopes x with
  | some .param | some (.letBody _ _) => True
  | some (.group _ _ _) => False
  | none => constant? x = none ∧ (env.contains x = true ∨ scopes.filterMap (·.with?) = [])

/-- The types of the names of a group. -/
def boundTypes (b : Bindings Expr) (js : List Judgment) : List (String × Ty) := b.names.zip (js.map (·.ty))

inductive Follows (scopes : List Scope) : Form Expr → Judgment → Prop where
  | missing (v : Nat) : Follows scopes .missing (.ofTy (.var v))
  | literal (l : Literal) : Follows scopes (.literal l) (.ofTy l.ty)
  | assumed {x : String} (h : Assumed env scopes x) (v : Nat) : Follows scopes (.ref x) (.reference x (.var v))
  | used {x : String} {J : Judgment} (h : ¬ Assumed env scopes x) (use : Use env J) : Follows scopes (.ref x) J
  | apply {fn arg : Expr} {Jf Ja : Judgment} (hfn : T scopes fn Jf) (harg : T scopes arg Ja) (v : Nat) :
    Follows scopes (.apply fn arg) (.apply Jf Ja (.var v))
  | lambda {x : String} {body : Expr} {J : Judgment} (v : Nat) (h : T (.params [x] :: scopes) body J) :
    Follows scopes (.lambda (.name x) body) (.lambda x (.var v) J)
  | pattern {fs : List (String × Option Expr)} {ellipsis : Bool} {whole : Option String} {body : Expr}
    {vars : List Nat} {ds : List (Option Judgment)} {J : Judgment} (hvars : vars.length = fs.length)
    (hds : List.Forall₂ (DefaultJudged T (.params (fs.map (·.1) ++ whole.toList) :: scopes)) fs ds)
    (h : T (.params (fs.map (·.1) ++ whole.toList) :: scopes) body J) :
    Follows scopes (.lambda (.fields fs ellipsis whole) body)
      (.patternLambda (patternFields fs vars ds) whole ellipsis J)
  | letIn {d : Deferral} {body : Expr} {js extra : List Judgment} {J : Judgment} (hscopes : d.ctx.scopes = scopes)
    (hjs : List.Forall₂ (Fulfils env T) d.pendings js)
    (hextra : List.Forall₂ (T (d.scope :: scopes)) d.group.computed extra) (h : T (d.body :: scopes) body J) :
    Follows scopes (.letIn d.group body) (.letIn (boundTypes d.group js) (js ++ extra) J d.ctx.mono)
  | recSet {d : Deferral} {js extra : List Judgment} (hscopes : d.ctx.scopes = scopes)
    (hjs : List.Forall₂ (Fulfils env T) d.pendings js)
    (hextra : List.Forall₂ (T (d.scope :: scopes)) d.group.computed extra) :
    Follows scopes (.set true d.group)
      (.merged (js ++ extra) (.ofFields (boundTypes d.group js) (!d.group.dynamics.isEmpty)))
  | plainSet {b : Bindings Expr} {fields : List (String × Judgment)} {sources extra : List Judgment}
    (hsources : List.Forall₂ (T scopes) b.sources sources)
    (hfields : List.Forall₂ (FieldJudged env T scopes) b.statics fields)
    (hextra : List.Forall₂ (T scopes) b.computed extra) :
    Follows scopes (.set false b) (.set fields (sources ++ extra) (!b.dynamics.isEmpty))
  | list {es : List Expr} {js : List Judgment} (h : List.Forall₂ (T scopes) es js) :
    Follows scopes (.list es) (.list js)
  | unary {op : UnaryOp} {e : Expr} {J : Judgment} (h : T scopes e J) (v : Nat) :
    Follows scopes (.unary op e) (.unary op J (.var v))
  | binary {op : BinOp} {l r : Expr} {Jl Jr : Judgment} (hl : T scopes l Jl) (hr : T scopes r Jr) (v : Nat) :
    Follows scopes (.binary op l r) (.binary op Jl Jr (.var v))
  | select {subject : Expr} {path : List Expr} {dflt : Option Expr} {J result : Judgment} {steps ds : List Judgment}
    (h : T scopes subject J) (hsteps : List.Forall₂ (T scopes) (path.filter fun e => (stepName? e).isNone) steps)
    (hds : List.Forall₂ (T scopes) dflt.toList ds) (use : Use env result) :
    Follows scopes (.select subject path dflt) (.merged (J :: steps ++ ds ++ [result]) result.ty)
  | hasAttr {subject : Expr} {path : List Expr} {J : Judgment} {steps : List Judgment} (h : T scopes subject J)
    (hsteps : List.Forall₂ (T scopes) (path.filter fun e => (stepName? e).isNone) steps) :
    Follows scopes (.hasAttr subject path) (.merged (J :: steps) .bool)
  | ifElse {cond yes no : Expr} {Jc Jy Jn : Judgment} (hcond : T scopes cond Jc) (hyes : T scopes yes Jy)
    (hno : T scopes no Jn) : Follows scopes (.ifElse cond yes no) (.ifElse Jc Jy Jn)
  | withIn {scope body : Expr} {Js Jb : Judgment} (r : Option KnownRecord) (hscope : T scopes scope Js)
    (hbody : T (.withIn r :: scopes) body Jb) : Follows scopes (.withIn scope body) (.merged [Js, Jb] Jb.ty)
  | assertIn {cond body : Expr} {Jc Jb : Judgment} (hcond : T scopes cond Jc) (hbody : T scopes body Jb) :
    Follows scopes (.assertIn cond body) (.assertIn Jc Jb)
  | stringParts {ps : List (Piece Expr)} {js : List Judgment}
    (h : List.Forall₂ (T scopes) (ps.filterMap (·.interp?)) js) :
    Follows scopes (.stringParts ps) (.merged js .string)
  | pathParts {ps : List (Piece Expr)} {js : List Judgment}
    (h : List.Forall₂ (T scopes) (ps.filterMap (·.interp?)) js) : Follows scopes (.pathParts ps) (.merged js .path)

end Rules

theorem forall₂_imp_of_mem {α β : Type} {R S : α → β → Prop} {as : List α} {bs : List β} (h : List.Forall₂ R as bs)
    (himp : ∀ a ∈ as, ∀ b, R a b → S a b) : List.Forall₂ S as bs := by
  induction h with
  | nil => exact .nil
  | cons hab _ ih => exact .cons (himp _ List.mem_cons_self _ hab) (ih fun a ha => himp a (List.mem_cons_of_mem _ ha))

section Mono
variable {env : Env} {T T' : List Scope → Expr → Judgment → Prop}

theorem Fulfils.mono {p : Pending} {J : Judgment} (h : Fulfils env T p J)
    (hT : ∀ e, p.value = .expr e → T p.scopes e J → T' p.scopes e J) : Fulfils env T' p J := by
  unfold Fulfils at h ⊢
  split
  · next e hvalue =>
    rw [hvalue] at h
    exact hT e hvalue h
  · next hvalue =>
    rw [hvalue] at h
    exact h

theorem FieldJudged.mono {scopes : List Scope} {b : String × Binding Expr} {f : String × Judgment}
    (h : FieldJudged env T scopes b f) (hT : ∀ e, b.2.expr? = some e → T scopes e f.2 → T' scopes e f.2) :
    FieldJudged env T' scopes b f := by
  obtain ⟨name, b⟩ := b
  refine ⟨h.1, ?_⟩
  cases b with
  | expr e | «inherit» e => exact hT e rfl h.2
  | inheritFrom i => exact h.2

theorem DefaultJudged.mono {scopes : List Scope} {f : String × Option Expr} {d : Option Judgment}
    (h : DefaultJudged T scopes f d) (hT : ∀ e, f.2 = some e → ∀ J, T scopes e J → T' scopes e J) :
    DefaultJudged T' scopes f d := by
  obtain ⟨name, e⟩ := f
  cases h with
  | none => exact .none
  | some h => exact .some (hT _ rfl _ h)

/-- A rule looks at the parts of an expression only. -/
theorem Follows.mono {scopes : List Scope} {f : Form Expr} {J : Judgment} (h : Follows env T scopes f J)
    (hT : ∀ e ∈ f.judged, ∀ sc J, T sc e J → T' sc e J) : Follows env T' scopes f J := by
  have hall : ∀ {sc : List Scope} {es : List Expr} {js : List Judgment}, (∀ e ∈ es, e ∈ f.judged) →
      List.Forall₂ (T sc) es js → List.Forall₂ (T' sc) es js :=
    fun hes h => forall₂_imp_of_mem h fun e he J => hT e (hes e he) _ J
  have hfulfils : ∀ {d : Deferral} {js : List Judgment}, (∀ e ∈ d.group.parts, e ∈ f.judged) →
      List.Forall₂ (Fulfils env T) d.pendings js → List.Forall₂ (Fulfils env T') d.pendings js :=
    fun {d js} hparts h => forall₂_imp_of_mem h fun p hp J hJ =>
      hJ.mono fun e he => hT e (hparts e (d.mem_parts_of_pending hp he)) _ J
  have hpart : ∀ {e : Expr} {sc : List Scope} {J : Judgment}, e ∈ f.judged → T sc e J → T' sc e J :=
    fun he => hT _ he _ _
  have hcomputed : ∀ {b : Bindings Expr}, ∀ e ∈ b.computed, e ∈ b.parts := fun e he => List.mem_append_right _ he
  cases h with
  | missing v => exact .missing v
  | literal l => exact .literal l
  | assumed h v => exact .assumed h v
  | used h use => exact .used h use
  | apply hfn harg v =>
    exact .apply (hpart (by simp [Form.judged, Form.parts]) hfn)
      (hpart (by simp [Form.judged, Form.parts]) harg) v
  | lambda v h => exact .lambda v (hpart (by simp [Form.judged, Form.parts]) h)
  | pattern hvars hds h =>
    refine .pattern hvars (forall₂_imp_of_mem hds fun f hf d hd => hd.mono fun e he => hT e ?_ _)
      (hpart (by simp [Form.judged, Form.parts]) h)
    simp only [Form.judged, Form.parts, Param.defaults, List.mem_append, List.mem_filterMap]
    exact .inl ⟨f, hf, he⟩
  | letIn hscopes hjs hextra h =>
    exact .letIn hscopes (hfulfils (fun e he => List.mem_append_left _ he) hjs)
      (hall (fun e he => List.mem_append_left _ (hcomputed e he)) hextra) (hpart (by simp [Form.judged, Form.parts]) h)
  | recSet hscopes hjs hextra => exact .recSet hscopes (hfulfils (fun _ he => he) hjs) (hall hcomputed hextra)
  | plainSet hsources hfields hextra =>
    refine .plainSet (hall (fun e he => ?_) hsources)
      (forall₂_imp_of_mem hfields fun b hb f hf => hf.mono fun e he => hpart ?_) (hall hcomputed hextra)
    · simp [Form.judged, Form.parts, Bindings.parts, he]
    · exact Bindings.mem_parts_of_static hb he
  | list h => exact .list (hall (fun _ he => he) h)
  | unary h v => exact .unary (hpart (by simp [Form.judged, Form.parts]) h) v
  | binary hl hr v =>
    exact .binary (hpart (by simp [Form.judged, Form.parts]) hl) (hpart (by simp [Form.judged, Form.parts]) hr) v
  | select h hsteps hds use =>
    refine .select (hpart (by simp [Form.judged]) h) (hall (fun e he => ?_) hsteps) (hall (fun e he => ?_) hds) use
    · exact List.mem_append_left _ (List.mem_cons_of_mem _ he)
    · exact List.mem_append_right _ he
  | hasAttr h hsteps =>
    exact .hasAttr (hpart (by simp [Form.judged]) h) (hall (fun e he => List.mem_cons_of_mem _ he) hsteps)
  | ifElse hcond hyes hno =>
    exact .ifElse (hpart (by simp [Form.judged, Form.parts]) hcond) (hpart (by simp [Form.judged, Form.parts]) hyes)
      (hpart (by simp [Form.judged, Form.parts]) hno)
  | withIn r hscope hbody =>
    exact .withIn r (hpart (by simp [Form.judged, Form.parts]) hscope)
      (hpart (by simp [Form.judged, Form.parts]) hbody)
  | assertIn hcond hbody =>
    exact .assertIn (hpart (by simp [Form.judged, Form.parts]) hcond)
      (hpart (by simp [Form.judged, Form.parts]) hbody)
  | stringParts h => exact .stringParts (hall (fun _ he => he) h)
  | pathParts h => exact .pathParts (hall (fun _ he => he) h)

end Mono

/-! ## No rule makes an empty overload set -/

section Viable
variable {env : Env} {T : List Scope → Expr → Judgment → Prop}

theorem Fulfils.viable {p : Pending} {J : Judgment} (h : Fulfils env T p J) (henv : env.Viable)
    (hT : ∀ sc e J, T sc e J → J.Viable) : J.Viable := by
  unfold Fulfils at h
  split at h
  · exact hT _ _ _ h
  · exact h.viable henv

/-- With viable judgments of the parts. -/
theorem Follows.viable_of_parts (henv : env.Viable) (hT : ∀ sc e J, T sc e J → J.Viable) {scopes : List Scope}
    {f : Form Expr} {J : Judgment} (h : Follows env T scopes f J) : J.Viable := by
  rw [Judgment.viable_iff]
  have hvar : ∀ v, viability.ty (.var v) (.var v) := fun v => ⟨.var v, rfl⟩
  have hpart : ∀ {sc : List Scope} {e : Expr} {J : Judgment}, T sc e J → Judgment.Related viability Eq J J :=
    fun h => Judgment.viable_iff.1 (hT _ _ _ h)
  have huse : ∀ {J : Judgment}, Use env J → Judgment.Related viability Eq J J :=
    fun h => Judgment.viable_iff.1 (h.viable henv)
  have hall : ∀ {sc : List Scope} {es : List Expr} {js : List Judgment}, List.Forall₂ (T sc) es js →
      List.Forall₂ (Judgment.Related viability Eq) js js := by
    intro sc es js h
    refine List.forall₂_same.2 fun J hJ => ?_
    obtain ⟨e, -, h⟩ := exists_of_forall₂ h hJ
    exact hpart h
  have hfulfils : ∀ {ps : List Pending} {js : List Judgment}, List.Forall₂ (Fulfils env T) ps js →
      List.Forall₂ (Judgment.Related viability Eq) js js := by
    intro ps js h
    refine List.forall₂_same.2 fun J hJ => ?_
    obtain ⟨p, -, h⟩ := exists_of_forall₂ h hJ
    exact Judgment.viable_iff.1 (h.viable henv hT)
  have hbound : ∀ (b : Bindings Expr) {js : List Judgment}, List.Forall₂ (Judgment.Related viability Eq) js js →
      List.Forall₂ (Keyed viability.ty) (boundTypes b js) (boundTypes b js) := by
    intro b js h
    refine List.forall₂_same.2 fun x hx => ⟨rfl, ?_⟩
    obtain ⟨J, hJ, heq⟩ := List.mem_map.1 (List.of_mem_zip hx).2
    rw [← heq]
    exact (List.forall₂_same.1 h J hJ).ty
  cases h with
  | missing v => exact Judgment.related_ofTy (hvar v)
  | literal l => exact Judgment.related_ofTy ⟨l.viable_ty, rfl⟩
  | assumed h v => exact Judgment.related_reference rfl (hvar v)
  | used h use => exact huse use
  | apply hfn harg v => exact (hpart hfn).apply (hpart harg) (hvar v)
  | lambda v h => exact (hpart h).lambda (binds_eq _) (hvar v)
  | pattern hvars hds h =>
    refine (hpart h).patternLambda (List.forall₂_same.2 fun f hf => ⟨rfl, hvar _, ?_⟩) (binds_eq _) _
    obtain ⟨⟨_, v, d⟩, hmem, rfl⟩ := List.mem_map.1 hf
    obtain ⟨⟨name, e⟩, -, hjudged⟩ := exists_of_forall₂ hds (List.of_mem_zip (List.of_mem_zip hmem).2).2
    cases hjudged with
    | none => exact .none
    | some h => exact .some (hpart h)
  | letIn hscopes hjs hextra h =>
    exact (hpart h).letIn (hbound _ (hfulfils hjs)) (List.rel_append (hfulfils hjs) (hall hextra)) rfl (binds_eq _)
  | recSet hscopes hjs hextra =>
    exact Judgment.related_merged (List.rel_append (hfulfils hjs) (hall hextra))
      (viability.ofFields (hbound _ (hfulfils hjs)) _)
  | plainSet hsources hfields hextra =>
    refine Judgment.related_set (List.forall₂_same.2 fun f hf => ⟨rfl, ?_⟩)
      (List.rel_append (hall hsources) (hall hextra)) _
    obtain ⟨⟨name, b⟩, -, hf⟩ := exists_of_forall₂ hfields hf
    cases b with
    | expr e | «inherit» e => exact hpart hf.2
    | inheritFrom i => exact huse hf.2
  | list h => exact Judgment.related_list (hall h)
  | unary h v => exact (hpart h).unary _ (hvar v)
  | binary hl hr v => exact (hpart hl).binary (hpart hr) _ (hvar v)
  | select h hsteps hds use =>
    refine Judgment.related_merged (List.rel_append (List.rel_append (.cons (hpart h) (hall hsteps)) (hall hds)) ?_)
      (huse use).ty
    exact .cons (huse use) .nil
  | hasAttr h hsteps => exact Judgment.related_merged (.cons (hpart h) (hall hsteps)) (viability.prim _)
  | ifElse hcond hyes hno => exact (hpart hcond).ifElse (hpart hyes) (hpart hno)
  | withIn r hscope hbody =>
    exact Judgment.related_merged (.cons (hpart hscope) (.cons (hpart hbody) .nil)) (hpart hbody).ty
  | assertIn hcond hbody => exact (hpart hcond).assertIn (hpart hbody)
  | stringParts h | pathParts h => exact Judgment.related_merged (hall h) (viability.prim _)

end Viable

end NixTyping
