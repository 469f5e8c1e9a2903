import Mathlib
import NixTyping.Proofs.Lowered
import NixTyping.Proofs.TotalJudgment
/-!
# Every expression is judged once

A walk over a module judges each of its expressions once, but for the known names in
attribute paths, which it does not judge. A definition is judged when its slot is
first needed, and a use of it brings in none of its constraints: these are added
where its group is. So the constraints of the whole are those that the expressions
contribute, each of them once (`judged_exactly_once`).

The count of expressions comes from the account that a walk keeps (`Advance.account`).
The constraints are counted along the rules, by `Ledger`.
-/

namespace NixTyping

open Judging

/-! ## Everything but known steps -/

/-- The known names in the paths under an expression. -/
def Expr.steps (e : Expr) : List Expr := e.all.flatMap (·.form.knownSteps)

section All
variable (e : Expr)

theorem Expr.coe_all : (e.all : Multiset Expr) = e ::ₘ (e.parts.map fun p => (p.all : Multiset Expr)).sum := by
  rw [all_eq, ← Multiset.cons_coe, coe_flatMap]

theorem Expr.coe_steps :
    (e.steps : Multiset Expr) = e.form.knownSteps + (e.parts.map fun p => (p.steps : Multiset Expr)).sum := by
  rw [steps, all_eq, List.flatMap_cons, ← Multiset.coe_add, List.flatMap_assoc, coe_flatMap]
  rfl

theorem Expr.sum_parts (f : Expr → Multiset Expr) :
    (e.parts.map f).sum = (e.form.judged.map f).sum + (e.form.knownSteps.map f).sum := by
  rw [parts, (e.form.parts_perm.map f).sum_eq, List.map_append, List.sum_append]

/-- Everything under an expression is judged, or is a known name in a path. -/
theorem Expr.all_eq_worth_add_steps : (e.all : Multiset Expr) = e.worth + e.steps := by
  induction e using parts_induction with
  | h e ih =>
    have hjudged : (e.form.judged.map fun p => (p.all : Multiset Expr)).sum =
        (e.form.judged.map worth).sum + (e.form.judged.map fun p => (p.steps : Multiset Expr)).sum := by
      rw [← List.sum_map_add]
      exact congrArg List.sum (List.map_congr_left fun p hp => ih p (Form.judged_subset hp))
    -- a known name has nothing under it
    have hleaf : ∀ p ∈ e.form.knownSteps, p.parts = [] ∧ p.form.knownSteps = [] := by
      intro p hp
      obtain ⟨l, hl⟩ := Form.exists_literal_of_known hp
      rw [parts, hl]
      exact ⟨rfl, rfl⟩
    have hknown : (e.form.knownSteps.map fun p => (p.all : Multiset Expr)).sum = e.form.knownSteps := by
      have hall : ∀ p ∈ e.form.knownSteps, (p.all : Multiset Expr) = {p} :=
        fun p hp => by rw [all_eq, (hleaf p hp).1]; rfl
      rw [List.map_congr_left hall, ← Multiset.sum_coe, ← Multiset.map_coe, Multiset.sum_map_singleton]
    have hnone : (e.form.knownSteps.map fun p => (p.steps : Multiset Expr)).sum = 0 := by
      refine List.sum_eq_zero fun x hx => ?_
      obtain ⟨p, hp, rfl⟩ := List.mem_map.1 hx
      rw [coe_steps, (hleaf p hp).1, (hleaf p hp).2]
      rfl
    rw [coe_all, sum_parts, hjudged, hknown, worth_eq, coe_steps, sum_parts, hnone, add_zero, Multiset.cons_add,
      add_assoc, add_comm (e.form.knownSteps : Multiset Expr)]

end All

/-! ## What an expression contributes -/

/-- The forms that equate types. -/
def Form.equates {α : Type} : Form α → Bool
  | .apply _ _ | .lambda _ _ | .unary _ _ | .binary _ _ _ | .ifElse _ _ _ | .assertIn _ _ => true
  | _ => false

/-- The type of the sets that a pattern takes. -/
def patternRecord (fields : List Judgment.PatternField) (isOpen : Bool) : Ty :=
  .ofFields (fields.map fun f => (f.name, .var f.var)) isOpen

/-- The equations of a pattern: one for each default, which has the type of its field, and one for each use, in the body
or in a default, of a name that the pattern binds. -/
def patternEqs (fields : List Judgment.PatternField) (whole : Option String) (isOpen : Bool) (body : Judgment) :
    List Constraint :=
  (defaultsOf fields).map (fun d => .eq d.1.ty d.2) ++
    ((fields.map fun f => (f.name, Ty.var f.var)) ++ whole.toList.map fun a => (a, patternRecord fields isOpen)).flatMap
      fun n => Judgment.tie (patternParts body fields).assumptions n.1 n.2

/-- The constraints of a form, at a judgment `J`, besides those of its parts, of whose judgments `T` tells. -/
inductive Contributes (T : Expr → Judgment → Prop) (J : Judgment) : Form Expr → List Constraint → Prop where
  | apply {fn arg : Expr} {Jf Ja : Judgment} (hfn : T fn Jf) (harg : T arg Ja) :
    Contributes T J (.apply fn arg) [.eq Jf.ty (.fn Ja.ty J.ty)]
  | ifElse {cond yes no : Expr} {Jc Jy Jn : Judgment} (hcond : T cond Jc) (hyes : T yes Jy) (hno : T no Jn) :
    Contributes T J (.ifElse cond yes no) [.eq Jc.ty .bool, .eq Jy.ty Jn.ty]
  | assertIn {cond body : Expr} {Jc : Judgment} (hcond : T cond Jc) :
    Contributes T J (.assertIn cond body) [.eq Jc.ty .bool]
  | unary {op : UnaryOp} {e : Expr} {Je : Judgment} (he : T e Je) :
    Contributes T J (.unary op e) [.eq (.fn Je.ty J.ty) op.signature]
  | binary {op : BinOp} {sig : Ty} (hsig : op.signature = some sig) {l r : Expr} {Jl Jr : Judgment} (hl : T l Jl)
    (hr : T r Jr) : Contributes T J (.binary op l r) [.eq (.binary Jl.ty Jr.ty J.ty) sig]
  | compared {op : BinOp} (hop : op = .equal ∨ op = .notEqual) (l r : Expr) : Contributes T J (.binary op l r) []
  | lambda {x : String} {body : Expr} {Jb : Judgment} {v : Nat} (hbody : T body Jb) (hty : J.ty = .fn (.var v) Jb.ty) :
    Contributes T J (.lambda (.name x) body) (Judgment.tie Jb.assumptions x (.var v))
  | pattern {fs : List (String × Option Expr)} {isOpen : Bool} {whole : Option String} {body : Expr} {vars : List Nat}
    {ds : List (Option Judgment)} {Jb : Judgment} (hvars : vars.length = fs.length)
    (hds : List.Forall₂ (fun f d => Option.Rel T f.2 d) fs ds) (hbody : T body Jb)
    (hty : J.ty = .fn (patternRecord (patternFields fs vars ds) isOpen) Jb.ty) :
    Contributes T J (.lambda (.fields fs isOpen whole) body) (patternEqs (patternFields fs vars ds) whole isOpen Jb)
  | instances {cs : List Constraint} (h : ∀ c ∈ cs, c.IsInstance) {f : Form Expr} (hf : f.equates = false) :
    Contributes T J f cs

/-- The constraints are `own` and what the expressions `X` contribute, each once. -/
def Ledger (T : Expr → Judgment → Prop) (X : Multiset Expr) (own cs : List Constraint) : Prop :=
  ∃ entries : List (Expr × List Constraint), (entries.map (·.1) : List Expr) = X ∧
    cs.Perm (own ++ entries.flatMap (·.2)) ∧ ∀ x ∈ entries, ∃ J, T x.1 J ∧ Contributes T J x.1.form x.2

section Ledger
variable {T : Expr → Judgment → Prop} {X Y : Multiset Expr} {own own' cs cs' : List Constraint}

theorem Ledger.of_eq (h : Ledger T X own cs) (hX : X = Y) : Ledger T Y own cs := hX ▸ h

theorem ledger_own (cs : List Constraint) : Ledger T 0 cs cs := ⟨[], rfl, by simp, by rintro x ⟨⟩⟩

theorem Ledger.add (h : Ledger T X own cs) (h' : Ledger T Y own' cs') : Ledger T (X + Y) (own ++ own') (cs ++ cs') := by
  obtain ⟨entries, hX, hcs, hgives⟩ := h
  obtain ⟨entries', hY, hcs', hgives'⟩ := h'
  refine ⟨entries ++ entries', ?_, (hcs.append hcs').trans ?_, fun x hx => ?_⟩
  · rw [List.map_append, ← Multiset.coe_add, hX, hY]
  · rw [List.flatMap_append, List.append_assoc, List.append_assoc]
    refine List.Perm.append_left own ?_
    rw [← List.append_assoc, ← List.append_assoc]
    exact List.perm_append_comm.append_right _
  · exact (List.mem_append.1 hx).elim (hgives x) (hgives' x)

/-- The own constraints become the entry of an expression. -/
theorem Ledger.enter (h : Ledger T X own cs) {e : Expr} {J : Judgment} (he : T e J)
    (hown : Contributes T J e.form own) : Ledger T (e ::ₘ X) [] cs := by
  obtain ⟨entries, hX, hcs, hgives⟩ := h
  refine ⟨(e, own) :: entries, ?_, hcs, fun x hx => ?_⟩
  · rw [List.map_cons, ← Multiset.cons_coe, hX]
  · rcases List.mem_cons.1 hx with rfl | hx
    · exact ⟨J, he, hown⟩
    · exact hgives x hx

/-- The own constraints are instances. -/
def Quiet (T : Expr → Judgment → Prop) (X : Multiset Expr) (cs : List Constraint) : Prop :=
  ∃ own, (∀ c ∈ own, c.IsInstance) ∧ Ledger T X own cs

theorem quiet_own (h : ∀ c ∈ cs, c.IsInstance) : Quiet T 0 cs := ⟨cs, h, ledger_own cs⟩

theorem Ledger.quiet (h : Ledger T X [] cs) : Quiet T X cs := ⟨[], by rintro c ⟨⟩, h⟩

theorem Quiet.of_eq (h : Quiet T X cs) (hX : X = Y) : Quiet T Y cs := hX ▸ h

theorem Quiet.add (h : Quiet T X cs) (h' : Quiet T Y cs') : Quiet T (X + Y) (cs ++ cs') := by
  obtain ⟨own, hown, hledger⟩ := h
  obtain ⟨own', hown', hledger'⟩ := h'
  exact ⟨own ++ own', fun c hc => (List.mem_append.1 hc).elim (hown c) (hown' c), hledger.add hledger'⟩

theorem quiet_forall₂ {α : Type} {R : α → Judgment → Prop} (worth : α → Multiset Expr)
    (hR : ∀ a J, R a J → Quiet T (worth a) J.constraints) {as : List α} {js : List Judgment}
    (h : List.Forall₂ R as js) : Quiet T (as.map worth).sum (js.flatMap (·.constraints)) := by
  induction h with
  | nil => exact quiet_own (by rintro c ⟨⟩)
  | cons hab _ ih =>
    rw [List.map_cons, List.sum_cons, List.flatMap_cons]
    exact (hR _ _ hab).add ih

end Ledger

/-! ## The rules -/

section Rules
variable {env : Env} {T : Expr → Judgment → Prop}

/-- A judgment of which `T` tells, whose constraints are those of the expressions under it. -/
def Booked (T : Expr → Judgment → Prop) (_scopes : List Scope) (e : Expr) (J : Judgment) : Prop :=
  T e J ∧ Ledger T e.worth [] J.constraints

theorem Booked.quiet {scopes : List Scope} {e : Expr} {J : Judgment} (h : Booked T scopes e J) :
    Quiet T e.worth J.constraints := h.2.quiet

theorem quiet_exprs {scopes : List Scope} {es : List Expr} {js : List Judgment}
    (h : List.Forall₂ (Booked T scopes) es js) : Quiet T (es.map Expr.worth).sum (js.flatMap (·.constraints)) :=
  quiet_forall₂ Expr.worth (fun _ _ hJ => hJ.quiet) h

theorem quiet_pendings {ps : List Pending} {js : List Judgment} (h : List.Forall₂ (Fulfils env (Booked T)) ps js) :
    Quiet T (ps.map Pending.worth).sum (js.flatMap (·.constraints)) := by
  refine quiet_forall₂ Pending.worth (fun p J hJ => ?_) h
  obtain ⟨scopes, mono, value⟩ := p
  cases value with
  | expr e => exact (show Booked T scopes e J from hJ).quiet
  | field source name => exact quiet_own hJ.constraints

theorem quiet_fields {scopes : List Scope} {bs : List (String × Binding Expr)} {fields : List (String × Judgment)}
    (h : List.Forall₂ (FieldJudged env (Booked T) scopes) bs fields) :
    Quiet T ((bs.filterMap fun b => b.2.expr?).map Expr.worth).sum ((fields.map (·.2)).flatMap (·.constraints)) := by
  rw [← sum_filterMap]
  refine quiet_forall₂ (R := fun b J => ∃ name, FieldJudged env (Booked T) scopes b (name, J))
    (fun b => b.2.expr?.elim 0 Expr.worth) (fun b J hJ => ?_)
    (List.forall₂_map_right_iff.2 (h.imp fun b f hf => ⟨f.1, hf⟩))
  obtain ⟨name, binding⟩ := b
  obtain ⟨_, -, hJ⟩ := hJ
  cases binding with
  | expr e | «inherit» e => exact Booked.quiet hJ
  | inheritFrom i => exact quiet_own hJ.constraints

/-- The defaults of a pattern, each with the equation of its field. -/
theorem ledger_defaults {scopes : List Scope} {fs : List (String × Option Expr)} {ds : List (Option Judgment)}
    {vars : List Nat} (hvars : vars.length = fs.length) (h : List.Forall₂ (DefaultJudged (Booked T) scopes) fs ds) :
    Ledger T ((fs.filterMap (·.2)).map Expr.worth).sum
      ((defaultsOf (patternFields fs vars ds)).map fun d => .eq d.1.ty d.2)
      ((defaultsOf (patternFields fs vars ds)).flatMap fun d => .eq d.1.ty d.2 :: d.1.constraints) := by
  induction h generalizing vars with
  | nil => exact ledger_own []
  | @cons f d fs ds hd _ ih =>
    obtain ⟨v, vars, rfl⟩ := List.exists_cons_of_length_eq_add_one hvars
    have htail := @ih vars (by simpa using hvars)
    obtain ⟨name, dflt⟩ := f
    cases hd with
    | none => exact htail
    | @some e J hJ =>
      have hhead : Ledger T e.worth [.eq J.ty (.var v)] (.eq J.ty (.var v) :: J.constraints) := by
        simpa using (ledger_own [Constraint.eq J.ty (.var v)]).add hJ.2
      exact hhead.add htail

/-- The constraints of a judgment by a rule are those of its parts and its own. -/
theorem Follows.ledger {scopes : List Scope} {f : Form Expr} {J : Judgment} (h : Follows env (Booked T) scopes f J) :
    ∃ own, Ledger T (f.judged.map Expr.worth).sum own J.constraints ∧ Contributes T J f own := by
  have hquiet : ∀ {X : Multiset Expr} {cs : List Constraint}, f.equates = false → Quiet T X cs →
      ∃ own, Ledger T X own cs ∧ Contributes T J f own :=
    fun hf ⟨own, hown, hledger⟩ => ⟨own, hledger, .instances hown hf⟩
  cases h with
  | missing v | literal l | assumed h v => exact hquiet rfl (quiet_own (by rintro c ⟨⟩))
  | used h use => exact hquiet rfl (quiet_own use.constraints)
  | @apply fn arg Jf Ja hfn harg v =>
    refine ⟨_, ?_, .apply hfn.1 harg.1⟩
    simpa [Form.judged, Form.parts, Judgment.apply, Judgment.require, Judgment.merged] using
      (hfn.2.add harg.2).add (ledger_own [Constraint.eq Jf.ty (.fn Ja.ty (.var v))])
  | @lambda x body J v h =>
    refine ⟨_, ?_, .lambda h.1 rfl⟩
    simpa [Form.judged, Form.parts, Param.defaults, Judgment.lambda] using
      h.2.add (ledger_own (Judgment.tie J.assumptions x (.var v)))
  | @pattern fs ellipsis whole body vars ds J hvars hds h =>
    have hT : List.Forall₂ (DefaultJudged (fun _ => T) _) fs ds := hds.imp fun f d hd => hd.mono fun _ _ _ hJ => hJ.1
    rw [patternLambda_eq]
    refine ⟨_, ((h.2.add (ledger_defaults hvars hds)).add (ledger_own _)).of_eq ?_, .pattern hvars hT h.1 rfl⟩
    simp [Form.judged, Form.parts, Param.defaults, add_comm]
  | @letIn d body js extra J hscopes hjs hextra h =>
    have hbound : ∀ c ∈ (boundTypes d.group js).flatMap fun x =>
        (J.assumptions.lookup x.1).map fun o => Constraint.implicit o d.ctx.mono x.2, c.IsInstance := by
      intro c hc
      obtain ⟨x, -, hc⟩ := List.mem_flatMap.1 hc
      obtain ⟨o, -, rfl⟩ := List.mem_map.1 hc
      trivial
    have hall := (((quiet_pendings hjs).add (quiet_exprs hextra)).add h.quiet).add (quiet_own hbound)
    rw [← d.worth_parts, ← List.flatMap_append] at hall
    exact hquiet rfl (hall.of_eq (by simp [Form.judged, Form.parts]))
  | @recSet d js extra hscopes hjs hextra =>
    have hall := (quiet_pendings hjs).add (quiet_exprs hextra)
    rw [← d.worth_parts, ← List.flatMap_append] at hall
    exact hquiet rfl hall
  | @plainSet b fields sources extra hsources hfields hextra =>
    have hall := (quiet_fields hfields).add ((quiet_exprs hsources).add (quiet_exprs hextra))
    rw [← List.flatMap_append, ← List.flatMap_append] at hall
    refine hquiet rfl (hall.of_eq ?_)
    simp [Form.judged, Form.parts, Bindings.parts, Bindings.computed]
  | list h => exact hquiet rfl (quiet_exprs h)
  | @unary op e J h v =>
    refine ⟨_, ?_, .unary h.1⟩
    simpa [Form.judged, Form.parts, Judgment.unary, Judgment.require, Judgment.merged] using
      h.2.add (ledger_own [Constraint.eq (.fn J.ty (.var v)) op.signature])
  | @binary op l r Jl Jr hl hr v =>
    unfold Judgment.binary
    split
    · next hsig =>
      refine ⟨[], ?_, .compared (by cases op <;> simp_all [BinOp.signature]) l r⟩
      simpa [Form.judged, Form.parts, Judgment.merged] using hl.2.add hr.2
    · next sig hsig =>
      refine ⟨_, ?_, .binary hsig hl.1 hr.1⟩
      simpa [Form.judged, Form.parts, Judgment.require, Judgment.merged] using
        (hl.2.add hr.2).add (ledger_own [Constraint.eq (.binary Jl.ty Jr.ty (.var v)) sig])
  | select h hsteps hds use =>
    refine hquiet rfl ?_
    simpa [Form.judged, Judgment.merged] using
      h.quiet.add ((quiet_exprs hsteps).add ((quiet_exprs hds).add (quiet_own use.constraints)))
  | hasAttr h hsteps => exact hquiet rfl (h.quiet.add (quiet_exprs hsteps))
  | @ifElse cond yes no Jc Jy Jn hcond hyes hno =>
    refine ⟨_, ?_, .ifElse hcond.1 hyes.1 hno.1⟩
    simpa [Form.judged, Form.parts, Judgment.ifElse, Judgment.require, Judgment.merged, add_assoc] using
      ((hcond.2.add hyes.2).add hno.2).add (ledger_own [Constraint.eq Jc.ty .bool, .eq Jy.ty Jn.ty])
  | withIn r hscope hbody =>
    refine hquiet rfl ?_
    simpa [Form.judged, Form.parts, Judgment.merged] using hscope.quiet.add hbody.quiet
  | @assertIn cond body Jc Jb hcond hbody =>
    refine ⟨_, ?_, .assertIn hcond.1⟩
    simpa [Form.judged, Form.parts, Judgment.assertIn, Judgment.require, Judgment.merged] using
      (hcond.2.add hbody.2).add (ledger_own [Constraint.eq Jc.ty .bool])
  | stringParts h | pathParts h => exact hquiet rfl (quiet_exprs h)

end Rules

/-- The constraints of a judgment of which a history tells are those that the expressions under it add. -/
theorem Judging.Holds.ledger {env : Env} {root : Expr} {forcing : List Nat} {s : State} (h : Holds env root forcing s)
    {scopes : List Scope} {e : Expr} {J : Judgment} (hJ : Told s.history scopes e J) :
    Ledger (fun p K => ∃ ctx, Event.judged ctx p K ∈ s.history) e.worth [] J.constraints := by
  induction e using Expr.parts_induction generalizing scopes J with
  | h e ih =>
    obtain ⟨ctx, rfl, hmem⟩ := hJ
    have hparts : Follows env (Booked fun p K => ∃ ctx, Event.judged ctx p K ∈ s.history) ctx.scopes e.form J := by
      refine (h.lawful ctx e J hmem).mono fun p hp sc K hK => ⟨?_, ih p (Form.judged_subset hp) hK⟩
      obtain ⟨ctx', -, hmem'⟩ := hK
      exact ⟨ctx', hmem'⟩
    obtain ⟨own, hledger, hgives⟩ := hparts.ledger
    rw [Expr.worth_eq]
    exact hledger.enter ⟨ctx, hmem⟩ hgives

/-- A walk over a lowered tree judges each of its expressions once. -/
theorem judged_exactly_once_ofTree {source : String} {tree : Tree} {m : Module} {odd : List Oddity}
    (hm : Module.ofTree source tree = (m, odd)) (env : Env) :
    ∃ J s, m.entry.judge env = .ok (J, s) ∧
      let judged := s.history.filterMap Event.expr?
      (judged.map Expr.id).Nodup ∧ (∀ p, p ∈ judged ↔ p ∈ m.entry.all ∧ p ∉ m.entry.steps) ∧
      ∃ ledger : List (Expr × List Constraint), (ledger.map (·.1)).Perm judged ∧
        J.constraints.Perm (ledger.flatMap (·.2)) ∧
        ∀ x ∈ ledger, ∃ K, (∃ ctx, Event.judged ctx x.1 K ∈ s.history) ∧
          Contributes (fun p L => ∃ ctx, Event.judged ctx p L ∈ s.history) K x.1.form x.2 := by
  obtain ⟨J, s, hjudge, hs, hworth, hJ⟩ := m.entry.judge_total (Module.sourced_entry hm) env
  have hall : (m.entry.all : Multiset Expr) = s.judged + m.entry.steps := by rw [m.entry.all_eq_worth_add_steps, hworth]
  have hperm : m.entry.all.Perm (s.history.filterMap Event.expr? ++ m.entry.steps) := Multiset.coe_eq_coe.1 hall
  -- no two expressions have one number, so none is judged twice and no known name is judged
  have hnodup := (hperm.map Expr.id).nodup_iff.1 (Module.nodup_ids hm)
  rw [List.map_append, List.nodup_append] at hnodup
  refine ⟨J, s, hjudge, hnodup.1, fun p => ?_, ?_⟩
  · rw [hperm.mem_iff, List.mem_append]
    constructor
    · intro hp
      exact ⟨.inl hp, fun hstep => hnodup.2.2 _ (List.mem_map_of_mem hp) _ (List.mem_map_of_mem hstep) rfl⟩
    · exact fun hp => hp.1.resolve_right hp.2
  · obtain ⟨entries, hentries, hcs, hgives⟩ := hs.ledger hJ
    exact ⟨entries, Multiset.coe_eq_coe.1 (hentries.trans hworth.symm), hcs, hgives⟩

/-- A walk over a module judges every expression once, but for the known names in attribute paths, which it does not
judge. The constraints of its judgment are, up to order, what the expressions that it judged add: each adds its own
once. -/
theorem judged_exactly_once {text : String} {m : Module} {odd : List Oddity}
    (htext : Module.ofText? text = some (m, odd)) (env : Env) :
    ∃ J s, m.entry.judge env = .ok (J, s) ∧
      let judged := s.history.filterMap Event.expr?
      (judged.map Expr.id).Nodup ∧ (∀ p, p ∈ judged ↔ p ∈ m.entry.all ∧ p ∉ m.entry.steps) ∧
      ∃ ledger : List (Expr × List Constraint), (ledger.map (·.1)).Perm judged ∧
        J.constraints.Perm (ledger.flatMap (·.2)) ∧
        ∀ x ∈ ledger, ∃ K, (∃ ctx, Event.judged ctx x.1 K ∈ s.history) ∧
          Contributes (fun p L => ∃ ctx, Event.judged ctx p L ∈ s.history) K x.1.form x.2 := by
  obtain ⟨tree, -, hm⟩ := Module.exists_tree htext
  exact judged_exactly_once_ofTree hm env

/-- The module of `let f = x: -x; in { a = f 1; }.a`. -/
def selectedField : Module where
  entry := .mk 9 (some ⟨0, 32⟩) (.letIn ⟨[("f", .expr (.mk 2 (some ⟨8, 13⟩) (.lambda (.name "x") (.mk 1 (some ⟨11, 13⟩)
      (.unary .negate (.mk 0 (some ⟨12, 13⟩) (.ref "x")))))))], [], []⟩
    (.mk 8 (some ⟨18, 32⟩) (.select (.mk 6 (some ⟨18, 30⟩) (.set false ⟨[("a", .expr (.mk 5 (some ⟨24, 27⟩) (.apply
      (.mk 3 (some ⟨24, 25⟩) (.ref "f")) (.mk 4 (some ⟨26, 27⟩) (.literal (.int 1))))))], [], []⟩))
      [.mk 7 (some ⟨31, 32⟩) (.literal (.string "a"))] none)))
  count := 10

/-- Nine of the ten expressions are judged: all but the name that is selected. Three of them contribute equations, the
negation, the function, whose parameter is used once, and the application; the `let` contributes the instance. -/
theorem judged_exactly_once_selected_field :
    Module.ofText? "let f = x: -x; in \x7b a = f 1; \x7d.a" = some (selectedField, []) ∧
    ∃ J s, selectedField.entry.judge ∅ = .ok (J, s) ∧
      let judged := s.history.filterMap Event.expr?
      (judged.map Expr.id).Nodup ∧ judged.length = 9 ∧
      (∀ p, p ∈ judged ↔ p ∈ selectedField.entry.all ∧ p ∉ selectedField.entry.steps) ∧
      J.constraints = [.eq (.fn (.var 2) (.var 3)) UnaryOp.negate.signature, .eq (.var 2) (.var 1),
        .eq (.var 0) (.fn .int (.var 4)), .implicit (.var 0) ∅ (.fn (.var 1) (.var 3))] ∧
      ∃ ledger : List (Expr × List Constraint), (ledger.map (·.1)).Perm judged ∧
        J.constraints.Perm (ledger.flatMap (·.2)) ∧
        ∀ x ∈ ledger, ∃ K, (∃ ctx, Event.judged ctx x.1 K ∈ s.history) ∧
          Contributes (fun p L => ∃ ctx, Event.judged ctx p L ∈ s.history) K x.1.form x.2 := by
  have htext : Module.ofText? "let f = x: -x; in \x7b a = f 1; \x7d.a" = some (selectedField, []) := by cbv
  obtain ⟨J, s, hjudge, hnodup, hjudged, hledger⟩ := judged_exactly_once htext ∅
  have hlength : (selectedField.entry.judge ∅).toOption.map (fun r => (r.2.history.filterMap Event.expr?).length) =
      some 9 := by cbv
  have hconstraints : (selectedField.entry.judge ∅).toOption.map (fun r => r.1.constraints) =
      some [.eq (.fn (.var 2) (.var 3)) UnaryOp.negate.signature, .eq (.var 2) (.var 1),
        .eq (.var 0) (.fn .int (.var 4)), .implicit (.var 0) ∅ (.fn (.var 1) (.var 3))] := by cbv
  rw [hjudge] at hlength hconstraints
  exact ⟨htext, J, s, hjudge, hnodup, Option.some.inj hlength, hjudged, Option.some.inj hconstraints, hledger⟩

end NixTyping
