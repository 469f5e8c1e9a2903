import Mathlib
import NixTyping.Project.Check
import NixTyping.Proofs.Lowered
/-!
# What a check reports of declarations

Declarations are inferred one after the other, each in the environment where those before it
are bound to what was inferred for them (`Declares`). A report is read back from the last
environment. It has for every name what was inferred for it, because no two declarations of
a module have the same name, so no later one replaces an earlier one.
-/

namespace NixTyping

/-- The declarations are inferred with the schemes `outs`, each in the environment with those before it; `env'` is the
environment with all of them. -/
inductive Declares (limit : Option Nat) : Env → List (String × Expr) → List (String × List Scheme) → Env → Prop where
  | nil {env : Env} : Declares limit env [] [] env
  | cons {env env' : Env} {name : String} {e : Expr} {schemes : List Scheme} {decls : List (String × Expr)}
    {outs : List (String × List Scheme)} (inferred : (e.infer env limit).result = .ok schemes)
    (rest : Declares limit (env.extend name schemes) decls outs env') :
    Declares limit env ((name, e) :: decls) ((name, schemes) :: outs) env'

/-- Those before a declaration are inferred, and it is the first for which this fails. -/
def FailsAt (limit : Option Nat) (env : Env) (decls : List (String × Expr)) (f : DeclFailure) : Prop :=
  ∃ before after outs env', decls = before ++ (f.name, f.expr) :: after ∧ Declares limit env before outs env' ∧
    (f.expr.infer env' limit).result = .error f.failure

section Declares
variable {limit : Option Nat} {env env' : Env} {decls : List (String × Expr)} {outs : List (String × List Scheme)}

theorem Env.lookup_extend (env : Env) (name x : String) (schemes : List Scheme) :
    (env.extend name schemes).lookup x = if x = name then some schemes else env.lookup x := by
  split
  · next h =>
    subst h
    exact findKey_insertKey_self _ _ _
  · next h => exact findKey_insertKey_of_ne h _ _

/-- A name that is not declared is what it was. -/
theorem Declares.lookup_of_not_mem (h : Declares limit env decls outs env') {x : String} (hx : x ∉ decls.map (·.1)) :
    env'.lookup x = env.lookup x := by
  induction h with
  | nil => rfl
  | @cons env env' name e schemes decls outs inferred rest ih =>
    rw [List.map_cons, List.mem_cons, not_or] at hx
    rw [ih hx.2, Env.lookup_extend, if_neg hx.1]

/-- Where no name is declared twice, the last environment has what was inferred for each. -/
theorem Declares.readBack (h : Declares limit env decls outs env') (hnames : (decls.map (·.1)).Nodup) :
    env'.readBack decls = outs := by
  induction h with
  | nil => rfl
  | @cons env env' name e schemes decls outs inferred rest ih =>
    obtain ⟨hname, hrest⟩ := List.nodup_cons.1 hnames
    have hlookup : env'.lookup name = some schemes := by
      rw [rest.lookup_of_not_mem hname, Env.lookup_extend, if_pos rfl]
    show (name, (env'.lookup name).getD []) :: env'.readBack decls = (name, schemes) :: outs
    rw [hlookup, ih hrest]
    rfl

theorem declare_ok_iff : (env.declare limit decls).result = .ok env' ↔ ∃ outs, Declares limit env decls outs env' := by
  induction decls generalizing env with
  | nil =>
    rw [Env.declare]
    constructor
    · rintro ⟨⟩
      exact ⟨[], .nil⟩
    · rintro ⟨outs, ⟨⟩⟩
      rfl
  | cons d decls ih =>
    obtain ⟨name, e⟩ := d
    rw [Env.declare]
    cases hinf : (e.infer env limit).result with
    | error failure =>
      constructor
      · rintro ⟨⟩
      · rintro ⟨outs, hd⟩
        cases hd with
        | cons inferred rest => cases hinf.symm.trans inferred
    | ok schemes =>
      refine ih.trans ⟨?_, ?_⟩
      · rintro ⟨outs, hd⟩
        exact ⟨_, .cons hinf hd⟩
      · rintro ⟨outs, hd⟩
        cases hd with
        | cons inferred rest =>
          cases hinf.symm.trans inferred
          exact ⟨_, rest⟩

theorem declare_error_iff {f : DeclFailure} :
    (env.declare limit decls).result = .error f ↔ FailsAt limit env decls f := by
  induction decls generalizing env with
  | nil =>
    rw [Env.declare]
    constructor
    · rintro ⟨⟩
    · rintro ⟨before, after, outs, env', hdecls, -⟩
      simp at hdecls
  | cons d decls ih =>
    obtain ⟨name, e⟩ := d
    rw [Env.declare]
    cases hinf : (e.infer env limit).result with
    | error failure =>
      constructor
      · rintro ⟨⟩
        exact ⟨[], decls, [], env, rfl, .nil, hinf⟩
      · rintro ⟨before, after, outs, env', hdecls, hbefore, hfailure⟩
        cases hbefore with
        | nil =>
          cases hdecls
          cases hinf.symm.trans hfailure
          rfl
        | cons inferred rest =>
          cases hdecls
          cases hinf.symm.trans inferred
    | ok schemes =>
      refine ih.trans ⟨?_, ?_⟩
      · rintro ⟨before, after, outs, env', rfl, hbefore, hfailure⟩
        exact ⟨_ :: before, after, _, env', rfl, .cons hinf hbefore, hfailure⟩
      · rintro ⟨before, after, outs, env', hdecls, hbefore, hfailure⟩
        cases hbefore with
        | nil =>
          cases hdecls
          cases hinf.symm.trans hfailure
        | cons inferred rest =>
          cases hdecls
          cases hinf.symm.trans inferred
          exact ⟨_, after, _, env', rfl, rest, hfailure⟩

/-- What stands after the first failure is not looked at. -/
theorem declare_append (h : Declares limit env decls outs env') {name : String} {e : Expr} {failure : Failure}
    (hfailure : (e.infer env' limit).result = .error failure) (after after' : List (String × Expr)) :
    env.declare limit (decls ++ (name, e) :: after) = env.declare limit (decls ++ (name, e) :: after') := by
  induction h with
  | nil => simp only [List.nil_append, Env.declare, hfailure]
  | cons inferred rest ih => simp only [List.cons_append, Env.declare, inferred, ih hfailure]

namespace Report

theorem result_eq (decls : List (String × Expr)) (env : Env) (limit : Option Nat) :
    (ofDeclarations decls env limit).result =
    ((env.declare limit decls).result.map fun env => (env, env.readBack decls)).mapError .untyped := rfl

theorem result_ok_iff : (ofDeclarations decls env limit).result = .ok (env', outs) ↔
    (env.declare limit decls).result = .ok env' ∧ outs = env'.readBack decls := by
  rw [result_eq]
  cases hresult : (env.declare limit decls).result with
  | error f => simp [Except.map, Except.mapError]
  | ok env₁ =>
    simp only [Except.map, Except.mapError, Except.ok.injEq, Prod.mk.injEq]
    constructor
    · rintro ⟨rfl, rfl⟩
      exact ⟨rfl, rfl⟩
    · rintro ⟨rfl, rfl⟩
      exact ⟨rfl, rfl⟩

theorem result_error_iff {fault : Fault} : (ofDeclarations decls env limit).result = .error fault ↔
    ∃ f, fault = .untyped f ∧ (env.declare limit decls).result = .error f := by
  rw [result_eq]
  cases hresult : (env.declare limit decls).result with
  | error f =>
    simp only [Except.map, Except.mapError, Except.error.injEq]
    constructor
    · rintro rfl
      exact ⟨f, rfl, rfl⟩
    · rintro ⟨f, rfl, rfl⟩
      rfl
  | ok env₁ => simp [Except.map, Except.mapError]

theorem ofDeclarations_append (h : Declares limit env decls outs env') {name : String} {e : Expr} {failure : Failure}
    (hfailure : (e.infer env' limit).result = .error failure) (after after' : List (String × Expr)) :
    ofDeclarations (decls ++ (name, e) :: after) env limit =
      ofDeclarations (decls ++ (name, e) :: after') env limit := by
  have hresult : (env.declare limit (decls ++ (name, e) :: after')).result = .error ⟨name, e, failure⟩ :=
    declare_error_iff.2 ⟨decls, after', outs, env', rfl, h, hfailure⟩
  simp only [ofDeclarations, declare_append h hfailure after after', hresult, Except.map]

end Report

end Declares

/-! ## Modules -/

theorem map_fst_of_mapM {statics : List (String × Binding Expr)} {decls : List (String × Expr)}
    (h : statics.mapM (fun s => s.2.expr?.map (s.1, ·)) = some decls) : decls.map (·.1) = statics.map (·.1) := by
  induction statics generalizing decls with
  | nil =>
    cases h
    rfl
  | cons s statics ih =>
    rw [List.mapM_cons] at h
    obtain ⟨d, hd, h⟩ := Option.bind_eq_some_iff.1 h
    obtain ⟨ds, hds, h⟩ := Option.bind_eq_some_iff.1 h
    obtain ⟨e, -, rfl⟩ := Option.map_eq_some_iff.1 hd
    cases h
    rw [List.map_cons, List.map_cons, ih hds]

/-- The declarations of a module are the names of its entry, each once. -/
theorem Module.nodup_declarations {source : String} {tree : Tree} {m : Module} {odd : List Oddity}
    (hm : Module.ofTree source tree = (m, odd)) {decls : List (String × Expr)} (hdecls : m.declarations? = some decls) :
    (decls.map (·.1)).Nodup := by
  unfold Module.declarations? at hdecls
  split at hdecls
  · next g hform =>
    split at hdecls
    · obtain ⟨cs, -, hmerges⟩ := (Module.tidy_entry hm).self.group g (by rw [hform]; rfl)
      rw [map_fst_of_mapM hdecls]
      exact hmerges.nodup
    · cases hdecls
  · cases hdecls

/-- The declarations of a lowered tree are reported in order, up to the first that fails. -/
theorem reported_declarations_ofTree {source : String} {tree : Tree} {m : Module} {odd : List Oddity}
    (hm : Module.ofTree source tree = (m, odd)) {decls : List (String × Expr)} (hdecls : m.declarations? = some decls)
    (env : Env) (limit : Option Nat) :
    (∀ env' outs,
      (Report.ofDeclarations decls env limit).result = .ok (env', outs) ↔ Declares limit env decls outs env') ∧
    (∀ env' outs, Declares limit env decls outs env' → ∀ x ∉ decls.map (·.1), env'.lookup x = env.lookup x) ∧
    (∀ fault, (Report.ofDeclarations decls env limit).result = .error fault ↔
      ∃ f, fault = .untyped f ∧ FailsAt limit env decls f) ∧
    ∀ before name e after outs env' failure, decls = before ++ (name, e) :: after →
      Declares limit env before outs env' →
      (e.infer env' limit).result = .error failure → ∀ after',
        Report.ofDeclarations decls env limit = Report.ofDeclarations (before ++ (name, e) :: after') env limit := by
  have hnames := Module.nodup_declarations hm hdecls
  refine ⟨fun env' outs => ?_, fun env' outs hd x hx => hd.lookup_of_not_mem hx, fun fault => ?_, ?_⟩
  · rw [Report.result_ok_iff]
    constructor
    · rintro ⟨hresult, rfl⟩
      obtain ⟨outs', hd⟩ := declare_ok_iff.1 hresult
      rwa [hd.readBack hnames]
    · exact fun hd => ⟨declare_ok_iff.2 ⟨outs, hd⟩, (hd.readBack hnames).symm⟩
  · rw [Report.result_error_iff]
    simp only [declare_error_iff]
  · rintro before name e after outs env' failure rfl hbefore hfailure after'
    exact Report.ofDeclarations_append hbefore hfailure after after'

section Module
variable {text : String} {m : Module} {odd : List Oddity} (h : Module.ofText? text = some (m, odd))
  {decls : List (String × Expr)} (hdecls : m.declarations? = some decls)
include h hdecls

theorem Report.ofText_eq (path : String) (env : Env) (limit : Option Nat) : Report.ofText path text env limit =
    ⟨(Report.ofDeclarations decls env limit).result,
      odd.map Oddity.message ++ (Report.ofDeclarations decls env limit).warnings⟩ := by
  unfold Report.ofText Report.declarations
  rw [h]
  simp only [hdecls, Option.getD_some]

/-- A check reports, in order, each declaration of a module with the schemes that were inferred for it in its turn, and
the environment with all of them, which has nothing else new; or the first declaration that fails, with its expression
and its failure, whatever comes after it. -/
theorem reported_declarations (path : String) (env : Env) (limit : Option Nat) :
    (∀ env' outs, (Report.ofText path text env limit).result = .ok (env', outs) ↔ Declares limit env decls outs env') ∧
    (∀ env' outs, Declares limit env decls outs env' → ∀ x ∉ decls.map (·.1), env'.lookup x = env.lookup x) ∧
    (∀ fault, (Report.ofText path text env limit).result = .error fault ↔
      ∃ f, fault = .untyped f ∧ FailsAt limit env decls f) ∧
    ∀ before name e after outs env' failure, decls = before ++ (name, e) :: after →
      Declares limit env before outs env' →
      (e.infer env' limit).result = .error failure → ∀ after', Report.ofText path text env limit =
        ⟨(Report.ofDeclarations (before ++ (name, e) :: after') env limit).result,
          odd.map Oddity.message ++ (Report.ofDeclarations (before ++ (name, e) :: after') env limit).warnings⟩ := by
  obtain ⟨tree, -, hm⟩ := Module.exists_tree h
  obtain ⟨hok, hrest, herror, hfirst⟩ := reported_declarations_ofTree hm hdecls env limit
  rw [Report.ofText_eq h hdecls path]
  refine ⟨hok, hrest, herror, ?_⟩
  intro before name e after outs env' failure heq hbefore hfailure after'
  rw [hfirst before name e after outs env' failure heq hbefore hfailure after']

end Module

/-- The declarations of `{ b = 1; a.c = b; b = 2; }`. -/
def pathAfterName : List (String × Expr) := [("b", .mk 0 (some ⟨6, 7⟩) (.literal (.int 1))),
  ("a", .mk 2 none (.set false ⟨[("c", .expr (.mk 1 (some ⟨15, 16⟩) (.ref "b")))], [], []⟩))]

def moduleAfterName : Module where
  entry := .mk 3 (some ⟨0, 26⟩) (.set false ⟨pathAfterName.map fun d => (d.1, .expr d.2), [], []⟩)
  count := 4

/-- The second declaration is inferred with the first, which is not declared again. -/
theorem reported_declarations_path :
    Module.ofText? "\x7b b = 1; a.c = b; b = 2; \x7d" = some (moduleAfterName, [.duplicate "b" ⟨18, 19⟩]) ∧
    moduleAfterName.declarations? = some pathAfterName ∧
    (Report.ofText "set.nix" "\x7b b = 1; a.c = b; b = 2; \x7d" ⟨[]⟩ none).result = .ok
      (⟨[("a", [⟨[], .record [("c", .int)] false⟩]), ("b", [⟨[], .int⟩])]⟩,
        [("b", [⟨[], .int⟩]), ("a", [⟨[], .record [("c", .int)] false⟩])]) := by
  have htext : Module.ofText? "\x7b b = 1; a.c = b; b = 2; \x7d" =
      some (moduleAfterName, [.duplicate "b" ⟨18, 19⟩]) := by cbv
  have hdecls : moduleAfterName.declarations? = some pathAfterName := by cbv
  refine ⟨htext, hdecls, ((reported_declarations htext hdecls "set.nix" ⟨[]⟩ none).1 _ _).2 ?_⟩
  exact .cons (by cbv) (.cons (by cbv) .nil)

end NixTyping
