import Mathlib
import NixTyping.Proofs.ChartedWalk
import NixTyping.Proofs.ComparedWalks
import NixTyping.Proofs.Lowered
import NixTyping.Proofs.ParallelSearch
import NixTyping.Proofs.TotalJudgment
import NixTyping.Proofs.UnboundNames
/-!
# Wrapped expressions

To give an expression a name and to ask for the name at once changes nothing: in a
`let`, as the attribute of a set, and as the attribute of a set that is opened.

In the sets the judgment is that of the expression. In the `let` all variables are
shifted by one, and the variable that came first is to be an instance of the type of the
expression; the search for this is the one in `ParallelSearch`.
-/

namespace NixTyping

open Judging Judging.Adequate Search Function

/-! ## Environments -/

/-- The overload sets in the schemes are well formed. -/
def Env.WellFormed (env : Env) : Prop := ∀ name schemes, env.lookup name = some schemes → ∀ σ ∈ schemes, σ.ty.WellFormed

section Regular
variable {env : Env} {k : Nat}

theorem Env.Offers.wellFormed (henv : env.WellFormed) {vars : List Nat} {t : Ty} (h : env.Offers vars t) :
    t.WellFormed := by
  induction h with
  | scheme bound mem => exact henv _ _ bound _ mem
  | field _ mem ih => exact Ty.wellFormed_record.1 ih _ mem
  | record _ ih => exact .record ih

theorem Env.Offers.quantified (henv : env.Closed) {vars : List Nat} {t : Ty} (h : env.Offers vars t) :
    ∀ v ∈ t.free, v ∈ vars := by
  induction h with
  | scheme bound mem =>
    intro v hv
    by_contra hnot
    exact henv _ _ bound _ mem v (Scheme.mem_free.2 ⟨hv, hnot⟩)
  | field _ mem ih => exact fun v hv => ih v (Ty.mem_free_record.2 ⟨_, mem, hv⟩)
  | record _ ih =>
    intro v hv
    obtain ⟨f, hf, hv⟩ := Ty.mem_free_record.1 hv
    exact ih f hf v hv

theorem Env.Offers.closed (henv : env.Closed) {σ : Scheme} (h : env.Offers σ.vars σ.ty) : ∀ v, v ∉ σ.free := by
  intro v hv
  obtain ⟨hfree, hvars⟩ := Scheme.mem_free.1 hv
  exact hvars (h.quantified henv v hfree)

theorem Constraint.Issued.regular (hclosed : env.Closed) (hwf : env.WellFormed) {c : Constraint} (h : c.Issued env k) :
    c.Regular := by
  cases h with
  | eq left right => exact ⟨left.1.wellFormed, right.1.wellFormed⟩
  | operator applied signature => exact ⟨applied.1.wellFormed, signature.wellFormed⟩
  | explicit ty offered => exact ⟨ty.1.wellFormed, offered.wellFormed hwf, offered.closed hclosed⟩
  | implicit ty mono bound => exact ⟨ty.1.wellFormed, bound.1.wellFormed⟩

theorem Constraint.Issued.lt_of_sees (hclosed : env.Closed) {c : Constraint} (h : c.Issued env k) {v : Nat}
    (hv : c.Sees v) : v < k := by
  cases h with
  | eq left right =>
    rcases hv with (hv | hv) | hv
    · exact left.2 v hv
    · exact right.2 v hv
    · exact absurd hv VarSet.mem_empty
  | operator applied signature =>
    rcases hv with (hv | hv) | hv
    · exact applied.2 v hv
    · exact absurd hv (signature.closed v)
    · exact absurd hv VarSet.mem_empty
  | explicit ty offered =>
    rcases hv with (hv | hv) | hv
    · exact ty.2 v hv
    · exact absurd hv (offered.closed hclosed v)
    · exact absurd hv VarSet.mem_empty
  | implicit ty mono bound =>
    rcases hv with (hv | hv) | hv
    · exact ty.2 v hv
    · exact bound.2 v hv
    · exact mono v hv

/-- What the search of `ParallelSearch` asks of a constraint when `k` variables are issued. -/
def Constraint.Ready (k : Nat) (c : Constraint) : Prop := c.Regular ∧ ∀ v, c.Sees v → v < k

theorem Constraint.Issued.ready (hclosed : env.Closed) (hwf : env.WellFormed) {c : Constraint} (h : c.Issued env k) :
    c.Ready k :=
  ⟨h.regular hclosed hwf, fun _ => h.lt_of_sees hclosed⟩

end Regular

theorem Env.instances_rename (env : Env) (ρ : Nat → Nat) (a : Assumptions) :
    env.instances (a.rename ρ) = (env.instances a).map (·.rename ρ) := by
  simp only [Env.instances, Assumptions.rename, List.flatMap_map, List.map_flatMap, List.map_map]
  rfl

theorem Env.unbound_rename (env : Env) (ρ : Nat → Nat) (a : Assumptions) :
    env.unbound (a.rename ρ) = env.unbound a := by
  simp only [Env.unbound, Assumptions.keys, Assumptions.rename, List.map_map]
  rfl

/-! ## Judgments -/

section Judge
variable {e : Expr} {env : Env} {J : Judgment} {s t : State} {x : String} {n k : Nat}

theorem Expr.mem_mentioned_of_mem_all {p : Expr} (hp : p ∈ e.all) (hx : p.form = .ref x) : x ∈ e.mentioned := by
  induction e using Expr.parts_induction with
  | _ e ih =>
  rcases mem_all.1 hp with rfl | ⟨q, hq, hp⟩
  · rw [mentioned, hx]
    exact List.mem_append_left _ (List.mem_singleton.2 rfl)
  · exact mem_mentioned_of_part hq (ih q hq hp)

theorem Env.lookup_eq_relabel_id (env : Env) (x : String) :
    env.lookup x = (env.lookup x).map (List.map (·.relabel id)) := by
  simp

/-- Runs of a greater depth judge an expression alike. -/
theorem Expr.judge_deeper (h : e.judge env = .ok (J, t)) (hn : depthOf e ≤ n) :
    ∃ t', Runs (runTo env n {} (.expr e)) {} J t' ∧ t'.next = t.next := by
  obtain ⟨t', hrun, hnext, -, hissued⟩ :=
    Base.start.exists_runs _ (fun _ _ x _ => ⟨rfl, env.lookup_eq_relabel_id x⟩) hn h
  rw [hissued.rename_eq_self (ρ := Base.start.var) fun _ => rfl, Judgment.relabelSchemes_id] at hrun
  exact ⟨t', hrun, hnext⟩

/-- The expression is judged and told of. -/
theorem runs_expr {ctx : Context} (h : Runs (expression env (runTo env n) ctx e.form) s J t) :
    Runs (runTo env (n + 1) ctx (.expr e)) s J { t with history := .judged ctx e J :: t.history } :=
  h.bind ((runs_modify _ t).bind (runs_pure J _))

/-- A use of a binding, given how its slot is judged. A record is remembered, and nothing else changes. -/
theorem exists_runs_letBound {run : Runner} {ctx : Context} {i : Nat} (mono : VarSet)
    (h : Runs (run ctx (.force i)) { s with next := s.next + 1 } J t) :
    ∃ t', Runs (letBound run ctx i mono) s (s.next, J.ty) t' ∧ t'.next = t.next ∧ t'.slots = t.slots := by
  cases hty : J.ty with
  | record fields isOpen =>
    refine ⟨{ t with known := (s.next, ⟨fields, .letBound mono⟩) :: t.known }, (runs_fresh s).bind (h.bind ?_), rfl,
      rfl⟩
    rw [hty]
    exact runs_pure _ _
  | var | prim | list | fn | overload =>
    refine ⟨t, (runs_fresh s).bind (h.bind ?_), rfl, rfl⟩
    rw [hty]
    exact runs_pure _ _

/-- The state in which the definition of a `let` is judged that asks for its name at once. -/
def letState (x : String) (e : Expr) : State :=
  let s := (State.told {} {} x e).push (.deferred ⟨[groupScope {} x e 0], ∅, .expr e⟩)
  State.put { s with next := s.next + 1 } 0 .forcing

def letBase (x : String) (e : Expr) : Base where
  state := letState x e
  scopes := [groupScope {} x e 0]
  forcing := [0]
  opensNothing := by
    intro sc hsc
    obtain rfl := List.mem_singleton.1 hsc
    rfl
  live := by
    intro i hi
    obtain rfl := List.mem_singleton.1 hi
    exact Nat.one_pos
  known := by rintro r ⟨⟩

theorem lexicalIn_letBase (hx : x ∉ e.mentioned) {p : Expr} (hp : p ∈ e.all) {y : String} (hy : p.form = .ref y) :
    lexicalIn (letBase x e).scopes y = none := by
  have hne : y ≠ x := by
    rintro rfl
    exact hx (Expr.mem_mentioned_of_mem_all hp hy)
  simp [letBase, lexicalIn, groupScope, Scope.lexical?, hne]

/-- The judgment of a `let` that asks for its name at once, where `J` is that of its definition: the variables are
shifted, and the first is an instance of the type. -/
def Judgment.asked (J : Judgment) : Judgment where
  assumptions := J.assumptions.rename (· + 1)
  constraints := J.constraints.map (·.rename (· + 1)) ++ [.implicit (.var 0) ∅ (J.ty.rename (· + 1))]
  ty := .var 0

theorem letIn_reference (x : String) (J : Judgment) :
    Judgment.letIn [(x, J.ty.rename (· + 1))] ([J.rename (· + 1)] ++ []) (.reference x (.var 0)) ∅ = J.asked := by
  simp [Judgment.letIn, Judgment.reference, Judgment.asked, Judgment.rename, Assumptions.single, Assumptions.removeAll,
    Assumptions.remove, Assumptions.lookup, Assumptions.rename]

theorem exists_runs_letIn {body : Expr} (hbody : body.form = .ref x) (hx : x ∉ e.mentioned)
    (h : e.judge env = .ok (J, t)) (hn : depthOf e ≤ n) :
    ∃ t', Runs (letIn (runTo env (n + 2)) {} ⟨[(x, .expr e)], [], []⟩ body) {} J.asked t' ∧ t'.next = t.next + 1 := by
  obtain ⟨u, hdef, hshift, hkept, -⟩ := (letBase x e).exists_runs _
    (fun _ hp y hy => ⟨lexicalIn_letBase hx hp hy, env.lookup_eq_relabel_id y⟩) hn h
  rw [Judgment.relabelSchemes_id] at hdef
  have hbusy : u.slot? 0 = some .forcing := hkept 0 Nat.one_pos
  let s₁ := (State.told {} {} x e).push (.deferred ⟨[groupScope {} x e 0], ∅, .expr e⟩)
  let ctx : Context := .enter {} (.letBody [(x, 0)] ∅)
  -- the name is asked for, so the definition is judged, when one variable is issued
  have hforce : Runs (runTo env (n + 1) ctx (.force 0)) { s₁ with next := s₁.next + 1 } (J.rename (· + 1))
      (u.put 0 (.forced (J.rename (· + 1)))) :=
    runs_force_deferred rfl hdef hbusy
  obtain ⟨t₁, hbound, hnext, hslots⟩ := exists_runs_letBound ∅ hforce
  have hlexical : ctx.lexical? x = some (.letBody 0 ∅) := by simp [ctx, Context.lexical?, Context.enter, Scope.lexical?]
  have href : Runs (expression env (runTo env (n + 1)) ctx body.form) s₁ (.reference x (.var 0)) t₁ := by
    rw [hbody]
    show Runs (reference env (runTo env (n + 1)) ctx x) s₁ _ t₁
    unfold reference
    rw [hlexical]
    exact hbound.bind (runs_pure _ _)
  let t₂ : State := { t₁ with history := .judged ctx body (.reference x (.var 0)) :: t₁.history }
  have hname : Runs (runTo env (n + 2) ctx (.expr body)) s₁ (.reference x (.var 0)) t₂ := runs_expr href
  have hslot : t₂.slot? 0 = some (.forced (J.rename (· + 1))) := by
    have hput : t₂.slot? 0 = (u.put 0 (.forced (J.rename (· + 1)))).slot? 0 :=
      congrArg (fun slots : Slots Pending Judgment => slots.slots[0]?) hslots
    rw [hput]
    exact State.slot?_put_self (State.lt_size hbusy) _
  have hagain : Runs (runTo env (n + 2) {} (.force 0)) t₂ (J.rename (· + 1)) t₂ := runs_force_forced hslot
  have hgroup := runs_forceGroup (x := x) (groupScope {} x e 0) hagain
  refine ⟨t₂, ?_, hnext.trans hshift⟩
  rw [← letIn_reference x J]
  exact (runs_deferGroup {} x e {}).bind ((runs_pure [] _).bind (hname.bind (hgroup.bind (runs_pure _ _))))

/-- The judgment of a set with the expression as its attribute. -/
def Judgment.field (x : String) (J : Judgment) : Judgment := { J with ty := .record [(x, J.ty)] false }

theorem exists_runs_set {set : Expr} (hform : set.form = .set false ⟨[(x, .expr e)], [], []⟩)
    (h : e.judge env = .ok (J, t)) (hn : depthOf e ≤ n) :
    ∃ t', Runs (runTo env (n + 1) {} (.expr set)) {} (J.field x) t' ∧ t'.next = t.next := by
  obtain ⟨t₁, hrun, hnext⟩ := Expr.judge_deeper h hn
  have hset : Judgment.set [(x, J)] ([] ++ []) (!([] : List (Expr × Expr)).isEmpty) = J.field x := by
    simp [Judgment.set, Judgment.merged, Judgment.field, Ty.ofFields, sortKeys, insertKey]
  have hplain : Runs (expression env (runTo env n) {} set.form) {} (J.field x) t₁ := by
    rw [← hset, hform]
    exact (runs_pure [] _).bind ((runs_mapM_singleton (hrun.bind (runs_pure (x, J) _))).bind
      ((runs_pure [] _).bind (runs_pure _ _)))
  exact ⟨_, runs_expr hplain, hnext⟩

/-- The expression as it was, after the set is judged. -/
theorem merged_field (x : String) (J : Judgment) : Judgment.merged [J.field x, .ofTy J.ty] J.ty = J := by
  have hnone : (∅ : Assumptions).entries = [] := rfl
  simp [Judgment.merged, Judgment.field, Judgment.ofTy, hnone]

theorem exists_runs_select {set path : Expr}
    (hset : ∃ t', Runs (runTo env n {} (.expr set)) {} (J.field x) t' ∧ t'.next = k)
    (hpath : path.form = .literal (.string x)) :
    ∃ t', Runs (select (runTo env n) {} set [path] none) {} J t' ∧ t'.next = k := by
  obtain ⟨t', hrun, hnext⟩ := hset
  have hstep : Runs (selectPath (runTo env n) {} (some (.record [(x, J.ty)] false)) [path]) t' (some J.ty, []) t' := by
    have hfound : Runs (selectStep (runTo env n) {} (some (.record [(x, J.ty)] false)) path) t' (some J.ty, []) t' := by
      simp only [selectStep, stepName?, hpath, findKey]
      exact runs_pure _ _
    exact hfound.bind ((runs_pure _ _).bind (runs_pure _ _))
  refine ⟨t', ?_, hnext⟩
  rw [← merged_field x J]
  exact hrun.bind ((runs_pure (some (KnownRecord.mk [(x, J.ty)] .here)) t').bind (hstep.bind ((runs_pure none t').bind
    ((runs_pure (Judgment.ofTy J.ty) t').bind (runs_pure _ _)))))

theorem exists_runs_with {set body : Expr}
    (hset : ∃ t', Runs (runTo env (n + 1) {} (.expr set)) {} (J.field x) t' ∧ t'.next = k)
    (hbody : body.form = .ref x) (hx : env.lookup x = none) (hconst : constant? x = none) :
    ∃ t', Runs (expression env (runTo env (n + 1)) {} (.withIn set body)) {} J t' ∧ t'.next = k := by
  obtain ⟨t', hrun, hnext⟩ := hset
  let record : KnownRecord := ⟨[(x, J.ty)], .here⟩
  let ctx : Context := .enter {} (.withIn (some record))
  have hopened : Runs (openedName ctx x) t' (.ofTy J.ty) t' := by
    have hfound : ctx.opened.findSome? (openedField x) = some (J.ty, .here) := by
      simp [ctx, record, Context.opened, Context.enter, Scope.with?, openedField, findKey]
    rw [openedName_of_found hfound]
    exact runs_pure _ _
  have href : Runs (reference env (runTo env n) ctx x) t' (.ofTy J.ty) t' := by
    have hlexical : ctx.lexical? x = none := rfl
    unfold reference
    rw [hlexical, hconst, hx]
    exact hopened
  have hname : Runs (expression env (runTo env n) ctx body.form) t' (.ofTy J.ty) t' := by
    rw [hbody]
    exact href
  refine ⟨{ t' with history := .judged ctx body (.ofTy J.ty) :: t'.history }, ?_, hnext⟩
  rw [← merged_field x J]
  exact hrun.bind ((runs_pure (some record) t').bind ((runs_expr hname).bind (runs_pure _ _)))

end Judge

/-! ## Wrappers -/

/-- The expression, bound to a name that is asked for at once. -/
inductive Wraps (x : String) (e : Expr) : Expr → Prop where
  | letIn {w body : Expr} (form : w.form = .letIn ⟨[(x, .expr e)], [], []⟩ body) (name : body.form = .ref x) :
    Wraps x e w
  | select {w set path : Expr} (form : w.form = .select set [path] none)
    (field : set.form = .set false ⟨[(x, .expr e)], [], []⟩) (name : path.form = .literal (.string x)) : Wraps x e w
  | withIn {w set body : Expr} (form : w.form = .withIn set body)
    (field : set.form = .set false ⟨[(x, .expr e)], [], []⟩) (name : body.form = .ref x) : Wraps x e w

section Wraps
variable {e w : Expr} {env : Env} {J : Judgment} {t : State} {x : String}

theorem Expr.length_all_of_mem_parts {p : Expr} (hp : p ∈ e.parts) : p.all.length < e.all.length := by
  have hle :=
    List.single_le_sum (fun _ _ => Nat.zero_le _) _ (List.mem_map_of_mem (f := fun p : Expr => p.all.length) hp)
  rw [e.length_all]
  omega

theorem Wraps.depth (hw : Wraps x e w) : depthOf e + 3 ≤ depthOf w := by
  have hset : ∀ {set : Expr}, set.form = .set false ⟨[(x, .expr e)], [], []⟩ → e ∈ set.parts := by
    intro set hset
    simp [Expr.parts, hset, Form.parts, Bindings.parts, Binding.expr?]
  have hlength : e.all.length < w.all.length := by
    cases hw with
    | letIn form =>
      refine Expr.length_all_of_mem_parts ?_
      simp [Expr.parts, form, Form.parts, Bindings.parts, Binding.expr?]
    | select form field =>
      refine (Expr.length_all_of_mem_parts (hset field)).trans (Expr.length_all_of_mem_parts ?_)
      simp [Expr.parts, form, Form.parts]
    | withIn form field =>
      refine (Expr.length_all_of_mem_parts (hset field)).trans (Expr.length_all_of_mem_parts ?_)
      simp [Expr.parts, form, Form.parts]
  simp only [depthOf]
  omega

/-- What is judged: the same, or the same asked for by a variable. -/
theorem Wraps.judge (hw : Wraps x e w) (hx : x ∉ e.mentioned) (henv : env.lookup x = none)
    (hconst : constant? x = none) (h : e.judge env = .ok (J, t)) :
    ∃ J' t', w.judge env = .ok (J', t') ∧ (J' = J ∧ t'.next = t.next ∨ J' = J.asked ∧ t'.next = t.next + 1) := by
  obtain ⟨n, hdepth⟩ := Nat.exists_eq_add_of_le' hw.depth
  have hn : depthOf e ≤ n + depthOf e := Nat.le_add_left _ _
  have hjudge : ∀ {K : Judgment} {u : State}, Runs (expression env (runTo env (n + depthOf e + 2)) {} w.form) {} K u →
      w.judge env = .ok (K, { u with history := .judged {} w K :: u.history }) := by
    intro K u hrun
    rw [Expr.judge, hdepth]
    exact runs_expr hrun
  cases hw with
  | letIn form name =>
    obtain ⟨u, hrun, hnext⟩ := exists_runs_letIn name hx h hn
    exact ⟨J.asked, _, hjudge (by rw [form]; exact hrun), .inr ⟨rfl, hnext⟩⟩
  | select form field name =>
    obtain ⟨u, hrun, hnext⟩ := exists_runs_select (exists_runs_set field h (Nat.le_succ_of_le hn)) name
    exact ⟨J, _, hjudge (by rw [form]; exact hrun), .inl ⟨rfl, hnext⟩⟩
  | withIn form field name =>
    obtain ⟨u, hrun, hnext⟩ := exists_runs_with (exists_runs_set field h (Nat.le_succ_of_le hn)) name henv hconst
    exact ⟨J, _, hjudge (by rw [form]; exact hrun), .inl ⟨rfl, hnext⟩⟩

/-- The two lists of constraints, at the start of the search. -/
theorem Judgment.Issued.twins (hclosed : env.Closed) (hwf : env.WellFormed) {k : Nat} (h : J.Issued env k) :
    TwinsBy J.ty 0 (· + 1) k (k + 1) J.constraints (env.instances J.assumptions)
      [.implicit (.var 0) ∅ (J.ty.rename (· + 1))] ⟨∅, J.constraints ++ env.instances J.assumptions⟩
      ⟨∅, J.asked.constraints ++ env.instances J.asked.assumptions⟩ := by
  have hknown : ∀ v, v < k → Known 0 (· + 1) k (k + 1) v := fun v hv => ⟨hv, Nat.succ_lt_succ hv, Nat.succ_ne_zero v⟩
  have hready := fun c hc => (h.posed c hc).ready hclosed hwf
  refine ⟨rfl, ?_, fun _ _ => Nat.succ.inj, h.ty.1.wellFormed, Nat.succ_pos k, fun c hc => (hready c hc).1,
    Subst.all_empty, Subst.all_empty, fun c hc v hv => hknown v ((hready c hc).2 v hv), ?_⟩
  · rw [Judgment.asked, env.instances_rename]
  · exact .waiting rfl fun v hv => hknown v (h.ty.2 v hv)

end Wraps

/-- An expression of a lowered tree has the same schemes when it is bound to a name and that name is read. -/
theorem wrapped_schemes_ofTree {source : String} {tree : Tree} {m : Module} {odd : List Oddity}
    (hm : Module.ofTree source tree = (m, odd)) {e : Expr} (he : e ∈ m.exprs) {env : Env} (hclosed : env.Closed)
    (hwf : env.WellFormed) {x : String} (hx : x ∉ e.mentioned) (hbound : env.lookup x = none)
    (hconst : x ∉ ["true", "false", "null"]) {w : Expr} (hw : Wraps x e w) :
    (∀ schemes, (w.infer env none).result = .ok schemes ↔ (e.infer env none).result = .ok schemes) ∧
      ((∃ failure, (w.infer env none).result = .error failure) ↔ ∃ failure,
        (e.infer env none).result = .error failure) := by
  have hsourced := Module.sourced_of_mem hm he
  obtain ⟨J, t, hjudge, -⟩ := e.judge_total hsourced env
  obtain ⟨J', t', hjudge', hsame⟩ := hw.judge hx hbound (constant?_eq_none.2 hconst) hjudge
  have hschemes : ∀ schemes, (w.infer env none).result = .ok schemes ↔ (e.infer env none).result = .ok schemes := by
    intro schemes
    rw [Expr.infer_eq_ok_iff hjudge, Expr.infer_eq_ok_iff hjudge']
    rcases hsame with ⟨rfl, hnext⟩ | ⟨rfl, hnext⟩
    · rw [hnext]
    · have htwins := (Expr.judge_issued hjudge).twins hclosed hwf
      rw [hnext, htwins.closeOver_solve, show J.asked.assumptions = J.assumptions.rename (· + 1) from rfl,
        env.unbound_rename]
      rfl
  refine ⟨hschemes, ?_⟩
  cases hw' : (w.infer env none).result with
  | ok schemes => simp [(hschemes schemes).1 hw']
  | error failure =>
    cases he' : (e.infer env none).result with
    | ok schemes =>
      rw [(hschemes schemes).2 he'] at hw'
      cases hw'
    | error failure' => simp

/-- For an expression of a module, in an environment of closed schemes with well formed overload sets, and a name
that the expression does not mention, that the environment does not bind and that is no constant:
`let x = e; in x`, `{ x = e; }.x` and `with { x = e; }; x` have the schemes of the expression, in the same order,
and fail when it fails. -/
theorem wrapped_schemes {text : String} {m : Module} {odd : List Oddity} (htext : Module.ofText? text = some (m, odd))
    {e : Expr} (he : e ∈ m.exprs) {env : Env} (hclosed : env.Closed) (hwf : env.WellFormed) {x : String}
    (hx : x ∉ e.mentioned) (hbound : env.lookup x = none) (hconst : x ∉ ["true", "false", "null"]) {w : Expr}
    (hw : Wraps x e w) :
    (∀ schemes, (w.infer env none).result = .ok schemes ↔ (e.infer env none).result = .ok schemes) ∧
      ((∃ failure, (w.infer env none).result = .error failure) ↔ ∃ failure,
        (e.infer env none).result = .error failure) := by
  obtain ⟨tree, -, hm⟩ := Module.exists_tree htext
  exact wrapped_schemes_ofTree hm he hclosed hwf hx hbound hconst hw

/-- A function that is overloaded and one that is polymorphic. -/
def pairOfFunctions : Expr := .mk 7 (some ⟨8, 35⟩) (.set false ⟨[
  ("f", .expr (.mk 4 (some ⟨14, 22⟩) (.lambda (.name "y") (.mk 3 (some ⟨17, 22⟩) (.unary .negate (.mk 2 (some ⟨18, 22⟩)
    (.apply (.mk 0 (some ⟨18, 20⟩) (.ref "id")) (.mk 1 (some ⟨21, 22⟩) (.ref "y"))))))))),
  ("i", .expr (.mk 6 (some ⟨28, 32⟩) (.lambda (.name "z") (.mk 5 (some ⟨31, 32⟩) (.ref "z")))))], [], []⟩)

/-- The module of `let x = { f = y: -id y; i = z: z; }; in x`. -/
def namedPair : Module where
  entry := .mk 9 (some ⟨0, 41⟩) (.letIn ⟨[("x", .expr pairOfFunctions)], [], []⟩ (.mk 8 (some ⟨40, 41⟩) (.ref "x")))
  count := 10

def withIdentity : Env := ⟨[("id", [⟨[0], .fn (.var 0) (.var 0)⟩])]⟩

def schemesOfPair : List Scheme :=
  [⟨[0], .record [("f", .fn .int .int), ("i", .fn (.var 0) (.var 0))] false⟩,
    ⟨[0], .record [("f", .fn .float .float), ("i", .fn (.var 0) (.var 0))] false⟩]

theorem mem_of_lookup_withIdentity {name : String} {schemes : List Scheme} (h : withIdentity.lookup name = some schemes)
    {σ : Scheme} (hσ : σ ∈ schemes) : σ = ⟨[0], .fn (.var 0) (.var 0)⟩ := by
  unfold withIdentity Env.lookup findKey at h
  split at h
  · obtain rfl := Option.some.inj h
    exact List.mem_singleton.1 hσ
  · cases h

/-- The name of a record, where there are two schemes with a variable. -/
theorem wrapped_schemes_named_pair :
    Module.ofText? "let x = \x7b f = y: -id y; i = z: z; \x7d; in x" = some (namedPair, []) ∧
      pairOfFunctions ∈ namedPair.exprs ∧
    withIdentity.Closed ∧ withIdentity.WellFormed ∧ "x" ∉ pairOfFunctions.mentioned ∧ withIdentity.lookup "x" = none ∧
    Wraps "x" pairOfFunctions namedPair.entry ∧
      (namedPair.entry.infer withIdentity none).result = .ok schemesOfPair := by
  have hx : "x" ∉ pairOfFunctions.mentioned := by decide_cbv
  have hbound : withIdentity.lookup "x" = none := by cbv
  have hresult : (pairOfFunctions.infer withIdentity none).result = .ok schemesOfPair := by cbv
  have htext : Module.ofText? "let x = \x7b f = y: -id y; i = z: z; \x7d; in x" = some (namedPair, []) := by cbv
  have he : pairOfFunctions ∈ namedPair.exprs := by
    refine List.mem_mergeSort.2 (Expr.mem_all.2 (.inr ⟨pairOfFunctions, ?_, Expr.mem_all.2 (.inl rfl)⟩))
    simp [namedPair, Expr.parts, Expr.form, Form.parts, Bindings.parts, Binding.expr?]
  have hclosed : withIdentity.Closed := by
    rintro name schemes hlookup σ hσ v hv
    rw [mem_of_lookup_withIdentity hlookup hσ] at hv
    simp [Scheme.mem_free] at hv
  have hwf : withIdentity.WellFormed := by
    rintro name schemes hlookup σ hσ
    rw [mem_of_lookup_withIdentity hlookup hσ]
    exact .fn (.var 0) (.var 0)
  have hw : Wraps "x" pairOfFunctions namedPair.entry := .letIn rfl rfl
  exact ⟨htext, he, hclosed, hwf, hx, hbound, hw,
    ((wrapped_schemes htext he hclosed hwf hx hbound (by decide) hw).1 schemesOfPair).2 hresult⟩

end NixTyping
