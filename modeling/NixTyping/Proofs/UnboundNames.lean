import Mathlib
import NixTyping.Infer
import NixTyping.Proofs.Ambiguity
import NixTyping.Proofs.Lowered
import NixTyping.Proofs.TotalJudgment
/-!
# Names that nothing binds

A name is resolved in one of three places: by the scopes around it while a walk goes
on, by the binder that takes its assumptions out of a judgment, or by the environment
in the end. `Expr.free` says without any of them which names an expression uses and
does not bind, and `Shows` ties it to the assumptions of judgments: under scopes that
leave a name alone it is assumed just if it is free. So the names that inference
reports as unbound are those that are free, no constants, and not in the environment
(`unbound_names_reported`).
-/

namespace NixTyping

open Judging

/-! ## Free names -/

/-- The expression behind a binding, with those of the names of its group that it
sees. One that is taken from outside the group sees none. -/
def Binding.site? {α : Type} (names : List String) : Binding α → Option (List String × α)
  | .expr e => some (names, e)
  | .inherit e => some ([], e)
  | .inheritFrom _ => none

def Bindings.sites {α : Type} (b : Bindings α) : List (List String × α) :=
  b.statics.filterMap (fun s => s.2.site? b.names) ++ (b.sources ++ b.computed).map (b.names, ·)

theorem Bindings.exists_sites {α : Type} {b : Bindings α} {P : List String × α → Prop} :
    (∃ p ∈ b.sites, P p) ↔ (∃ s ∈ b.statics, ∃ p, s.2.site? b.names = some p ∧ P p) ∨
      (∃ e ∈ b.sources, P (b.names, e)) ∨ ∃ e ∈ b.computed, P (b.names, e) := by
  simp only [sites, List.mem_append, or_and_right, exists_or, List.map_append]
  refine or_congr ?_ (or_congr ?_ ?_)
  · constructor
    · rintro ⟨p, hp, hP⟩
      obtain ⟨s, hs, hp⟩ := List.mem_filterMap.1 hp
      exact ⟨s, hs, p, hp, hP⟩
    · rintro ⟨s, hs, p, hp, hP⟩
      exact ⟨p, List.mem_filterMap.2 ⟨s, hs, hp⟩, hP⟩
  · simp
  · simp

/-- The parts of a form, each with the names that the form binds in it. The body of a
`with` is left out: any name in it may be a field of what is opened. -/
def Form.sites {α : Type} : Form α → List (List String × α)
  | .lambda param body => (param.defaults ++ [body]).map (param.names, ·)
  | .letIn g body => g.sites ++ [(g.names, body)]
  | .set true g => g.sites
  | .withIn scope _ => [([], scope)]
  | f => f.parts.map ([], ·)

theorem Bindings.mem_parts_of_site {α : Type} {b : Bindings α} {p : List String × α} (h : p ∈ b.sites) :
    p.2 ∈ b.parts := by
  rcases List.mem_append.1 h with h | h
  · obtain ⟨⟨name, s⟩, hs, hp⟩ := List.mem_filterMap.1 h
    refine List.mem_append_left _ (List.mem_append_left _ (List.mem_filterMap.2 ⟨_, hs, ?_⟩))
    cases s with
    | expr e | «inherit» e => cases hp; rfl
    | inheritFrom i => cases hp
  · obtain ⟨e, he, rfl⟩ := List.mem_map.1 h
    rcases List.mem_append.1 he with he | he
    · exact List.mem_append_left _ (List.mem_append_right _ he)
    · exact List.mem_append_right _ he

theorem Form.mem_parts_of_site {α : Type} {f : Form α} {p : List String × α} (h : p ∈ f.sites) : p.2 ∈ f.parts := by
  have hmap : ∀ (names : List String) {es : List α}, p ∈ es.map (names, ·) → p.2 ∈ es := by
    intro names es hp
    obtain ⟨e, he, rfl⟩ := List.mem_map.1 hp
    exact he
  cases f with
  | lambda param body => exact hmap param.names h
  | letIn g body =>
    rcases List.mem_append.1 h with h | h
    · exact List.mem_append_left _ (Bindings.mem_parts_of_site h)
    · obtain rfl := List.mem_singleton.1 h
      exact List.mem_append_right _ List.mem_cons_self
  | set recursive g =>
    cases recursive with
    | true => exact Bindings.mem_parts_of_site h
    | false => exact hmap [] h
  | withIn scope body =>
    obtain rfl := List.mem_singleton.1 h
    exact List.mem_cons_self
  | _ => exact hmap [] h

def Form.name? {α : Type} : Form α → Option String
  | .ref x => some x
  | _ => none

namespace Expr

/-- The names that an expression uses and does not bind, but for those in the body of a `with`. -/
def free (e : Expr) : List String :=
  e.form.name?.toList ++ e.form.sites.attach.flatMap fun ⟨p, _⟩ => (free p.2).filter (· ∉ p.1)
termination_by sizeOf e
decreasing_by exact sizeOf_mem_parts (Form.mem_parts_of_site ‹_›)

variable {e : Expr} {x : String}

theorem mem_free : x ∈ e.free ↔ e.form.name? = some x ∨ ∃ p ∈ e.form.sites, x ∈ p.2.free ∧ x ∉ p.1 := by
  rw [free, List.mem_append, Option.mem_toList, List.mem_flatMap]
  simp [and_left_comm]

theorem mem_free_of_ref {y : String} (h : e.form = .ref y) : x ∈ e.free ↔ y = x := by
  rw [mem_free, h]
  simp [Form.name?, Form.sites, Form.parts]

theorem mem_free_of_sites (hname : e.form.name? = none) :
    x ∈ e.free ↔ ∃ p ∈ e.form.sites, x ∈ p.2.free ∧ x ∉ p.1 := by
  rw [mem_free, hname]
  simp

theorem exists_site {names : List String} {es : List Expr} :
    (∃ p ∈ es.map (names, ·), x ∈ p.2.free ∧ x ∉ p.1) ↔ (∃ p ∈ es, x ∈ p.free) ∧ x ∉ names := by
  simp only [List.mem_map, ← exists_and_right, and_assoc]
  constructor
  · rintro ⟨_, p, hp, rfl, hx⟩
    exact ⟨p, hp, hx⟩
  · rintro ⟨p, hp, hx⟩
    exact ⟨_, p, hp, rfl, hx⟩

/-- A form that binds nothing has the free names of the parts that are judged. -/
theorem mem_free_of_plain (hname : e.form.name? = none) (hplain : e.form.sites = e.form.parts.map ([], ·)) :
    x ∈ e.free ↔ ∃ p ∈ e.form.judged, x ∈ p.free := by
  have hknown : ∀ p ∈ e.form.knownSteps, x ∉ p.free := by
    intro p hp
    obtain ⟨l, hl⟩ := Form.exists_literal_of_known hp
    rw [mem_free, hl]
    simp [Form.name?, Form.sites, Form.parts]
  rw [mem_free_of_sites hname, hplain, exists_site]
  constructor
  · rintro ⟨⟨p, hp, hx⟩, -⟩
    rcases List.mem_append.1 (e.form.parts_perm.subset hp) with hp | hp
    · exact ⟨p, hp, hx⟩
    · exact absurd hx (hknown p hp)
  · rintro ⟨p, hp, hx⟩
    exact ⟨⟨p, Form.judged_subset hp, hx⟩, List.not_mem_nil⟩

/-- The expression uses a name that nothing binds. -/
def Misses (e : Expr) (env : Env) (x : String) : Prop :=
  x ∈ e.free ∧ x ∉ ["true", "false", "null"] ∧ env.contains x = false

end Expr

/-! ## Assumed names -/

namespace Judgment

def names (J : Judgment) : List String := J.assumptions.entries.map (·.1)

variable {x : String}

theorem mem_names_of_parts {J : Judgment} {js : List Judgment}
    (h : J.assumptions.entries = js.flatMap (·.assumptions.entries)) : x ∈ J.names ↔ ∃ K ∈ js, x ∈ K.names := by
  rw [names, h, List.map_flatMap, List.mem_flatMap]
  rfl

theorem mem_names_removeAll {a : Assumptions} {bound : List String} :
    x ∈ (a.removeAll bound).entries.map (·.1) ↔ x ∈ a.entries.map (·.1) ∧ x ∉ bound := by
  rw [removeAll_entries]
  simp only [List.mem_map, List.mem_filter, decide_eq_true_eq]
  constructor
  · rintro ⟨y, ⟨hy, hbound⟩, rfl⟩
    exact ⟨⟨y, hy, rfl⟩, hbound⟩
  · rintro ⟨⟨y, hy, rfl⟩, hbound⟩
    exact ⟨y, ⟨hy, hbound⟩, rfl⟩

theorem mem_names_lambda {y : String} {t : Ty} {J : Judgment} : x ∈ (lambda y t J).names ↔ x ∈ J.names ∧ x ∉ [y] := by
  have hremove : (lambda y t J).assumptions = J.assumptions.removeAll [y] := rfl
  rw [names, hremove, mem_names_removeAll]
  rfl

theorem mem_names_patternLambda {fields : List PatternField} {whole : Option String} {isOpen : Bool} {J : Judgment} :
    x ∈ (patternLambda fields whole isOpen J).names ↔
      (∃ K ∈ J :: (defaultsOf fields).map (·.1), x ∈ K.names) ∧ x ∉ fields.map (·.name) ++ whole.toList := by
  have hparts : x ∈ (patternParts J fields).names ↔ ∃ K ∈ J :: (defaultsOf fields).map (·.1), x ∈ K.names :=
    mem_names_of_parts rfl
  rw [patternLambda_eq, ← hparts]
  exact mem_names_removeAll

theorem mem_names_letIn {bound : List (String × Ty)} {group : List Judgment} {J : Judgment} {mono : VarSet} :
    x ∈ (letIn bound group J mono).names ↔ (∃ K ∈ group, x ∈ K.names) ∨ (x ∈ J.names ∧ x ∉ bound.map (·.1)) := by
  rw [names, letIn, List.map_append, List.mem_append, mem_names_removeAll, List.map_flatMap, List.mem_flatMap]
  rfl

end Judgment

theorem names_boundTypes {b : Bindings Expr} {js : List Judgment} (h : b.statics.length ≤ js.length) :
    (boundTypes b js).map (·.1) = b.names := List.map_fst_zip (by simpa [Bindings.names] using h)

/-! ## Scopes -/

/-- Nothing around an expression says what the name is. -/
structure Unbound (env : Env) (scopes : List Scope) (x : String) : Prop where
  lexical : lexicalIn scopes x = none
  opened : scopes.filterMap (·.with?) = []
  constant : constant? x = none
  ambient : env.contains x = false

theorem Unbound.assumed {env : Env} {scopes : List Scope} {x : String} (h : Unbound env scopes x) :
    Assumed env scopes x := by
  rw [Assumed, h.lexical]
  exact ⟨h.constant, .inr h.opened⟩

/-- `assumed` and `free` say of an expression under `scopes` that its judgment assumes a type for the name, and that
the name is free in it: the first needs leave of the scopes, and they agree if nothing around binds the name. -/
structure Shows (env : Env) (x : String) (scopes : List Scope) (assumed free : Prop) : Prop where
  leave : assumed → Assumed env scopes x
  agree : Unbound env scopes x → (assumed ↔ free)

section Scopes
variable {env : Env} {x : String} {scopes : List Scope} {a a' b b' : Prop}

theorem Shows.congr (h : Shows env x scopes a b) (ha : a' ↔ a) (hb : b' ↔ b) : Shows env x scopes a' b' := by
  rwa [propext ha, propext hb]

theorem Shows.or (h : Shows env x scopes a b) (h' : Shows env x scopes a' b') :
    Shows env x scopes (a ∨ a') (b ∨ b') where
  leave ha := ha.elim h.leave h'.leave
  agree hx := or_congr (h.agree hx) (h'.agree hx)

theorem shows_never : Shows env x scopes False False := ⟨False.elim, fun _ => Iff.rfl⟩

section Skip
variable {k : Scope} (hk : x ∉ scopeNames k) (hwith : k.with? = none)
include hk hwith

theorem assumed_skip : Assumed env (k :: scopes) x ↔ Assumed env scopes x := by
  rw [Assumed, Assumed, lexicalIn_of_none (lexical?_of_not_mem hk), List.filterMap_cons_none hwith]

/-- A scope that does not bind the name is seen through. -/
theorem Shows.skip (h : Shows env x (k :: scopes) a b) : Shows env x scopes a b where
  leave ha := (assumed_skip hk hwith).1 (h.leave ha)
  agree hx := by
    refine h.agree { hx with lexical := ?_, opened := ?_ }
    · rw [lexicalIn_of_none (lexical?_of_not_mem hk), hx.lexical]
    · rw [List.filterMap_cons_none hwith, hx.opened]

end Skip

/-- Under a scope whose names are taken out of the judgment. -/
theorem Shows.bind {k : Scope} (h : Shows env x (k :: scopes) a b) (hwith : k.with? = none) :
    Shows env x scopes (a ∧ x ∉ scopeNames k) (b ∧ x ∉ scopeNames k) := by
  by_cases hk : x ∈ scopeNames k
  · exact shows_never.congr (by simp [hk]) (by simp [hk])
  · exact (h.skip hk hwith).congr (by simp [hk]) (by simp [hk])

theorem scopeNames_scope (d : Deferral) : scopeNames d.scope = d.group.names := List.zipIdx_map_fst _ _

theorem scopeNames_body (d : Deferral) : scopeNames d.body = d.group.names := List.zipIdx_map_fst _ _

/-- Under the scope of a group, which leaves none of its names to be assumed. -/
theorem Shows.group {d : Deferral} (h : Shows env x (d.scope :: scopes) a b) :
    Shows env x scopes a (b ∧ x ∉ d.group.names) := by
  rw [← scopeNames_scope]
  by_cases hk : x ∈ scopeNames d.scope
  -- an occurrence of a name of the group is a use of its slot
  · have hnever : ¬ a := by
      intro ha
      obtain ⟨l, hl⟩ := exists_lexical?_of_mem hk
      obtain ⟨i, -, rfl⟩ := Option.map_eq_some_iff.1 (show (d.names.lookup x).map _ = some l from hl)
      have hassumed := h.leave ha
      rwa [Assumed, lexicalIn_of_some hl] at hassumed
    exact shows_never.congr (by simp [hnever]) (by simp [hk])
  · exact (h.skip hk rfl).congr Iff.rfl (by simp [hk])

/-- In the body of a `with`, where a name that nothing else binds is no assumption. -/
theorem Shows.withIn {r : Option KnownRecord} (h : Shows env x (.withIn r :: scopes) a b) :
    Shows env x scopes a False := by
  have hassumed : a → Assumed env scopes x ∧ (lexicalIn scopes x = none → env.contains x = true) := by
    intro ha
    have hleave := h.leave ha
    unfold Assumed at hleave ⊢
    rw [lexicalIn_of_none rfl] at hleave
    cases hlexical : lexicalIn scopes x with
    | some l =>
      rw [hlexical] at hleave
      cases l <;> exact ⟨hleave, by rintro ⟨⟩⟩
    | none =>
      rw [hlexical] at hleave
      have hcontains := hleave.2.resolve_right (by simp [Scope.with?])
      exact ⟨⟨hleave.1, .inl hcontains⟩, fun _ => hcontains⟩
  refine ⟨fun ha => (hassumed ha).1, fun hx => iff_of_false (fun ha => ?_) id⟩
  have hcontains := (hassumed ha).2 hx.lexical
  rw [hx.ambient] at hcontains
  cases hcontains

end Scopes

/-! ## The rules -/

section Rules
variable {env : Env} {x : String} {scopes : List Scope}

/-- The name is assumed for an expression where it is free in it. -/
def Shown (env : Env) (x : String) (scopes : List Scope) (e : Expr) (J : Judgment) : Prop :=
  Shows env x scopes (x ∈ J.names) (x ∈ e.free)

theorem shows_forall₂ {α : Type} {R : α → Judgment → Prop} {b : α → Prop}
    (hR : ∀ a J, R a J → Shows env x scopes (x ∈ J.names) (b a)) {as : List α} {js : List Judgment}
    (h : List.Forall₂ R as js) : Shows env x scopes (∃ J ∈ js, x ∈ J.names) (∃ a ∈ as, b a) := by
  induction h with
  | nil => exact shows_never.congr (by simp) (by simp)
  | cons hab _ ih => exact ((hR _ _ hab).or ih).congr (by simp) (by simp)

theorem shows_exprs {es : List Expr} {js : List Judgment} (h : List.Forall₂ (Shown env x scopes) es js) :
    Shows env x scopes (∃ J ∈ js, x ∈ J.names) (∃ e ∈ es, x ∈ e.free) := shows_forall₂ (fun _ _ hJ => hJ) h

theorem Use.names_eq {J : Judgment} (h : Use env J) : J.names = [] := by
  rw [Judgment.names, h.assumptions]
  rfl

theorem Use.shows {J : Judgment} (h : Use env J) : Shows env x scopes (x ∈ J.names) False :=
  shows_never.congr (by simp [h.names_eq]) Iff.rfl

theorem forall₂_append_left {α β : Type} {R : α → β → Prop} {as as' : List α} {bs : List β}
    (h : List.Forall₂ R (as ++ as') bs) :
    ∃ bs₁ bs₂, bs = bs₁ ++ bs₂ ∧ List.Forall₂ R as bs₁ ∧ List.Forall₂ R as' bs₂ := by
  induction as generalizing bs with
  | nil => exact ⟨[], bs, rfl, .nil, h⟩
  | cons a as ih =>
    obtain _ | ⟨hab, h⟩ := h
    obtain ⟨bs₁, bs₂, rfl, h₁, h₂⟩ := ih h
    exact ⟨_ :: bs₁, bs₂, rfl, .cons hab h₁, h₂⟩

/-- The bindings of a group, forced in whatever order, with its computed names. -/
theorem shows_group {d : Deferral} {js extra : List Judgment}
    (hjs : List.Forall₂ (Fulfils env (Shown env x)) d.pendings js)
    (hextra : List.Forall₂ (Shown env x (d.scope :: d.ctx.scopes)) d.group.computed extra) :
    Shows env x d.ctx.scopes (∃ J ∈ js ++ extra, x ∈ J.names) (∃ p ∈ d.group.sites, x ∈ p.2.free ∧ x ∉ p.1) := by
  -- the slots of the names come first, then those of the sources
  obtain ⟨js, sources, rfl, hstatics, hsources⟩ := forall₂_append_left hjs
  have hstatic : ∀ (s : String × Binding Expr) (J : Judgment), Fulfils env (Shown env x) (d.pending s.1 s.2) J →
      Shows env x d.ctx.scopes (x ∈ J.names) (∃ p, s.2.site? d.group.names = some p ∧ x ∈ p.2.free ∧ x ∉ p.1) := by
    rintro ⟨name, s⟩ J hJ
    cases s with
    | expr e =>
      have hbound : Shown env x (d.scope :: d.ctx.scopes) e J := hJ
      exact (Shows.group hbound).congr Iff.rfl (by simp [Binding.site?])
    | «inherit» e =>
      have hbound : Shown env x d.ctx.scopes e J := hJ
      exact hbound.congr Iff.rfl (by simp [Binding.site?])
    | inheritFrom i => exact (Use.shows hJ).congr Iff.rfl (by simp [Binding.site?])
  have hsource : ∀ e J, Fulfils env (Shown env x) ⟨d.scope :: d.ctx.scopes, d.ctx.mono, .expr e⟩ J →
      Shows env x (d.scope :: d.ctx.scopes) (x ∈ J.names) (x ∈ e.free) := fun _ _ hJ => hJ
  have hall := (shows_forall₂ hstatic (List.forall₂_map_left_iff.1 hstatics)).or
    ((shows_forall₂ hsource (List.forall₂_map_left_iff.1 hsources)).group.or (shows_exprs hextra).group)
  refine hall.congr ?_ ?_
  · simp only [List.mem_append, or_and_right, exists_or, or_assoc]
  · rw [Bindings.exists_sites]
    simp only [← exists_and_right, and_assoc]

theorem shows_fields {bs : List (String × Binding Expr)} {fields : List (String × Judgment)}
    (h : List.Forall₂ (FieldJudged env (Shown env x) scopes) bs fields) :
    Shows env x scopes (∃ J ∈ fields.map (·.2), x ∈ J.names) (∃ e ∈ bs.filterMap fun b => b.2.expr?, x ∈ e.free) := by
  induction h with
  | nil => exact shows_never.congr (by simp) (by simp)
  | @cons b f bs fields hf _ ih =>
    obtain ⟨name, b⟩ := b
    cases b with
    | expr e | «inherit» e =>
      exact (Shows.or (show Shown env x scopes e f.2 from hf.2) ih).congr (by simp) (by simp [Binding.expr?])
    | inheritFrom i => exact ((Use.shows hf.2).or ih).congr (by simp) (by simp [Binding.expr?])

theorem forall₂_defaults {T : List Scope → Expr → Judgment → Prop} {fs : List (String × Option Expr)}
    {ds : List (Option Judgment)} {vars : List Nat} (hvars : vars.length = fs.length)
    (h : List.Forall₂ (DefaultJudged T scopes) fs ds) :
    List.Forall₂ (T scopes) (fs.filterMap (·.2)) ((defaultsOf (patternFields fs vars ds)).map (·.1)) := by
  induction h generalizing vars with
  | nil => exact .nil
  | @cons f d fs ds hd _ ih =>
    obtain ⟨v, vars, rfl⟩ := List.exists_cons_of_length_eq_add_one hvars
    have hrest := @ih vars (by simpa using hvars)
    obtain ⟨name, dflt⟩ := f
    cases hd with
    | none => exact hrest
    | some hJ => exact .cons hJ hrest

/-- What a form makes of its parts. -/
theorem Follows.shows {e : Expr} {J : Judgment} (h : Follows env (Shown env x) scopes e.form J) :
    Shown env x scopes e J := by
  obtain ⟨id, span, f⟩ := e
  have hplain : ∀ js : List Judgment, f.name? = none → f.sites = f.parts.map ([], ·) →
      (x ∈ J.names ↔ ∃ K ∈ js, x ∈ K.names) → List.Forall₂ (Shown env x scopes) f.judged js →
      Shown env x scopes (.mk id span f) J :=
    fun _ hname hsites hJ hjs => (shows_exprs hjs).congr hJ (Expr.mem_free_of_plain hname hsites)
  have hsites : f.name? = none → (x ∈ (Expr.mk id span f).free ↔ ∃ p ∈ f.sites, x ∈ p.2.free ∧ x ∉ p.1) :=
    Expr.mem_free_of_sites (e := .mk id span f)
  change Follows env (Shown env x) scopes f J at h
  cases h with
  | missing v | literal l => exact hplain [] rfl rfl (iff_of_false List.not_mem_nil (by simp)) .nil
  | @assumed y hy v =>
    have hnames : x ∈ (Judgment.reference y (.var v)).names ↔ y = x := by
      simp [Judgment.names, Judgment.reference, Assumptions.single, eq_comm]
    refine ⟨fun hx => ?_, fun hx => hnames.trans ?_⟩
    · obtain rfl := hnames.1 hx
      exact hy
    · exact (Expr.mem_free_of_ref rfl).symm
  | @used y J hy use =>
    refine ⟨use.shows.leave, fun hx => (use.shows.agree hx).trans (iff_of_false False.elim fun hfree => ?_)⟩
    obtain rfl := (Expr.mem_free_of_ref rfl).1 hfree
    exact hy hx.assumed
  | @apply fn arg Jf Ja hfn harg v =>
    exact hplain _ rfl rfl (Judgment.mem_names_of_parts rfl) (.cons hfn (.cons harg .nil))
  | @lambda y body J v h =>
    refine (Shows.bind h rfl).congr Judgment.mem_names_lambda ((hsites rfl).trans ?_)
    rw [Form.sites, Expr.exists_site]
    simp [Param.defaults, Param.names, scopeNames]
  | @pattern fs ellipsis whole body vars ds J hvars hds h =>
    have hparts := (shows_exprs (forall₂_defaults hvars hds)).or h
    refine (hparts.bind rfl).congr (Judgment.mem_names_patternLambda.trans ?_) ((hsites rfl).trans ?_)
    · rw [names_patternFields hvars hds.length_eq.symm]
      simp [scopeNames, or_comm]
    · rw [Form.sites, Expr.exists_site]
      simp only [Param.defaults, Param.names, scopeNames, List.mem_append, List.mem_singleton, or_and_right, exists_or,
        exists_eq_left]
  | @letIn d body js extra J hscopes hjs hextra h =>
    subst hscopes
    -- the group keeps its names to itself, and the `let` takes them out of the body's assumptions
    refine ((shows_group hjs hextra).or (Shows.bind h rfl)).congr (Judgment.mem_names_letIn.trans ?_)
      ((hsites rfl).trans ?_)
    · rw [names_boundTypes (by rw [← hjs.length_eq, d.length_pendings]; exact Nat.le_add_right _ _), scopeNames_body]
    · rw [Form.sites, scopeNames_body]
      simp [or_and_right, exists_or]
  | @recSet d js extra hscopes hjs hextra =>
    subst hscopes
    exact (shows_group hjs hextra).congr (Judgment.mem_names_of_parts rfl) (hsites rfl)
  | @plainSet b fields sources extra hsources hfields hextra =>
    have hall := (shows_fields hfields).or ((shows_exprs hsources).or (shows_exprs hextra))
    refine hall.congr ((Judgment.mem_names_of_parts rfl).trans ?_) ((Expr.mem_free_of_plain rfl rfl).trans ?_)
    · simp only [List.mem_append, or_and_right, exists_or]
    · simp only [Expr.form, Form.judged, Form.parts, Bindings.parts, Bindings.computed, List.mem_append, or_and_right,
        exists_or, or_assoc]
  | list h => exact hplain _ rfl rfl (Judgment.mem_names_of_parts rfl) h
  | unary h v => exact hplain _ rfl rfl (Judgment.mem_names_of_parts rfl) (.cons h .nil)
  | @binary op l r Jl Jr hl hr v =>
    refine hplain _ rfl rfl ?_ (.cons hl (.cons hr .nil))
    unfold Judgment.binary
    split
    · exact Judgment.mem_names_of_parts rfl
    · exact Judgment.mem_names_of_parts rfl
  | @select subject path dflt J result steps ds h hsteps hds use =>
    refine hplain (J :: steps ++ ds) rfl rfl ((Judgment.mem_names_of_parts rfl).trans ?_)
      (List.rel_append (.cons h hsteps) hds)
    simp [or_and_right, exists_or, use.names_eq]
  | hasAttr h hsteps => exact hplain _ rfl rfl (Judgment.mem_names_of_parts rfl) (.cons h hsteps)
  | ifElse hcond hyes hno =>
    exact hplain _ rfl rfl (Judgment.mem_names_of_parts rfl) (.cons hcond (.cons hyes (.cons hno .nil)))
  | @withIn scope body Js Jb r hscope hbody =>
    refine (Shows.or hscope (Shows.withIn hbody)).congr ((Judgment.mem_names_of_parts rfl).trans ?_)
      ((hsites rfl).trans ?_)
    · simp
    · simp [Form.sites]
  | assertIn hcond hbody => exact hplain _ rfl rfl (Judgment.mem_names_of_parts rfl) (.cons hcond (.cons hbody .nil))
  | stringParts h | pathParts h => exact hplain _ rfl rfl (Judgment.mem_names_of_parts rfl) h

end Rules

/-- In a judgment of which a history tells, a name is assumed where it is free. -/
theorem Judging.Holds.shown {env : Env} {root : Expr} {forcing : List Nat} {s : State} (h : Holds env root forcing s)
    {scopes : List Scope} {e : Expr} {J : Judgment} (hJ : Told s.history scopes e J) (x : String) :
    Shown env x scopes e J := by
  induction e using Expr.parts_induction generalizing scopes J with
  | h e ih =>
    obtain ⟨ctx, rfl, hmem⟩ := hJ
    exact ((h.lawful ctx e J hmem).mono fun p hp _ _ hK => ih p (Form.judged_subset hp) hK).shows

theorem constant?_eq_none {x : String} : constant? x = none ↔ x ∉ ["true", "false", "null"] := by
  unfold constant?
  split <;> simp_all

/-! ## What is reported -/

theorem pairwise_insertName {x : String} {s : List String} (h : s.Pairwise (· < ·)) :
    (insertName x s).Pairwise (· < ·) := by
  induction s with
  | nil => exact List.pairwise_singleton _ _
  | cons y s ih =>
    obtain ⟨hy, hs⟩ := List.pairwise_cons.1 h
    unfold insertName
    split
    · next hxy =>
      refine List.pairwise_cons.2 ⟨fun z hz => ?_, h⟩
      rcases List.mem_cons.1 hz with rfl | hz
      · exact hxy
      · exact hxy.trans (hy z hz)
    · split
      · exact h
      · next hxy hne =>
        refine List.pairwise_cons.2 ⟨fun z hz => ?_, ih hs⟩
        rcases mem_insertName.1 hz with rfl | hz
        · exact lt_of_le_of_ne (not_lt.1 hxy) (Ne.symm hne)
        · exact hy z hz

theorem pairwise_sortNames (xs : List String) : (sortNames xs).Pairwise (· < ·) := by
  have hfold : ∀ s : List String, s.Pairwise (· < ·) → (xs.foldl (fun s x => insertName x s) s).Pairwise (· < ·) := by
    induction xs with
    | nil => exact fun _ hs => hs
    | cons x xs ih => exact fun s hs => ih _ (pairwise_insertName hs)
  exact hfold [] .nil

/-- No branch of a search fails for names. -/
theorem Search.keeps_bound : Keeps (fun _ _ => True) fun p => ∀ e ∈ p.errors, ∀ names, e ≠ .unbound names where
  wait _ _ _ _ _ := trivial
  step _ _ _ _ _ _ := trivial
  note _ _ hp := hp
  issue _ _ hp := hp
  found _ _ _ _ hp := hp
  failed p l r e he hp d hd := by
    rcases Array.mem_push.1 hd with hd | rfl
    · exact hp d hd
    · rintro names rfl
      exact Ty.ofTypes_unify l r _ he
  stuck p n _ _ _ hp d hd := by
    rcases Array.mem_push.1 hd with hd | rfl
    · exact hp d hd
    · rintro names ⟨⟩

theorem schemesOf_solve_ne {t : Ty} {cs : List Constraint} {next : Nat} {limit : Option Nat} {names : List String} :
    schemesOf t (solve cs next limit) ≠ .error (.typeErrors [.unbound names]) := by
  have hbound : ∀ e ∈ (solve cs next limit).errors, ∀ names, e ≠ .unbound names :=
    Search.explore_keeps Search.keeps_bound (fun _ _ => trivial) (by simp)
  intro h
  unfold schemesOf at h
  split at h
  · split at h
    · cases h
    · next errors hne herrors =>
      injection h with h
      injection h with h
      have hmem : TypeError.unbound names ∈ distinct (solve cs next limit).errors.toList := by
        rw [h]
        exact List.mem_singleton_self _
      exact hbound _ (Array.mem_def.2 (mem_distinct.1 hmem)) names rfl
  · cases h

/-- Inference reports unbound names just if there are any. -/
theorem Expr.infer_unbound {e : Expr} {env : Env} {J : Judgment} {s : State} (h : e.judge env = .ok (J, s))
    (limit : Option Nat) (names : List String) : (e.infer env limit).result = .error (.typeErrors [.unbound names]) ↔
      env.unbound J.assumptions = names ∧ names ≠ [] := by
  unfold infer
  rw [h]
  dsimp only
  split
  · next hnone =>
    rw [hnone]
    exact iff_of_false schemesOf_solve_ne fun hn => hn.2 hn.1.symm
  · next names' hne =>
    constructor
    · intro h
      cases h
      exact ⟨rfl, hne⟩
    · rintro ⟨rfl, -⟩
      rfl

/-- The names that nothing binds, for a judgment of a walk that is done. -/
theorem Judging.Holds.mem_unbound {env : Env} {root e : Expr} {s : State} (h : Holds env root [] s) {J : Judgment}
    (hJ : Told s.history [] e J) {x : String} : x ∈ env.unbound J.assumptions ↔ e.Misses env x := by
  have hshown := h.shown hJ x
  rw [Env.unbound, List.mem_filter, Assumptions.keys, mem_sortNames, Expr.Misses, ← constant?_eq_none,
    Bool.not_eq_true']
  constructor
  · rintro ⟨hx, hcontains⟩
    -- no scope is left, so only a constant could have resolved the name before
    have hconstant : constant? x = none := (hshown.leave hx).1
    exact ⟨(hshown.agree ⟨rfl, rfl, hconstant, hcontains⟩).1 hx, hconstant, hcontains⟩
  · rintro ⟨hfree, hconstant, hcontains⟩
    exact ⟨(hshown.agree ⟨rfl, rfl, hconstant, hcontains⟩).2 hfree, hcontains⟩

/-- The names that inference reports for a lowered tree are those that it misses. -/
theorem unbound_names_reported_ofTree {source : String} {tree : Tree} {m : Module} {odd : List Oddity}
    (hm : Module.ofTree source tree = (m, odd)) (env : Env) (limit : Option Nat) :
    ((∃ names, (m.entry.infer env limit).result = .error (.typeErrors [.unbound names])) ↔ ∃ x, m.entry.Misses env x) ∧
    ∀ names, (m.entry.infer env limit).result = .error (.typeErrors [.unbound names]) →
      names.Pairwise (· < ·) ∧ ∀ x, x ∈ names ↔ m.entry.Misses env x := by
  obtain ⟨J, s, hjudge, hs, -, hJ⟩ := m.entry.judge_total (Module.sourced_entry hm) env
  have hreport := Expr.infer_unbound hjudge limit
  refine ⟨⟨?_, ?_⟩, fun names hnames => ?_⟩
  · rintro ⟨names, hnames⟩
    obtain ⟨rfl, hne⟩ := (hreport names).1 hnames
    obtain ⟨x, hx⟩ := List.exists_mem_of_ne_nil _ hne
    exact ⟨x, (hs.mem_unbound hJ).1 hx⟩
  · rintro ⟨x, hx⟩
    exact ⟨_, (hreport _).2 ⟨rfl, List.ne_nil_of_mem ((hs.mem_unbound hJ).2 hx)⟩⟩
  · obtain ⟨rfl, -⟩ := (hreport names).1 hnames
    exact ⟨(pairwise_sortNames _).filter _, fun x => hs.mem_unbound hJ⟩

/-- Inference of a module fails for unbound names just if it uses a name that nothing binds, and it reports all of
them, in order and each once. -/
theorem unbound_names_reported {text : String} {m : Module} {odd : List Oddity}
    (htext : Module.ofText? text = some (m, odd)) (env : Env) (limit : Option Nat) :
    ((∃ names, (m.entry.infer env limit).result = .error (.typeErrors [.unbound names])) ↔ ∃ x, m.entry.Misses env x) ∧
    ∀ names, (m.entry.infer env limit).result = .error (.typeErrors [.unbound names]) →
      names.Pairwise (· < ·) ∧ ∀ x, x ∈ names ↔ m.entry.Misses env x := by
  obtain ⟨tree, -, hm⟩ := Module.exists_tree htext
  exact unbound_names_reported_ofTree hm env limit

/-- The module of `let inherit b; in b (with a; w) c`. -/
def inheritedName : Module where
  entry := .mk 8 (some ⟨0, 33⟩) (.letIn ⟨[("b", .inherit (.mk 0 (some ⟨12, 13⟩) (.ref "b")))], [], []⟩
    (.mk 7 (some ⟨18, 33⟩) (.apply (.mk 5 (some ⟨18, 31⟩) (.apply (.mk 1 (some ⟨18, 19⟩) (.ref "b"))
        (.mk 4 (some ⟨21, 30⟩) (.withIn (.mk 2 (some ⟨26, 27⟩) (.ref "a")) (.mk 3 (some ⟨29, 30⟩) (.ref "w"))))))
      (.mk 6 (some ⟨32, 33⟩) (.ref "c")))))
  count := 9

/-- A name that is inherited is looked up outside of its `let`, and one in the body of a `with` is left alone. -/
theorem unbound_names_reported_inherited_name :
    Module.ofText? "let inherit b; in b (with a; w) c" = some (inheritedName, []) ∧
    (inheritedName.entry.infer ∅ none).result = .error (.typeErrors [.unbound ["a", "b", "c"]]) ∧
    ∀ x, x ∈ ["a", "b", "c"] ↔ inheritedName.entry.Misses ∅ x := by
  have htext : Module.ofText? "let inherit b; in b (with a; w) c" = some (inheritedName, []) := by cbv
  have hnames : (inheritedName.entry.judge ∅).toOption.map (fun r => r.1.names) = some ["b", "a", "c"] := by cbv
  obtain ⟨tree, -, hm⟩ := Module.exists_tree htext
  obtain ⟨J, s, hjudge, -⟩ := inheritedName.entry.judge_total (Module.sourced_entry hm) ∅
  rw [hjudge] at hnames
  have hunbound : Env.unbound ∅ J.assumptions = ["a", "b", "c"] := by
    rw [Env.unbound, Assumptions.keys, show J.assumptions.entries.map (·.1) = _ from Option.some.inj hnames]
    decide +kernel
  have hresult := (Expr.infer_unbound hjudge none ["a", "b", "c"]).2 ⟨hunbound, by simp⟩
  exact ⟨htext, hresult, ((unbound_names_reported htext ∅ none).2 _ hresult).2⟩

end NixTyping
